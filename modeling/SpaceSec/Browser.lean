import SpaceSec.DashboardState
import SpaceSec.Library.FloatOrder

namespace SpaceSec.Browser

open Python Dashboard

def jsTruthy : Value → Bool
  | .none => false
  | .bool b => b
  | .int n => n ≠ 0
  | .float x => x != 0
  | .str s => !s.isEmpty
  | .list _ | .dict _ => true

/-- `e.name || value` -/
def orElse (e : Dict) (name : String) (value : String) : Value :=
  ((Dict.get e (str name)).filter jsTruthy).getD (.str (str value))

/-- `e.name === value` -/
def isString (e : Dict) (name : String) (value : String) : Bool :=
  ((Dict.get e (str name)).map (·.eqStr (str value))).getD false

def isCritical (e : Dict) : Bool :=
  isString e "type" "REJECTED" && isString e "severity" "CRITICAL"

mutual

/-- Whether JavaScript can make a string of the value; an object that brings a `toString` of its own
brings no function. -/
def convertsToString : Value → Bool
  | .list values => allConvertToString values
  | .dict items => (Dict.get items (str "toString")).isNone
  | _ => true

def allConvertToString : List Value → Bool
  | [] => true
  | value :: values => convertsToString value && allConvertToString values

end

structure Alert where
  sev : Value
  reason : Option Value
  session : Value
  timestamp : Option Value

def Alert.ofEvent (e : Dict) : Alert where
  sev := orElse e "severity" "LOW"
  reason := Dict.get e (str "reason")
  session := orElse e "session_id" "?"
  timestamp := Dict.get e (str "timestamp")

/-- Whether its entry in the feed can be made; what is undefined is no obstacle. -/
def Alert.renders (alert : Alert) : Bool :=
  convertsToString alert.sev && alert.reason.all convertsToString &&
    convertsToString alert.session && alert.timestamp.all convertsToString

/-- The alerts of the rejected events, the newest first. -/
def alerts (recent : List Dict) : List Alert :=
  ((recent.filter (isString · "type" "REJECTED")).reverse).map .ofEvent

/-- What the page shows, and how often it has flashed its banner. -/
structure Page where
  linkStatus : Option LinkStatus := none
  accepted : ℕ := 0
  rejected : ℕ := 0
  avgLatencyMs : ℤ := 0
  chart : List (ℕ × ℕ) := []
  feed : List Alert := []
  lastCriticalSeen : Float := 0
  flashes : ℕ := 0

/-- The number that JavaScript makes of a value; `coerce` does so for strings, arrays and
objects. -/
def jsNumber (coerce : Value → Float) : Value → Float
  | .none => 0
  | .bool b => if b then 1 else 0
  | .int n => Float.ofInt n
  | .float x => x
  | value => coerce value

variable (coerce : Value → Float)

def timestamp (e : Dict) : Float :=
  ((Dict.get e (str "timestamp")).map (jsNumber coerce)).getD (0 / 0)

def newestCritical (recent : List Dict) : Float :=
  ((recent.filter isCritical).map (timestamp coerce)).foldl FloatOrder.mathMax 0

/-- A tick, from the point where it has the parsed response. An alert that cannot be made ends it
there. -/
def tick (page : Page) (s : Response) : Page :=
  let page := { page with
    linkStatus := some s.linkStatus
    accepted := s.accepted
    rejected := s.rejected
    avgLatencyMs := s.avgLatencyMs
    chart := dequeAppend 30 page.chart (s.accepted, s.rejected)
    feed := (alerts s.recent).takeWhile Alert.renders }
  if (alerts s.recent).all Alert.renders then
    let newest := newestCritical coerce s.recent
    if page.lastCriticalSeen < newest then
      { page with lastCriticalSeen := newest, flashes := page.flashes + 1 }
    else page
  else page

/-- A response on its way to the page, with the number of events stored when it was made. -/
structure Reply where
  response : Response
  stored : ℕ

/-- Whether `r.json()` can parse the response. -/
def isJson (s : Response) : Bool := s.recent.all fun e ↦ Value.isJsonItems e

/-- Whether a tick with the response comes to its end. -/
def completes (s : Response) : Bool := isJson s && (alerts s.recent).all Alert.renders

/-- The dashboard, the page and the responses between them. `seen` holds the responses of the ticks
that succeeded, and `lastTick` the number of events stored when the newest of them was made. -/
structure Monitor where
  history : History := {}
  replies : List Reply := []
  page : Page := {}
  seen : List Response := []
  lastTick : ℕ := 0

inductive Action
  | store (nowMs : ℤ) (body : Option Value)
  | respond
  | receive (i : ℕ)
  | lose (i : ℕ)

namespace Monitor

def receive (m : Monitor) (reply : Reply) : Monitor :=
  { m with
    page := if isJson reply.response then tick coerce m.page reply.response else m.page
    seen := if completes reply.response then m.seen ++ [reply.response] else m.seen
    lastTick := if completes reply.response then max m.lastTick reply.stored else m.lastTick }

/-- One step of the dashboard, of the network or of the page; a tick whose request fails leaves the
page as it is. -/
def step (m : Monitor) : Action → Monitor
  | .store nowMs body => { m with history := m.history.handle (.event nowMs body) }
  | .respond =>
    match state m.history.state with
    | .ok response => { m with replies := m.replies ++ [⟨response, m.history.stored.length⟩] }
    | .error _ => m
  | .receive i =>
    match m.replies[i]? with
    | some reply => { m with replies := m.replies.eraseIdx i }.receive coerce reply
    | none => m
  | .lose i => { m with replies := m.replies.eraseIdx i }

def after (actions : List Action) : Monitor := actions.foldl (step coerce) {}

end Monitor

end SpaceSec.Browser
