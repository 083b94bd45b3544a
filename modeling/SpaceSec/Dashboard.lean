import SpaceSec.Library.Python

namespace SpaceSec.Dashboard

open Python

structure Totals where
  accepted : ℕ := 0
  rejected : ℕ := 0

structure LatencySum where
  ms : Number := .int 0
  n : ℕ := 0

structure State where
  events : List Dict := []
  totals : Totals := {}
  latencySum : LatencySum := {}

def validSeverities : List Str := [str "LOW", str "MEDIUM", str "CRITICAL"]

def reasonSeverity : List (Str × Str) :=
  [(str "OK", str "LOW"), (str "TAG_FAIL", str "CRITICAL"), (str "REPLAY_TS", str "CRITICAL"),
    (str "DUP_NONCE", str "CRITICAL"), (str "DECRYPT_FAIL", str "CRITICAL"),
    (str "BAD_FORMAT", str "MEDIUM")]

/-- `value in VALID_SEVERITIES`; a lookup in a set hashes the value first. -/
def inValidSeverities (value : Value) : Except Exception Bool :=
  if value.hashable then .ok (validSeverities.any value.eqStr) else .error .typeError

def severityOfReason (reason : Value) : Except Exception Str :=
  if reason.hashable then
    .ok (((reasonSeverity.find? fun item ↦ reason.eqStr item.1).map Prod.snd).getD (str "LOW"))
  else .error .typeError

/-- The request body, `none` when it is no JSON, with its defaults filled in. -/
def fillDefaults (nowMs : ℤ) (body : Option Value) : Except Exception Dict := do
  let e := body.getD .none
  let e := if e.truthy then e else .dict []
  match e with
  | .dict e =>
    let e := Dict.setdefault e (str "timestamp") (.int nowMs)
    let e := Dict.setdefault e (str "type") (.str (str "REJECTED"))
    let e := Dict.setdefault e (str "reason") (.str (str "OK"))
    if ← inValidSeverities ((Dict.get e (str "severity")).getD .none) then
      return e
    else
      let severity ← severityOfReason ((Dict.get e (str "reason")).getD (.str []))
      return Dict.setItem e (str "severity") (.str severity)
  | _ => throw .attributeError

def latencyOf (e : Dict) : Option Number :=
  ((Dict.get e (str "latency_ms")).bind Value.number?).filter Number.nonneg

/-- The cumulative counters; an exception leaves what was updated before it. -/
def updateCounters (e : Dict) (type : Value) (s : State) : Except Exception Unit × State :=
  if type.eqStr (str "ACCEPTED") then
    let s := { s with totals := { s.totals with accepted := s.totals.accepted + 1 } }
    match latencyOf e with
    | none => (.ok (), s)
    | some lat =>
      match s.latencySum.ms.add lat with
      | .error ex => (.error ex, s)
      | .ok ms => (.ok (), { s with latencySum := { ms, n := s.latencySum.n + 1 } })
  else (.ok (), { s with totals := { s.totals with rejected := s.totals.rejected + 1 } })

/-- `POST /api/event`. It answers the event that it stored, or the exception that it raised. -/
def ingestEvent (nowMs : ℤ) (body : Option Value) (s : State) : Except Exception Dict × State :=
  match fillDefaults nowMs body with
  | .error ex => (.error ex, s)
  | .ok e =>
    match Dict.getItem e (str "type") with
    | .error ex => (.error ex, s)
    | .ok type =>
      match updateCounters e type s with
      | (.error ex, s) => (.error ex, s)
      | (.ok (), s) => (.ok e, { s with events := dequeAppend 500 s.events e })

def reset (_ : State) : State where
  events := []
  totals := { accepted := 0, rejected := 0 }
  latencySum := { ms := .int 0, n := 0 }

inductive Request
  | event (nowMs : ℤ) (body : Option Value)
  | reset

def isAccepted (e : Dict) : Bool :=
  ((Dict.get e (str "type")).map (·.eqStr (str "ACCEPTED"))).getD false

structure Stores (e : Dict) (s s' : State) : Prop where
  events : s'.events = dequeAppend 500 s.events e
  accepted : s'.totals.accepted = s.totals.accepted + if isAccepted e then 1 else 0
  rejected : s'.totals.rejected = s.totals.rejected + if isAccepted e then 0 else 1
  n : s'.latencySum.n =
    s.latencySum.n + if isAccepted e && (latencyOf e).isSome then 1 else 0

/-- The request is an accepted event whose latency cannot be added to the running sum: one of them
is a float and the other an integer too large for one. -/
def Overflows (s : State) : Request → Prop
  | .event nowMs body => ∃ e lat, fillDefaults nowMs body = .ok e ∧ isAccepted e = true ∧
    latencyOf e = some lat ∧ s.latencySum.ms.Incompatible lat
  | .reset => False

theorem eqStr_of_getItem {e : Dict} {type : Value}
    (h : Dict.getItem e (str "type") = .ok type) : type.eqStr (str "ACCEPTED") = isAccepted e := by
  rw [Dict.getItem] at h
  rw [isAccepted]
  cases hget : Dict.get e (str "type") with
  | none => rw [hget] at h; cases h
  | some value =>
    rw [hget] at h
    obtain rfl := Except.ok.inj h
    rfl

theorem isAccepted_of_getItem_error {e : Dict} {ex : Exception}
    (h : Dict.getItem e (str "type") = .error ex) : isAccepted e = false := by
  rw [Dict.getItem] at h
  rw [isAccepted]
  cases hget : Dict.get e (str "type") with
  | none => rfl
  | some value => rw [hget] at h; cases h

/-- The counters are updated as a whole, unless the addition to the running sum raises. -/
theorem updateCounters_cases (e : Dict) (type : Value) (s : State) :
    (∃ s', updateCounters e type s = (.ok (), s') ∧ s'.events = s.events ∧
      s'.totals.accepted = s.totals.accepted + (if type.eqStr (str "ACCEPTED") then 1 else 0) ∧
      s'.totals.rejected = s.totals.rejected + (if type.eqStr (str "ACCEPTED") then 0 else 1) ∧
      s'.latencySum.n = s.latencySum.n +
        if type.eqStr (str "ACCEPTED") && (latencyOf e).isSome then 1 else 0) ∨
    ∃ ex lat, updateCounters e type s =
        (.error ex, { s with totals := { s.totals with accepted := s.totals.accepted + 1 } }) ∧
      type.eqStr (str "ACCEPTED") = true ∧ latencyOf e = some lat ∧
      s.latencySum.ms.Incompatible lat := by
  by_cases htype : type.eqStr (str "ACCEPTED") = true
  · rw [updateCounters, if_pos htype]
    cases hlat : latencyOf e with
    | none => exact Or.inl ⟨_, rfl, by simp [htype]⟩
    | some lat =>
      cases hadd : s.latencySum.ms.add lat with
      | error ex =>
        exact Or.inr ⟨ex, lat, by simp [hadd], htype, rfl, Number.add_eq_error.mp ⟨ex, hadd⟩⟩
      | ok ms => exact Or.inl ⟨_, by simp [hadd]; rfl, by simp [htype]⟩
  · rw [updateCounters, if_neg htype]
    exact Or.inl ⟨_, rfl, by simp [htype]⟩

end SpaceSec.Dashboard
