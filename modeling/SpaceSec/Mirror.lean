import SpaceSec.DashboardState
import SpaceSec.EventText

namespace SpaceSec

namespace Dashboard

open Python DashboardClient

/-- `request.get_json(force=True, silent=True)` -/
def getJson (data : Bytes) : Option Value := (Http.decodeUtf8 data).bind Json.loads

/-- The routes that act on the state. -/
def route (nowMs : ℤ) (request : Http.Request) : Option Request :=
  let path := request.target.takeWhile (· ≠ '?')
  if request.method ≠ "POST".toList then none
  else if path = "/api/event".toList then some (.event nowMs (getJson request.body))
  else if path = "/api/reset".toList then some .reset
  else none

/-- The requests that act on the state among those received, the `i`-th of which is answered at
`clock i`. -/
def requests (clock : ℕ → ℤ) (received : List Bytes) : List Request :=
  (received.mapIdx fun i data ↦ (Http.readRequest data).bind (route (clock i))).reduceOption

def entry (nowMs : ℤ) (event : SecurityEvent) : Dict :=
  eventDict event ++ [(str "timestamp", .int nowMs)]

structure Reportable (event : SecurityEvent) : Prop extends CleanEvent event where
  validSeverity : event.severity = "LOW" ∨ event.severity = "MEDIUM" ∨ event.severity = "CRITICAL"

theorem route_eventHttp {event : SecurityEvent} (h : CleanEvent event) (nowMs : ℤ) :
    route nowMs (eventHttp event) = some (.event nowMs (some (.dict (eventDict event)))) := by
  have hjson : getJson (Http.encodeUtf8 (eventBody event)) = some (.dict (eventDict event)) := by
    rw [getJson, Http.decode_encodeUtf8, Option.bind_some, h.loads]
  have hpath : "/api/event".toList.takeWhile (· ≠ '?') = "/api/event".toList := by decide
  simp only [route, eventHttp, hpath, hjson, ne_eq, not_true_eq_false, if_false, if_true]

theorem requests_concat {event : SecurityEvent} (h : CleanEvent event) (clock : ℕ → ℤ)
    (received : List Bytes) : requests clock (received ++ [written event]) =
      requests clock received ++
        [.event (clock received.length) (some (.dict (eventDict event)))] := by
  rw [requests, List.mapIdx_concat, List.reduceOption_append, h.readRequest, Option.bind_some,
    route_eventHttp h]
  rfl

theorem fillDefaults_eventDict {event : SecurityEvent} (h : Reportable event) (nowMs : ℤ) :
    fillDefaults nowMs (some (.dict (eventDict event))) = .ok (entry nowMs event) := by
  have hset : Dict.setdefault (Dict.setdefault (Dict.setdefault (eventDict event)
      (str "timestamp") (.int nowMs)) (str "type") (.str (str "REJECTED"))) (str "reason")
        (.str (str "OK")) = entry nowMs event := rfl
  have hseverity : Dict.get (entry nowMs event) (str "severity") =
      some (.str (str event.severity)) := rfl
  have hvalid : inValidSeverities (.str (str event.severity)) = .ok true := by
    rcases h.validSeverity with heq | heq | heq
    · rw [heq]
      rfl
    · rw [heq]
      rfl
    · rw [heq]
      rfl
  have htruthy : Value.truthy (.dict (eventDict event)) = true := rfl
  simp only [fillDefaults, Option.getD_some, htruthy, if_true, hset, hseverity, hvalid]
  rfl

def isAcceptance (event : SecurityEvent) : Bool := event.type == "ACCEPTED"

/-- The latencies that count: those of accepted packets that are not negative. -/
def latencies (events : List SecurityEvent) : List ℤ :=
  ((events.filter isAcceptance).map fun event ↦ event.latencyMs.toInt).filter (0 ≤ ·)

/-- The state stands for a list of reports, the `i`-th of which was received at `clock i`. -/
structure Mirrors (clock : ℕ → ℤ) (events : List SecurityEvent) (s : State) : Prop where
  accepted : s.totals.accepted = events.countP isAcceptance
  rejected : s.totals.rejected = events.countP fun event ↦ !isAcceptance event
  latencySum : s.latencySum = ⟨.int (latencies events).sum, (latencies events).length⟩
  events : s.events = (events.mapIdx fun i event ↦ entry (clock i) event).rtake 500

theorem isAccepted_entry (nowMs : ℤ) (event : SecurityEvent) :
    isAccepted (entry nowMs event) = isAcceptance event := by
  have htype : Dict.get (entry nowMs event) (str "type") = some (.str (str event.type)) := rfl
  rw [isAccepted, htype]
  exact str_beq event.type "ACCEPTED"

theorem latencyOf_entry (nowMs : ℤ) (event : SecurityEvent) : latencyOf (entry nowMs event) =
    if 0 ≤ event.latencyMs.toInt then some (.int event.latencyMs.toInt) else none := by
  have hlatency : Dict.get (entry nowMs event) (str "latency_ms") =
      some (.int event.latencyMs.toInt) := rfl
  rw [latencyOf, hlatency]
  simp only [Option.bind_some, Value.number?, Option.filter_some, Number.nonneg, decide_eq_true_eq]

theorem latencies_append (xs ys : List SecurityEvent) :
    latencies (xs ++ ys) = latencies xs ++ latencies ys := by
  simp only [latencies, List.filter_append, List.map_append]

theorem latencies_singleton (event : SecurityEvent) : latencies [event] =
    if isAcceptance event = true ∧ 0 ≤ event.latencyMs.toInt then [event.latencyMs.toInt]
    else [] := by
  cases hacc : isAcceptance event <;> simp [latencies, hacc, List.filter_cons]

/-- Every report is stored: integers always add up. -/
theorem ingestEvent_eventDict {event : SecurityEvent} (h : Reportable event) (nowMs : ℤ) {s : State}
    {sum : ℤ} (hsum : s.latencySum.ms = .int sum) :
    ∃ s', ingestEvent nowMs (some (.dict (eventDict event))) s = (.ok (entry nowMs event), s') := by
  have htype : Dict.getItem (entry nowMs event) (str "type") = .ok (.str (str event.type)) := rfl
  rw [ingestEvent, fillDefaults_eventDict h]
  simp only [htype]
  rcases updateCounters_cases (entry nowMs event) (.str (str event.type)) s with
    ⟨s', hs', -⟩ | ⟨ex, lat, -, -, hlat, hincompatible⟩
  · rw [hs']
    exact ⟨_, rfl⟩
  · rw [latencyOf_entry] at hlat
    split_ifs at hlat
    obtain rfl := Option.some_inj.mp hlat
    rw [hsum] at hincompatible
    cases hincompatible

theorem addedSum_eventDict {event : SecurityEvent} (h : Reportable event) (nowMs : ℤ) {s : State}
    {sum : ℤ} (hsum : s.latencySum.ms = .int sum) :
    addedSum s (.event nowMs (some (.dict (eventDict event)))) =
      if isAcceptance event = true ∧ 0 ≤ event.latencyMs.toInt then
        some (.int (sum + event.latencyMs.toInt)) else none := by
  have hadded : addedSum s (.event nowMs (some (.dict (eventDict event)))) =
      (acceptedLatency (entry nowMs event)).bind fun lat ↦ (s.latencySum.ms.add lat).toOption := by
    rw [addedSum, fillDefaults_eventDict h]
    rfl
  rw [hadded, acceptedLatency, isAccepted_entry, latencyOf_entry, hsum]
  cases hacc : isAcceptance event with
  | false => rfl
  | true =>
    simp only [if_true, true_and]
    split_ifs <;> rfl

theorem Mirrors.handle {clock : ℕ → ℤ} {events : List SecurityEvent} {h : History}
    (hm : Mirrors clock events h.state) {event : SecurityEvent} (hevent : Reportable event) :
    Mirrors clock (events ++ [event])
      (h.handle (.event (clock events.length) (some (.dict (eventDict event))))).state := by
  have hsum : h.state.latencySum.ms = .int (latencies events).sum := by rw [hm.latencySum]
  obtain ⟨s', hs'⟩ := ingestEvent_eventDict hevent (clock events.length) hsum
  have hstores := ingestEvent_ok hs'
  have hlatency := ingestEvent_latencySum (clock events.length) (some (.dict (eventDict event)))
    h.state
  rw [addedSum_eventDict hevent _ hsum, hs'] at hlatency
  rw [handle_event_state, hs']
  refine ⟨?_, ?_, ?_, ?_⟩
  · rw [hstores.accepted, hm.accepted, isAccepted_entry, List.countP_append, List.countP_singleton]
  · rw [hstores.rejected, hm.rejected, isAccepted_entry, List.countP_append, List.countP_singleton]
    cases isAcceptance event <;> rfl
  · rw [hlatency, latencies_append, latencies_singleton]
    split_ifs
    · simp only [List.sum_append, List.sum_singleton, List.length_append, List.length_singleton,
        hm.latencySum]
    · simp only [List.append_nil, hm.latencySum]
  · rw [hstores.events, hm.events, dequeAppend_rtake, List.mapIdx_concat]

theorem mirrors_written {events : List SecurityEvent} (hevents : ∀ event ∈ events, Reportable event)
    (clock : ℕ → ℤ) :
    Mirrors clock events (History.after (requests clock (events.map written))).state := by
  induction events using List.reverseRecOn with
  | nil => exact ⟨rfl, rfl, rfl, (List.rtake_nil 500).symm⟩
  | append_singleton events event ih =>
    have hevent := hevents event (List.mem_append_right _ (List.mem_singleton_self event))
    rw [List.map_append, List.map_singleton, requests_concat hevent.toCleanEvent, List.length_map,
      after_concat]
    exact (ih fun e he ↦ hevents e (List.mem_append_left _ he)).handle hevent

end Dashboard

namespace Arrival

def latency (a : Arrival) : Int64 := latencyMs a.latencyClock (slicePacket a.received).timestampMs

def report (a : Arrival) (d : Decision) : List SecurityEvent :=
  d.report (slicePacket a.received) a.latency

end Arrival

/-- The decisions made, each with the datagram that it is about. -/
abbrev Decided := List (Arrival × Decision)

namespace Decided

def accepted (decided : Decided) : Decided := decided.filter fun x ↦ x.2.acceptance.isSome

def rejected (decided : Decided) : Decided := decided.filter fun x ↦ x.2.acceptance.isNone

def latencies (decided : Decided) : List ℤ :=
  (decided.accepted.map fun x ↦ x.1.latency.toInt).filter (0 ≤ ·)

def reports (decided : Decided) : List SecurityEvent := decided.flatMap fun x ↦ x.1.report x.2

theorem accepted_append (xs ys : Decided) : accepted (xs ++ ys) = accepted xs ++ accepted ys :=
  List.filter_append xs ys

theorem length_accepted (a : Arrival) (d : Decision) :
    (accepted [(a, d)]).length = if d.acceptance.isSome = true then 1 else 0 := by
  cases d <;> rfl

theorem counts_report (a : Arrival) {d : Decision} (hd : d ≠ .fault) :
    (a.report d).countP Dashboard.isAcceptance = (accepted [(a, d)]).length ∧
      ((a.report d).countP fun event ↦ !Dashboard.isAcceptance event) =
        (rejected [(a, d)]).length ∧
      Dashboard.latencies (a.report d) = latencies [(a, d)] := by
  cases d with
  | fault => exact absurd rfl hd
  | accepted | badFormat | expired | duplicate | tagFail => exact ⟨rfl, rfl, rfl⟩

theorem counts_reports {decided : Decided} (h : ∀ x ∈ decided, x.2 ≠ .fault) :
    decided.reports.countP Dashboard.isAcceptance = decided.accepted.length ∧
      (decided.reports.countP fun event ↦ !Dashboard.isAcceptance event) = decided.rejected.length ∧
      Dashboard.latencies decided.reports = decided.latencies := by
  induction decided with
  | nil => exact ⟨rfl, rfl, rfl⟩
  | cons x decided ih =>
    obtain ⟨a, d⟩ := x
    obtain ⟨haccepted, hrejected, hlatencies⟩ := counts_report a (h (a, d) List.mem_cons_self)
    obtain ⟨ihaccepted, ihrejected, ihlatencies⟩ := ih fun x hx ↦ h x (List.mem_cons_of_mem _ hx)
    have hreports : reports ((a, d) :: decided) = a.report d ++ reports decided := List.flatMap_cons
    have haccepted' : accepted ((a, d) :: decided) = accepted [(a, d)] ++ accepted decided :=
      accepted_append [(a, d)] decided
    have hrejected' : rejected ((a, d) :: decided) = rejected [(a, d)] ++ rejected decided :=
      List.filter_append [(a, d)] decided
    refine ⟨?_, ?_, ?_⟩
    · rw [hreports, haccepted', List.countP_append, List.length_append, haccepted, ihaccepted]
    · rw [hreports, hrejected', List.countP_append, List.length_append, hrejected, ihrejected]
    · rw [hreports, Dashboard.latencies_append, hlatencies, ihlatencies, latencies, latencies,
        latencies, haccepted', List.map_append, List.filter_append]

theorem acks_eq (decided : Decided) :
    decided.flatMap (fun x ↦ x.2.acks) = List.replicate decided.accepted.length (ascii "ACK") := by
  induction decided with
  | nil => rfl
  | cons x decided ih =>
    obtain ⟨a, d⟩ := x
    rw [List.flatMap_cons, ih]
    cases d <;> rfl

end Decided

theorem Decision.reportable {d : Decision} {packet : SecurePacket} {latency : Int64}
    {event : SecurityEvent} (h : event ∈ d.report packet latency) : Dashboard.Reportable event := by
  have htexts : ∀ text ∈ ["ACCEPTED", "REJECTED", "OK", "BAD_FORMAT", "REPLAY_TS", "DUP_NONCE",
      "TAG_FAIL", "LOW", "MEDIUM", "CRITICAL"], DashboardClient.Clean text.toList := by decide
  cases d with
  | fault => cases h
  | accepted | badFormat | expired | duplicate | tagFail =>
    obtain rfl := List.mem_singleton.mp h
    exact ⟨⟨htexts _ (by simp), htexts _ (by simp), htexts _ (by simp)⟩, by simp⟩

namespace Node

variable {Key : Type} (pkey : Pkey Key) (evp : Evp) (satelliteKeypair : Key)

def decided (node : Node) (arrivals : List Arrival) : Decided :=
  (arrivals.zip (node.outputs pkey evp satelliteKeypair arrivals)).filterMap fun x ↦
    x.2.decision.map (x.1, ·)

def posted (node : Node) (arrivals : List Arrival) : List SecurityEvent :=
  (node.outputs pkey evp satelliteKeypair arrivals).flatMap Output.events

/-- What the satellite sends in answer to the packets that it decides on. -/
def answers (node : Node) (arrivals : List Arrival) : List Bytes :=
  ((node.outputs pkey evp satelliteKeypair arrivals).filter (·.decision.isSome)).flatMap Output.sent

variable {pkey evp satelliteKeypair}

theorem step_output (node : Node) (a : Arrival) :
    let output := (node.step pkey evp satelliteKeypair a).2
    let execution := node.execution pkey evp satelliteKeypair a
    (output.decision = none ∧ output.events = [] ∧ execution = none ∧
        ∀ d ∈ output.sent, d = getRawPublicKey pkey satelliteKeypair) ∨
      ∃ d, output.decision = some d ∧ output.events = a.report d ∧ output.sent = d.acks ∧
        execution.isSome = d.acceptance.isSome ∧ d ≠ .fault ∧
        a.received.length ≠ 0 ∧ a.received.length ≠ 32 := by
  intro output execution
  cases node with
  | listening =>
    refine Or.inl ?_
    simp only [output, step, start]
    split_ifs
    · exact ⟨rfl, rfl, rfl, fun d hd ↦ absurd hd List.not_mem_nil⟩
    · exact ⟨rfl, rfl, rfl, fun d hd ↦ List.mem_singleton.mp hd⟩
    · exact ⟨rfl, rfl, rfl, fun d hd ↦ List.mem_singleton.mp hd⟩
  | exited code => exact Or.inl ⟨rfl, rfl, rfl, fun d hd ↦ absurd hd List.not_mem_nil⟩
  | running s =>
    by_cases hempty : a.received.length = 0
    · refine Or.inl ?_
      simp [output, execution, step, Node.execution, loop, hempty]
    · by_cases hlen : a.received.length = 32
      · refine Or.inl ?_
        simp [output, execution, step, execution_handshake hlen, loop_handshake hlen]
      · obtain ⟨hfault, hsent, hevents⟩ := Phase5.process_outcome evp a.received s.sessionKey
          s.replayGuard a.latencyClock a.freshClock
        refine Or.inr ?_
        simp only [output, execution, step, Node.execution, loop, if_neg hempty, if_neg hlen]
        exact ⟨_, rfl, hevents, hsent, by simp [Execution.of], hfault, hempty, hlen⟩

theorem step_packet (s : Session) {a : Arrival} (hempty : a.received.length ≠ 0)
    (hkey : a.received.length ≠ 32) :
    ∃ d event, ((running s).step pkey evp satelliteKeypair a).2.decision = some d ∧
      a.report d = [event] ∧ ((running s).step pkey evp satelliteKeypair a).2.events = [event] := by
  have hreport {d : Decision} (h : d ≠ .fault) : ∃ event, a.report d = [event] := by
    cases d with
    | fault => exact absurd rfl h
    | accepted | badFormat | expired | duplicate | tagFail => exact ⟨_, rfl⟩
  obtain ⟨hfault, -, hevents⟩ := Phase5.process_outcome evp a.received s.sessionKey
    s.replayGuard a.latencyClock a.freshClock
  obtain ⟨event, hevent⟩ := hreport hfault
  simp only [step, loop, if_neg hempty, if_neg hkey]
  exact ⟨_, event, rfl, hevent, hevents.trans hevent⟩

theorem getElem?_outputs {node : Node} {arrivals : List Arrival} {i : ℕ} {a : Arrival}
    (h : arrivals[i]? = some a) : (node.outputs pkey evp satelliteKeypair arrivals)[i]? =
      some ((node.after pkey evp satelliteKeypair (arrivals.take i)).step pkey evp satelliteKeypair
        a).2 := by
  induction arrivals generalizing node i with
  | nil => cases h
  | cons b arrivals ih =>
    cases i with
    | zero =>
      obtain rfl := Option.some_inj.mp h
      rfl
    | succ i => exact ih h

theorem mem_zip_outputs {node : Node} {arrivals : List Arrival} {x : Arrival × Output}
    (h : x ∈ arrivals.zip (node.outputs pkey evp satelliteKeypair arrivals)) :
    ∃ node' : Node, x.2 = (node'.step pkey evp satelliteKeypair x.1).2 := by
  induction arrivals generalizing node with
  | nil => cases h
  | cons a arrivals ih =>
    rw [outputs, List.zip_cons_cons, List.mem_cons] at h
    rcases h with rfl | h
    · exact ⟨node, rfl⟩
    · exact ih h

theorem mem_decided {node : Node} {arrivals : List Arrival} {x : Arrival × Decision}
    (h : x ∈ node.decided pkey evp satelliteKeypair arrivals) : x.2 ≠ .fault := by
  obtain ⟨⟨a, output⟩, hmem, hx⟩ := List.mem_filterMap.mp h
  obtain ⟨d, hd, rfl⟩ := Option.map_eq_some_iff.mp hx
  obtain ⟨node', houtput⟩ := mem_zip_outputs hmem
  simp only at houtput hd
  rcases node'.step_output a with ⟨hnone, -⟩ | ⟨d', hd', -, -, -, hfault, -⟩
  · rw [houtput, hnone] at hd
    cases hd
  · rw [houtput, hd'] at hd
    obtain rfl := Option.some_inj.mp hd
    exact hfault

section

variable (node : Node) (a : Arrival) (arrivals : List Arrival)

theorem posted_cons : node.posted pkey evp satelliteKeypair (a :: arrivals) =
    (node.step pkey evp satelliteKeypair a).2.events ++
      (node.step pkey evp satelliteKeypair a).1.posted pkey evp satelliteKeypair arrivals :=
  List.flatMap_cons

theorem decided_cons : node.decided pkey evp satelliteKeypair (a :: arrivals) =
    ((node.step pkey evp satelliteKeypair a).2.decision.map (a, ·)).toList ++
      (node.step pkey evp satelliteKeypair a).1.decided pkey evp satelliteKeypair arrivals := by
  simp only [decided, outputs, List.zip_cons_cons, List.filterMap_cons]
  cases (node.step pkey evp satelliteKeypair a).2.decision <;> rfl

theorem answers_cons : node.answers pkey evp satelliteKeypair (a :: arrivals) =
    (if (node.step pkey evp satelliteKeypair a).2.decision.isSome = true then
        (node.step pkey evp satelliteKeypair a).2.sent else []) ++
      (node.step pkey evp satelliteKeypair a).1.answers pkey evp satelliteKeypair arrivals := by
  rw [answers, outputs, List.filter_cons]
  split_ifs <;> rfl

end

theorem run_decided (node : Node) (arrivals : List Arrival) :
    let decided := node.decided pkey evp satelliteKeypair arrivals
    node.posted pkey evp satelliteKeypair arrivals = decided.reports ∧
      node.answers pkey evp satelliteKeypair arrivals = decided.flatMap (fun x ↦ x.2.acks) ∧
      (node.executions pkey evp satelliteKeypair arrivals).length = decided.accepted.length := by
  induction arrivals generalizing node with
  | nil => exact ⟨rfl, rfl, rfl⟩
  | cons a arrivals ih =>
    obtain ⟨ihposted, ihanswers, ihexecutions⟩ := ih (node.step pkey evp satelliteKeypair a).1
    rw [posted_cons, answers_cons, executions, decided_cons, List.length_append]
    rcases node.step_output a with ⟨hdecision, hevents, hexecution, -⟩ |
      ⟨d, hdecision, hevents, hsent, hexecution, -⟩
    · rw [hdecision, hevents, hexecution]
      refine ⟨ihposted, ihanswers, ?_⟩
      simpa using ihexecutions
    · rw [hdecision, hevents, hsent, ihposted, ihanswers, ihexecutions]
      refine ⟨rfl, rfl, ?_⟩
      rw [Option.map_some, Option.toList_some, Decided.accepted_append, List.length_append]
      congr 1
      rw [Option.length_toList, Decided.length_accepted, hexecution]

variable (pkey evp satelliteKeypair)

/-- The dashboard's state after the reports of a run, when each is delivered once and in order and
the `i`-th is handled at `clock i`. -/
def mirror (clock : ℕ → ℤ) (arrivals : List Arrival) : Dashboard.State :=
  let posted := posted pkey evp satelliteKeypair .listening arrivals
  (Dashboard.History.after (Dashboard.requests clock (posted.map DashboardClient.written))).state

theorem dashboard_mirrors_satellite (clock : ℕ → ℤ) (arrivals : List Arrival) :
    let decided := decided pkey evp satelliteKeypair .listening arrivals
    let posted := posted pkey evp satelliteKeypair .listening arrivals
    let s := mirror pkey evp satelliteKeypair clock arrivals
    s.totals.accepted = (executions pkey evp satelliteKeypair .listening arrivals).length ∧
      answers pkey evp satelliteKeypair .listening arrivals =
        List.replicate s.totals.accepted (ascii "ACK") ∧
      s.totals.rejected = decided.rejected.length ∧
      s.latencySum = ⟨.int decided.latencies.sum, decided.latencies.length⟩ ∧
      posted = decided.reports ∧
      s.events = (posted.mapIdx fun i event ↦ Dashboard.entry (clock i) event).rtake 500 ∧
      (∀ x ∈ arrivals.zip (outputs pkey evp satelliteKeypair .listening arrivals),
        (x.1.received.length = 0 ∨ x.1.received.length = 32 → x.2.decision = none) ∧
          (x.2.decision = none →
            x.2.events = [] ∧ ∀ d ∈ x.2.sent, d = getRawPublicKey pkey satelliteKeypair)) ∧
      (∀ (i : ℕ) (a : Arrival) (s : Session), arrivals[i]? = some a →
        after pkey evp satelliteKeypair .listening (arrivals.take i) = .running s →
        a.received.length ≠ 0 → a.received.length ≠ 32 →
        ∃ output d event,
          (outputs pkey evp satelliteKeypair .listening arrivals)[i]? = some output ∧
            output.decision = some d ∧ a.report d = [event] ∧ output.events = [event]) ∧
      ∀ event ∈ posted, ∃ request,
        Http.readRequest (DashboardClient.written event) = some request ∧
          DashboardClient.written event = Http.encodeUtf8 request.head ++ request.body ∧
          request.body = Http.encodeUtf8 (DashboardClient.eventBody event) ∧
          Http.contentLength request.fields = some request.body.length := by
  intro decided posted s
  obtain ⟨hposted, hanswers, hexecutions⟩ :=
    @run_decided _ pkey evp satelliteKeypair .listening arrivals
  obtain ⟨haccepted, hrejected, hlatencies⟩ :=
    @Decided.counts_reports decided fun x hx ↦ mem_decided hx
  have hreportable : ∀ event ∈ posted, Dashboard.Reportable event := by
    intro event hevent
    rw [show posted = decided.reports from hposted] at hevent
    obtain ⟨x, -, hx⟩ := List.mem_flatMap.mp hevent
    exact Decision.reportable hx
  have hmirrors := Dashboard.mirrors_written hreportable clock
  have hs : s.totals.accepted = decided.accepted.length := by
    rw [← haccepted, ← hposted]
    exact hmirrors.accepted
  refine ⟨hs.trans hexecutions.symm, ?_, ?_, ?_, hposted, hmirrors.events, ?_, ?_, ?_⟩
  · rw [hanswers, Decided.acks_eq, hs]
  · rw [← hrejected, ← hposted]
    exact hmirrors.rejected
  · rw [← hlatencies, ← hposted]
    exact hmirrors.latencySum
  · intro x hx
    obtain ⟨node, hnode⟩ := mem_zip_outputs hx
    rw [hnode]
    rcases node.step_output x.1 with ⟨hdecision, hevents, -, hsent⟩ |
      ⟨d, hdecision, -, -, -, -, hempty, hkey⟩
    · exact ⟨fun _ ↦ hdecision, fun _ ↦ ⟨hevents, hsent⟩⟩
    · rw [hdecision]
      exact ⟨fun hlength ↦ absurd hlength (not_or.mpr ⟨hempty, hkey⟩), fun hnone ↦ nomatch hnone⟩
  · intro i a s ha hs hempty hkey
    obtain ⟨d, event, hpacket⟩ := @step_packet _ pkey evp satelliteKeypair s a hempty hkey
    exact ⟨_, d, event, getElem?_outputs ha, hs ▸ hpacket⟩
  · intro event hevent
    have hclean := (hreportable event hevent).toCleanEvent
    exact ⟨DashboardClient.eventHttp event, hclean.readRequest, hclean.written_eq,
      DashboardClient.eventHttp_body event, (DashboardClient.eventHttp_wellFormed event).body⟩

end Node

end SpaceSec
