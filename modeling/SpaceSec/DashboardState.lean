import SpaceSec.Accounting

namespace SpaceSec.Dashboard

open Python

inductive LinkStatus
  | disconnected
  | degraded
  | connected
  deriving DecidableEq

structure Response where
  linkStatus : LinkStatus
  accepted : ℕ
  rejected : ℕ
  avgLatencyMs : ℤ
  recent : List Dict

def isRejected (e : Dict) : Bool :=
  ((Dict.get e (str "type")).map (·.eqStr (str "REJECTED"))).getD false

/-- The status shown for the most recent events, the newest last. -/
def linkStatus (events : List Dict) : LinkStatus :=
  if events.isEmpty then .disconnected
  else
    let window := events.rtake 10
    let rej := window.countP isRejected
    let acc := window.countP isAccepted
    if rej ≠ 0 ∧ acc ≤ rej then .degraded else .connected

def avgLatency (latencySum : LatencySum) : Except Exception ℤ :=
  if latencySum.n ≠ 0 then (latencySum.ms.truediv (.int latencySum.n)).bind Number.round else .ok 0

/-- `GET /api/state` -/
def state (s : State) : Except Exception Response := do
  let avgLatencyMs ← avgLatency s.latencySum
  return {
    linkStatus := linkStatus s.events
    accepted := s.totals.accepted
    rejected := s.totals.rejected
    avgLatencyMs
    recent := s.events.rtake 30 }

def acceptedLatency (e : Dict) : Option Number :=
  if isAccepted e then latencyOf e else none

/-- The running sum after the request, if it is an event that adds to it. -/
def addedSum (s : State) : Request → Option Number
  | .event nowMs body => do
    let e ← (fillDefaults nowMs body).toOption
    let lat ← acceptedLatency e
    (s.latencySum.ms.add lat).toOption
  | .reset => none

/-- The sum that the request leaves has no mean: it is infinite or NaN, or it is an integer so
large, or the number of latencies so large, that a division of floats cannot take it. -/
def Spoils (s : State) (request : Request) : Prop :=
  ∃ ms, addedSum s request = some ms ∧ ¬ ms.Averageable (s.latencySum.n + 1)

theorem state_fields {s : State} {response : Response} (h : state s = .ok response) :
    response.linkStatus = linkStatus s.events ∧ response.accepted = s.totals.accepted ∧
      response.rejected = s.totals.rejected ∧ response.recent = s.events.rtake 30 := by
  rw [state] at h
  cases hmean : avgLatency s.latencySum with
  | error ex =>
    rw [hmean] at h
    cases h
  | ok mean =>
    rw [hmean] at h
    obtain rfl := Except.ok.inj h
    exact ⟨rfl, rfl, rfl, rfl⟩

theorem state_eq_ok {s : State} : (∃ response, state s = .ok response) ↔
    s.latencySum.n = 0 ∨ s.latencySum.ms.Averageable s.latencySum.n := by
  have hstate : (∃ response, state s = .ok response) ↔
      ∃ mean, avgLatency s.latencySum = .ok mean := by
    rw [state]
    cases avgLatency s.latencySum with
    | error ex => exact iff_of_false (fun h ↦ nomatch h.choose_spec) (fun h ↦ nomatch h.choose_spec)
    | ok mean => exact iff_of_true ⟨_, rfl⟩ ⟨_, rfl⟩
  rw [hstate, avgLatency]
  split_ifs with hn
  · rw [Number.mean_eq_ok (Nat.pos_of_ne_zero hn), or_iff_right hn]
  · exact iff_of_true ⟨0, rfl⟩ (Or.inl (not_not.mp hn))

theorem handle_event_state (h : History) (nowMs : ℤ) (body : Option Value) :
    (h.handle (.event nowMs body)).state = (ingestEvent nowMs body h.state).2 := by
  rw [History.handle]
  split
  · rename_i heq
    rw [heq]
  · rename_i heq
    rw [heq]

theorem updateCounters_latencySum (e : Dict) (type : Value) (s : State) :
    (updateCounters e type s).2.latencySum =
      match (if type.eqStr (str "ACCEPTED") then latencyOf e else none).bind
        fun lat ↦ (s.latencySum.ms.add lat).toOption with
      | some ms => ⟨ms, s.latencySum.n + 1⟩
      | none => s.latencySum := by
  rw [updateCounters]
  split_ifs with htype
  · cases hlat : latencyOf e with
    | none => rfl
    | some lat =>
      simp only [Option.bind_some]
      cases hadd : s.latencySum.ms.add lat with
      | error ex => rfl
      | ok ms => rfl
  · rfl

theorem ingestEvent_latencySum (nowMs : ℤ) (body : Option Value) (s : State) :
    (ingestEvent nowMs body s).2.latencySum =
      match addedSum s (.event nowMs body) with
      | some ms => ⟨ms, s.latencySum.n + 1⟩
      | none => s.latencySum := by
  simp only [addedSum, ingestEvent]
  cases fillDefaults nowMs body with
  | error ex => rfl
  | ok e =>
    simp only [Except.toOption, Option.bind_eq_bind, Option.bind_some]
    cases htype : Dict.getItem e (str "type") with
    | error ex =>
      rw [acceptedLatency, isAccepted_of_getItem_error htype]
      rfl
    | ok type =>
      have hcounters := updateCounters_latencySum e type s
      rw [eqStr_of_getItem htype, ← acceptedLatency] at hcounters
      refine Eq.trans ?_ hcounters
      simp only
      split
      · rename_i heq
        rw [heq]
      · rename_i heq
        rw [heq]

theorem answers_handle {h : History} {request : Request}
    (hbefore : ∃ response, state h.state = .ok response) :
    (∃ response, state (h.handle request).state = .ok response) ↔ ¬ Spoils h.state request := by
  cases request with
  | reset => exact iff_of_true (state_eq_ok.mpr (Or.inl rfl)) (fun hs ↦ nomatch hs)
  | event nowMs body =>
    have hsum := ingestEvent_latencySum nowMs body h.state
    rw [← handle_event_state] at hsum
    rw [state_eq_ok, Spoils]
    cases hadded : addedSum h.state (.event nowMs body) with
    | none =>
      simp only [hadded] at hsum
      rw [hsum]
      exact iff_of_true (state_eq_ok.mp hbefore) (fun hs ↦ nomatch hs)
    | some ms =>
      simp only [hadded] at hsum
      simp [hsum]

theorem state_always_answers_iff (requests : List Request) :
    (∀ n, ∃ response, state (History.after (requests.take n)).state = .ok response) ↔
      ∀ n (hn : n < requests.length),
        ¬ Spoils (History.after (requests.take n)).state requests[n] := by
  refine ⟨?_, ?_⟩
  · intro hall n hn
    have hnext := hall (n + 1)
    rw [History.after, Run.foldl_take_succ hn] at hnext
    exact (answers_handle (hall n)).mp hnext
  · intro hsteps
    refine Run.foldl_take (P := fun h : History ↦ ∃ response, state h.state = .ok response)
      ⟨_, rfl⟩ ?_
    intro n hn ih
    exact (answers_handle ih).mpr (hsteps n hn)

theorem infinite_latency_raises :
    state (History.after [.event 0 (some (.dict [(str "type", .str (str "ACCEPTED")),
      (str "latency_ms", .float (1 / 0))]))]).state = .error .overflowError := by
  rfl

end SpaceSec.Dashboard
