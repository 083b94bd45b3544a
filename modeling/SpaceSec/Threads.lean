import SpaceSec.Ingest
import SpaceSec.Library.Interleaving

namespace SpaceSec.Dashboard

open Python

inductive Call
  | request (request : Request)
  | state

/-- The counters that `ingest_event` increments. -/
inductive Counter
  | accepted
  | rejected
  | n
  deriving DecidableEq

namespace Counter

def get : Counter → State → ℕ
  | accepted, s => s.totals.accepted
  | rejected, s => s.totals.rejected
  | n, s => s.latencySum.n

def set : Counter → ℕ → State → State
  | accepted, v, s => { s with totals := { s.totals with accepted := v } }
  | rejected, v, s => { s with totals := { s.totals with rejected := v } }
  | n, v, s => { s with latencySum := { s.latencySum with n := v } }

end Counter

/-- What a call came to. An event that was counted and then not stored is told from one that was
refused at once. -/
inductive Answer
  | stored (e : Dict)
  | raised (ex : Exception)
  | overflowed (e : Dict) (ex : Exception)
  | cleared
  | shown (response : Response)

/-- Where the thread of a call stands: its next access to what the threads share, and what it has
read so far. -/
inductive Thread
  | load (x : Counter) (e : Dict)
  | store (x : Counter) (v : ℕ) (e : Dict)
  | loadMs (lat : Number) (e : Dict)
  | storeMs (ms : Number) (e : Dict)
  | append (e : Dict)
  | clear
  | zero (x : Counter)
  | zeroMs
  | listRecent
  | checkEvents (recent : List Dict)
  | listWindow (recent : List Dict)
  | checkN (recent : List Dict) (link : LinkStatus)
  | loadSum (recent : List Dict) (link : LinkStatus)
  | loadN (recent : List Dict) (link : LinkStatus) (ms : Number)
  | loadAccepted (recent : List Dict) (link : LinkStatus) (avgLatencyMs : ℤ)
  | loadRejected (recent : List Dict) (link : LinkStatus) (avgLatencyMs : ℤ) (accepted : ℕ)
  | done (answer : Answer)

/-- The status that a window of events stands for. -/
def windowStatus (window : List Dict) : LinkStatus :=
  let rej := window.countP isRejected
  let acc := window.countP isAccepted
  if rej ≠ 0 ∧ acc ≤ rej then .degraded else .connected

namespace Thread

/-- A thread up to its first access. -/
def start : Call → Thread
  | .request (.event nowMs body) =>
    match fillDefaults nowMs body with
    | .error ex => done (.raised ex)
    | .ok e =>
      match Dict.getItem e (str "type") with
      | .error ex => done (.raised ex)
      | .ok type => load (if type.eqStr (str "ACCEPTED") then .accepted else .rejected) e
  | .request .reset => clear
  | .state => listRecent

/-- The handlers, access by access. `x += 1` reads and writes; the methods of a deque are one access
each. -/
def step (s : State) : Thread → State × Thread
  | load x e => (s, store x (x.get s) e)
  | store x v e => (x.set (v + 1) s,
      match x, latencyOf e with
      | .accepted, some lat => loadMs lat e
      | _, _ => append e)
  | loadMs lat e =>
    match s.latencySum.ms.add lat with
    | .error ex => (s, done (.overflowed e ex))
    | .ok ms => (s, storeMs ms e)
  | storeMs ms e => ({ s with latencySum := { s.latencySum with ms } }, load .n e)
  | append e => ({ s with events := dequeAppend 500 s.events e }, done (.stored e))
  | clear => ({ s with events := [] }, zero .accepted)
  | zero .accepted => (Counter.accepted.set 0 s, zero .rejected)
  | zero .rejected => (Counter.rejected.set 0 s, zeroMs)
  | zeroMs => ({ s with latencySum := { s.latencySum with ms := .int 0 } }, zero .n)
  | zero .n => (Counter.n.set 0 s, done .cleared)
  | listRecent => (s, checkEvents (s.events.rtake 30))
  | checkEvents recent =>
    (s, if s.events.isEmpty then checkN recent .disconnected else listWindow recent)
  | listWindow recent => (s, checkN recent (windowStatus (s.events.rtake 10)))
  | checkN recent link =>
    (s, if s.latencySum.n ≠ 0 then loadSum recent link else loadAccepted recent link 0)
  | loadSum recent link => (s, loadN recent link s.latencySum.ms)
  | loadN recent link ms =>
    match (ms.truediv (.int s.latencySum.n)).bind Number.round with
    | .error ex => (s, done (.raised ex))
    | .ok avgLatencyMs => (s, loadAccepted recent link avgLatencyMs)
  | loadAccepted recent link avgLatencyMs =>
    (s, loadRejected recent link avgLatencyMs s.totals.accepted)
  | loadRejected recent link avgLatencyMs accepted =>
    (s, done (.shown ⟨link, accepted, s.totals.rejected, avgLatencyMs, recent⟩))
  | done answer => (s, done answer)

end Thread

abbrev Server := Pool State Thread

namespace Server

def start (calls : List Call) : Server := ⟨{}, calls.map .start⟩

/-- The calls, each served in a thread of its own, scheduled access by access. -/
def after (calls : List Call) (schedule : List ℕ) : Server := (start calls).run Thread.step schedule

end Server

/-- The answer to a call, whatever was counted before it. -/
def Answer.plain : Answer → Answer
  | overflowed _ ex => raised ex
  | answer => answer

def Thread.answer? : Thread → Option Answer
  | .done answer => some answer.plain
  | _ => none

/-- A call that no other interrupts. -/
def Call.handle (s : State) : Call → State × Answer
  | .request (.event nowMs body) =>
    match ingestEvent nowMs body s with
    | (.ok e, s) => (s, .stored e)
    | (.error ex, s) => (s, .raised ex)
  | .request .reset => (Dashboard.reset s, .cleared)
  | .state =>
    match Dashboard.state s with
    | .ok response => (s, .shown response)
    | .error ex => (s, .raised ex)

def Call.request? : Call → Option Request
  | .request r => some r
  | .state => none

def Call.handleAll : State → List Call → State × List Answer
  | s, [] => (s, [])
  | s, call :: calls =>
    let (s, answer) := call.handle s
    let (s, answers) := handleAll s calls
    (s, answer :: answers)

namespace Thread

variable {s : State}

theorem alone_accepted {e : Dict} {type : Value} (htype : type.eqStr (str "ACCEPTED") = true)
    (s : State) : Pool.alone step 8 s (load .accepted e) =
      match updateCounters e type s with
      | (.error ex, s) => (s, done (.overflowed e ex))
      | (.ok (), s) => ({ s with events := dequeAppend 500 s.events e }, done (.stored e)) := by
  rw [updateCounters, if_pos htype]
  cases hlat : latencyOf e with
  | none => simp [Pool.alone, step, hlat, Counter.get, Counter.set]
  | some lat =>
    cases hadd : s.latencySum.ms.add lat with
    | error ex => simp [Pool.alone, step, hlat, hadd, Counter.get, Counter.set]
    | ok ms => simp [Pool.alone, step, hlat, hadd, Counter.get, Counter.set]

theorem alone_rejected {e : Dict} {type : Value} (htype : type.eqStr (str "ACCEPTED") ≠ true)
    (s : State) : Pool.alone step 8 s (load .rejected e) =
      match updateCounters e type s with
      | (.error ex, s) => (s, done (.overflowed e ex))
      | (.ok (), s) => ({ s with events := dequeAppend 500 s.events e }, done (.stored e)) := by
  rw [updateCounters, if_neg htype]
  simp [Pool.alone, step, Counter.get, Counter.set]

theorem alone_done (k : ℕ) (answer : Answer) (s : State) :
    Pool.alone step k s (done answer) = (s, done answer) := Function.iterate_fixed rfl k

theorem alone_checkN (k : ℕ) (recent : List Dict) (link : LinkStatus) (s : State) :
    Pool.alone step (k + 5) s (checkN recent link) =
      match avgLatency s.latencySum with
      | .error ex => (s, done (.raised ex))
      | .ok avgLatencyMs => (s, done (.shown
          ⟨link, s.totals.accepted, s.totals.rejected, avgLatencyMs, recent⟩)) := by
  have hcheck : Pool.alone step (k + 5) s (checkN recent link) = Pool.alone step (k + 4) s
      (if s.latencySum.n ≠ 0 then loadSum recent link else loadAccepted recent link 0) := rfl
  rw [hcheck, avgLatency]
  split_ifs with hn
  · have hload : Pool.alone step (k + 4) s (loadSum recent link) =
        Pool.alone step (k + 2) (step s (loadN recent link s.latencySum.ms)).1
          (step s (loadN recent link s.latencySum.ms)).2 := rfl
    rw [hload, step]
    cases (s.latencySum.ms.truediv (.int s.latencySum.n)).bind Number.round with
    | error ex => exact alone_done (k + 2) _ s
    | ok avgLatencyMs => exact alone_done k _ s
  · exact alone_done (k + 2) _ s

theorem alone_state (s : State) : Pool.alone step 8 s listRecent =
    match Dashboard.state s with
    | .error ex => (s, done (.raised ex))
    | .ok response => (s, done (.shown response)) := by
  have hlink : linkStatus s.events =
      if s.events.isEmpty then .disconnected else windowStatus (s.events.rtake 10) := rfl
  have hcheck : Pool.alone step 8 s listRecent = Pool.alone step 6 s (if s.events.isEmpty then
      checkN (s.events.rtake 30) .disconnected else listWindow (s.events.rtake 30)) := rfl
  have hwindow : Pool.alone step 6 s (listWindow (s.events.rtake 30)) =
      Pool.alone step 5 s (checkN (s.events.rtake 30) (windowStatus (s.events.rtake 10))) := rfl
  rw [hcheck, Dashboard.state, hlink]
  split_ifs with hempty
  · rw [alone_checkN 1]
    cases avgLatency s.latencySum <;> rfl
  · rw [hwindow, alone_checkN 0]
    cases avgLatency s.latencySum <;> rfl

/-- Eight accesses are enough for any call. -/
theorem alone_start (call : Call) (s : State) :
    (Pool.alone step 8 s (start call)).1 = (call.handle s).1 ∧
      (Pool.alone step 8 s (start call)).2.answer? = some (call.handle s).2 := by
  rcases call with ⟨nowMs, body⟩ | - | -
  · rw [start, Call.handle, ingestEvent]
    cases fillDefaults nowMs body with
    | error ex => exact ⟨rfl, rfl⟩
    | ok e =>
      simp only
      cases htype : Dict.getItem e (str "type") with
      | error ex => exact ⟨rfl, rfl⟩
      | ok type =>
        have hload : Pool.alone step 8 s (load (if type.eqStr (str "ACCEPTED") then .accepted
            else .rejected) e) = match updateCounters e type s with
              | (.error ex, s) => (s, done (.overflowed e ex))
              | (.ok (), s) => ({ s with events := dequeAppend 500 s.events e },
                  done (.stored e)) := by
          split_ifs with haccepted
          · exact alone_accepted haccepted s
          · exact alone_rejected haccepted s
        simp only
        rw [hload]
        rcases updateCounters e type s with ⟨ex | -, s'⟩ <;> exact ⟨rfl, rfl⟩
  · exact ⟨rfl, rfl⟩
  · rw [start, alone_state, Call.handle]
    cases Dashboard.state s <;> exact ⟨rfl, rfl⟩

theorem oneByOne_start (calls : List Call) (s : State) :
    (Pool.oneByOne step 8 s (calls.map start)).1 = (Call.handleAll s calls).1 ∧
      (Pool.oneByOne step 8 s (calls.map start)).2.map answer? =
        (Call.handleAll s calls).2.map some := by
  induction calls generalizing s with
  | nil => exact ⟨rfl, rfl⟩
  | cons call calls ih =>
    obtain ⟨hstate, hanswer⟩ := alone_start call s
    rw [List.map_cons, Pool.oneByOne, Call.handleAll]
    obtain ⟨hrest, hanswers⟩ := ih (call.handle s).1
    simp only [hstate, List.map_cons, hanswer, hrest, hanswers, and_self]

end Thread

theorem Call.handleAll_state (calls : List Call) (h : History) : (handleAll h.state calls).1 =
    ((calls.filterMap Call.request?).foldl History.handle h).state := by
  induction calls generalizing h with
  | nil => rfl
  | cons call calls ih =>
    rcases call with ⟨nowMs, body⟩ | - | -
    · have hstate : (Call.handle h.state (.request (.event nowMs body))).1 =
          (h.handle (.event nowMs body)).state := by
        rw [handle_event_state, Call.handle]
        rcases ingestEvent nowMs body h.state with ⟨ex | e, s'⟩ <;> rfl
      exact (congrArg (fun s ↦ (handleAll s calls).1) hstate).trans (ih (h.handle _))
    · exact ih (h.handle .reset)
    · have hstate : (Call.handle h.state .state).1 = h.state := by
        rw [Call.handle]
        cases Dashboard.state h.state <;> rfl
      exact (congrArg (fun s ↦ (handleAll s calls).1) hstate).trans (ih h)

/-- Calls whose threads run one after another leave and answer what calls do that nothing
interrupts. -/
theorem Server.serial_calls (calls : List Call) :
    let p := Server.after calls (Pool.serial 8 0 calls.length)
    p.shared = (History.after (calls.filterMap Call.request?)).state ∧
      p.threads.map Thread.answer? = (Call.handleAll {} calls).2.map some := by
  intro p
  have hp : p = ⟨(Pool.oneByOne Thread.step 8 {} (calls.map .start)).1,
      (Pool.oneByOne Thread.step 8 {} (calls.map .start)).2⟩ := by
    have hrun := @Pool.run_serial _ _ Thread.step 8 {} [] (calls.map .start)
    rwa [List.length_map] at hrun
  obtain ⟨hshared, hanswers⟩ := Thread.oneByOne_start calls {}
  rw [hp]
  exact ⟨hshared.trans (Call.handleAll_state calls {}), hanswers⟩

end SpaceSec.Dashboard
