import SpaceSec.Mirror
import SpaceSec.Reporting
import Mathlib.Order.Filter.AtTopBot.Basic

namespace SpaceSec

open Filter (atTop eventually_ge_atTop)

namespace DashboardClient

/-- A report to the peer comes to an end of its own. -/
def Peer.LetsReturn (peer : Peer) : Prop := ∃ calls, peer.EndsWithin calls

/-- Once the request is sent, the peer answers with data for ever. -/
def Peer.Endless (peer : Peer) : Prop :=
  peer.Connects ∧ peer.send.raisesSigpipe = false ∧ ∀ i, 0 < (peer.recv i).result

theorem Peer.cases (peer : Peer) : peer.LetsReturn ∨ peer.Resets ∨ peer.Endless := by
  by_cases hconnects : peer.Connects
  · cases hsignal : peer.send.raisesSigpipe with
    | true => exact Or.inr (Or.inl ⟨hconnects, hsignal⟩)
    | false =>
      by_cases hend : ∃ i, (peer.recv i).result ≤ 0
      · obtain ⟨i, hi⟩ := hend
        exact Or.inl ⟨i + 1, fun _ ↦ ⟨hsignal, i, Nat.lt_succ_self i, hi⟩⟩
      · push Not at hend
        exact Or.inr (Or.inr ⟨hconnects, hsignal, hend⟩)
  · exact Or.inl ⟨0, fun h ↦ absurd h hconnects⟩

variable {host : String} {port : Int32} {event : SecurityEvent} {peer : Peer}

end DashboardClient

namespace Node

variable {Key : Type} (pkey : Pkey Key) (evp : Evp) (satelliteKeypair : Key)

theorem outputs_append (node : Node) (xs ys : List Arrival) :
    node.outputs pkey evp satelliteKeypair (xs ++ ys) =
      node.outputs pkey evp satelliteKeypair xs ++
        (node.after pkey evp satelliteKeypair xs).outputs pkey evp satelliteKeypair ys := by
  induction xs generalizing node with
  | nil => rfl
  | cons x xs ih => exact congrArg _ (ih _)

theorem posted_append (node : Node) (xs ys : List Arrival) :
    node.posted pkey evp satelliteKeypair (xs ++ ys) =
      node.posted pkey evp satelliteKeypair xs ++
        (node.after pkey evp satelliteKeypair xs).posted pkey evp satelliteKeypair ys := by
  rw [Node.posted, outputs_append, List.flatMap_append]
  rfl

theorem posted_concat (node : Node) (arrivals : List Arrival) (a : Arrival) :
    node.posted pkey evp satelliteKeypair (arrivals ++ [a]) =
      node.posted pkey evp satelliteKeypair arrivals ++
        ((node.after pkey evp satelliteKeypair arrivals).step pkey evp satelliteKeypair
          a).2.events := by
  rw [posted_append, posted_cons]
  exact congrArg _ (List.append_nil _)

variable {pkey evp satelliteKeypair}

end Node

open DashboardClient

/-- Where the satellite's process is after what it has received: back in `recvfrom`, still in a
report, or ended by a `SIGPIPE`. -/
inductive Status
  | receiving
  | reporting
  | killed

/-- What a report to the peer leaves the process in. -/
def Leaves (peer : Peer) : Status → Prop
  | .receiving => peer.LetsReturn
  | .reporting => peer.Endless
  | .killed => peer.Resets

/-- The satellite's process with its reports, and what it has done so far. -/
structure Live where
  node : Node := .listening
  executed : List Execution := []
  sent : List Bytes := []
  reports : ℕ := 0
  recvCalls : ℕ := 0
  waitedUs : ℕ := 0
  status : Status := .receiving

namespace Live

/-- One report after the other, the first of them to the `i`-th peer: where they leave the process,
how many `recv` calls they make and how long they take. -/
def postAll (peers : ℕ → Peer) (fuel : ℕ) : ℕ → List SecurityEvent → Status × ℕ × ℕ
  | _, [] => (.receiving, 0, 0)
  | i, event :: events =>
    match postSecurityEvent "192.168.10.10" 5000 event (peers i) fuel with
    | none => (.reporting, 0, 0)
    | some .killed => (.killed, 0, 0)
    | some (.returned posted) =>
      let (status, recvCalls, waitedUs) := postAll peers fuel (i + 1) events
      (status, posted.recvCalls + recvCalls, posted.waitedUs + waitedUs)

variable {Key : Type} (pkey : Pkey Key) (evp : Evp) (satelliteKeypair : Key) (peers : ℕ → Peer)
  (fuel : ℕ)

/-- A command is executed, and its packet marked as seen, before the report; the ACK follows it.
The `fuel` bounds the `recv` calls of a report. -/
def step (live : Live) (a : Arrival) : Live :=
  match live.status with
  | .reporting | .killed => live
  | .receiving =>
    let (node, output) := live.node.step pkey evp satelliteKeypair a
    let executed := live.executed ++ (live.node.execution pkey evp satelliteKeypair a).toList
    match postAll peers fuel live.reports output.events with
    | (.receiving, recvCalls, waitedUs) =>
      { node, executed
        sent := live.sent ++ output.sent
        reports := live.reports + output.events.length
        recvCalls := live.recvCalls + recvCalls
        waitedUs := live.waitedUs + waitedUs }
    | (status, _, _) => { live with node, executed, status }

def after (arrivals : List Arrival) : Live :=
  arrivals.foldl (step pkey evp satelliteKeypair peers fuel) {}

/-- The process has handled all that arrived, as it would without reports. -/
structure Completed (live : Live) (arrivals : List Arrival) : Prop where
  status : live.status = .receiving
  node : live.node = Node.after pkey evp satelliteKeypair .listening arrivals
  executed : live.executed = Node.executions pkey evp satelliteKeypair .listening arrivals
  sent : live.sent =
    (Node.outputs pkey evp satelliteKeypair .listening arrivals).flatMap Output.sent
  reports : live.reports = (Node.posted pkey evp satelliteKeypair .listening arrivals).length
  waitedUs : live.waitedUs ≤ (live.recvCalls + 2 * live.reports) * timeoutUs

/-- The process is held up in the report about `a`. The command of `a` is executed and its packet
marked as seen, but nothing is sent in answer. -/
structure HeldAt (live : Live) (status : Status) (before : List Arrival) (a : Arrival) : Prop where
  status : live.status = status
  node : live.node = Node.after pkey evp satelliteKeypair .listening (before ++ [a])
  executed : live.executed =
    Node.executions pkey evp satelliteKeypair .listening (before ++ [a])
  sent : live.sent =
    (Node.outputs pkey evp satelliteKeypair .listening before).flatMap Output.sent
  reports : live.reports = (Node.posted pkey evp satelliteKeypair .listening before).length

variable {pkey evp satelliteKeypair peers fuel}

theorem postAll_waits {i recvCalls waitedUs : ℕ} {events : List SecurityEvent}
    (h : postAll peers fuel i events = (.receiving, recvCalls, waitedUs)) :
    waitedUs ≤ (recvCalls + 2 * events.length) * timeoutUs := by
  induction events generalizing i recvCalls waitedUs with
  | nil =>
    obtain ⟨-, hcosts⟩ := Prod.mk.inj h
    obtain ⟨rfl, rfl⟩ := Prod.mk.inj hcosts
    exact Nat.zero_le _
  | cons event events ih =>
    rw [postAll] at h
    split at h
    · cases h
    · cases h
    · rename_i posted hposted
      obtain ⟨hstatus, hcosts⟩ := Prod.mk.inj h
      obtain ⟨rfl, rfl⟩ := Prod.mk.inj hcosts
      have hfirst := post_waits hposted
      have hothers := ih (Prod.ext hstatus rfl)
      simp only [List.length_cons, Nat.mul_add, Nat.add_mul] at hfirst hothers ⊢
      omega

theorem step_of_returns {live : Live} (h : live.status = .receiving) {a : Arrival}
    {recvCalls waitedUs : ℕ}
    (hpost : postAll peers fuel live.reports (live.node.step pkey evp satelliteKeypair a).2.events =
      (.receiving, recvCalls, waitedUs)) :
    live.step pkey evp satelliteKeypair peers fuel a =
      { node := (live.node.step pkey evp satelliteKeypair a).1
        executed := live.executed ++ (live.node.execution pkey evp satelliteKeypair a).toList
        sent := live.sent ++ (live.node.step pkey evp satelliteKeypair a).2.sent
        reports := live.reports + (live.node.step pkey evp satelliteKeypair a).2.events.length
        recvCalls := live.recvCalls + recvCalls
        waitedUs := live.waitedUs + waitedUs } := by
  simp only [step, h, hpost]

theorem step_of_not_receiving {live : Live} (h : live.status ≠ .receiving) (a : Arrival) :
    live.step pkey evp satelliteKeypair peers fuel a = live := by
  cases hstatus : live.status with
  | receiving => exact absurd hstatus h
  | reporting | killed => simp only [step, hstatus]

theorem length_posted_concat (arrivals : List Arrival) (a : Arrival) :
    (Node.posted pkey evp satelliteKeypair .listening (arrivals ++ [a])).length =
      (Node.posted pkey evp satelliteKeypair .listening arrivals).length +
        ((Node.after pkey evp satelliteKeypair .listening arrivals).step pkey evp satelliteKeypair
          a).2.events.length := by
  rw [Node.posted_concat, List.length_append]

section Step

variable {live : Live} {arrivals : List Arrival}

theorem Completed.executed_step (h : live.Completed pkey evp satelliteKeypair arrivals)
    (a : Arrival) :
    live.executed ++ (live.node.execution pkey evp satelliteKeypair a).toList =
      Node.executions pkey evp satelliteKeypair .listening (arrivals ++ [a]) := by
  rw [Node.executions_append, h.executed, h.node, Node.executions, Node.executions,
    List.append_nil]

theorem Completed.node_step (h : live.Completed pkey evp satelliteKeypair arrivals) (a : Arrival) :
    (live.node.step pkey evp satelliteKeypair a).1 =
      Node.after pkey evp satelliteKeypair .listening (arrivals ++ [a]) := by
  rw [Node.after_concat, ← h.node]

theorem Completed.posted_step (h : live.Completed pkey evp satelliteKeypair arrivals)
    (a : Arrival) :
    (Node.posted pkey evp satelliteKeypair .listening (arrivals ++ [a])).length =
      live.reports + (live.node.step pkey evp satelliteKeypair a).2.events.length := by
  rw [length_posted_concat, h.reports, h.node]

theorem Completed.step (h : live.Completed pkey evp satelliteKeypair arrivals) {a : Arrival}
    (hpost : (postAll peers fuel live.reports
      (live.node.step pkey evp satelliteKeypair a).2.events).1 = .receiving) :
    (live.step pkey evp satelliteKeypair peers fuel a).Completed pkey evp satelliteKeypair
      (arrivals ++ [a]) := by
  obtain ⟨recvCalls, waitedUs, hpost⟩ : ∃ recvCalls waitedUs, postAll peers fuel live.reports
      (live.node.step pkey evp satelliteKeypair a).2.events = (.receiving, recvCalls, waitedUs) :=
    ⟨_, _, Prod.ext hpost rfl⟩
  have hwaits := postAll_waits hpost
  have hwaited := h.waitedUs
  rw [step_of_returns h.status hpost]
  refine ⟨rfl, h.node_step a, h.executed_step a, ?_, (h.posted_step a).symm, ?_⟩
  · rw [Node.outputs_append, List.flatMap_append, h.sent, h.node]
    exact congrArg _ (List.append_nil _).symm
  · simp only [Nat.mul_add, Nat.add_mul] at hwaited hwaits ⊢
    omega

end Step

theorem after_concat (arrivals : List Arrival) (a : Arrival) :
    after pkey evp satelliteKeypair peers fuel (arrivals ++ [a]) =
      (after pkey evp satelliteKeypair peers fuel arrivals).step pkey evp satelliteKeypair peers
        fuel a := by
  rw [after, after, List.foldl_append, List.foldl_cons, List.foldl_nil]

variable (pkey evp satelliteKeypair peers)

def AllReturn (arrivals : List Arrival) : Prop :=
  ∀ k < (Node.posted pkey evp satelliteKeypair .listening arrivals).length, (peers k).LetsReturn

/-- The report about `a` is the first that does not return. -/
structure HoldsUp (arrivals before : List Arrival) (a : Arrival) (status : Status) : Prop where
  split : ∃ later, arrivals = before ++ a :: later
  stopped : status ≠ .receiving
  earlier : AllReturn pkey evp satelliteKeypair peers before
  reported : (Node.posted pkey evp satelliteKeypair .listening before).length <
    (Node.posted pkey evp satelliteKeypair .listening arrivals).length
  leaves : Leaves (peers (Node.posted pkey evp satelliteKeypair .listening before).length) status
  never : ∀ fuel, (after pkey evp satelliteKeypair peers fuel arrivals).status ≠ .receiving
  held : ∀ᶠ fuel in atTop, (after pkey evp satelliteKeypair peers fuel arrivals).HeldAt pkey evp
    satelliteKeypair status before a

section

variable {pkey evp satelliteKeypair peers} {arrivals before : List Arrival} {a : Arrival}
  {status : Status}

theorem HoldsUp.later (h : HoldsUp pkey evp satelliteKeypair peers arrivals before a status)
    (b : Arrival) : HoldsUp pkey evp satelliteKeypair peers (arrivals ++ [b]) before a status where
  split := by
    obtain ⟨later, rfl⟩ := h.split
    exact ⟨later ++ [b], by simp⟩
  stopped := h.stopped
  earlier := h.earlier
  reported := by
    rw [length_posted_concat]
    exact Nat.lt_add_right _ h.reported
  leaves := h.leaves
  never fuel := by
    rw [after_concat, step_of_not_receiving (h.never fuel)]
    exact h.never fuel
  held := by
    filter_upwards [h.held] with fuel hfuel
    rwa [after_concat, step_of_not_receiving (h.never fuel)]

theorem AllReturn.concat (h : AllReturn pkey evp satelliteKeypair peers arrivals)
    (ha : ∀ k < ((Node.after pkey evp satelliteKeypair .listening arrivals).step pkey evp
      satelliteKeypair a).2.events.length,
      (peers ((Node.posted pkey evp satelliteKeypair .listening arrivals).length +
        k)).LetsReturn) :
    AllReturn pkey evp satelliteKeypair peers (arrivals ++ [a]) := by
  intro k hk
  rw [length_posted_concat] at hk
  by_cases hold : k < (Node.posted pkey evp satelliteKeypair .listening arrivals).length
  · exact h k hold
  · have hnew := ha (k - (Node.posted pkey evp satelliteKeypair .listening arrivals).length)
      (by omega)
    rwa [Nat.add_sub_cancel' (not_lt.mp hold)] at hnew

end

end Live

end SpaceSec
