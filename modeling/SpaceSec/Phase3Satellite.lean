import SpaceSec.AtMostOnce
import SpaceSec.Recovery
import SpaceSec.SecurityReport

namespace SpaceSec

namespace Phase3

/-- The Phase 3 satellite process: before its first datagram, at a turn of its loop, or ended. -/
inductive Satellite
  | listening
  | running (session : Session) (i : ℕ)
  | exited (code : ℕ)
  deriving DecidableEq

namespace Satellite

variable {Key : Type} (pkey : Pkey Key) (evp : Evp) (satelliteKeypair : Key)

def start (a : Arrival) : Satellite × Output :=
  if a.received.length ≠ 32 then (.exited 1, {}) else
  let groundPublic := a.received
  let satellitePublic := getRawPublicKey pkey satelliteKeypair
  let sessionKey := sessionKeyWith pkey satelliteKeypair groundPublic
  if sessionKey.length ≠ 32 then (.exited 1, { sent := [satellitePublic] }) else
  (.running ⟨sessionKey, .new 30000⟩ 0, { sent := [satellitePublic] })

/-- One turn of the loop, which answers nothing, and takes a datagram of any length for a packet. -/
def turn (s : Session) (a : Arrival) : Session × Output :=
  if a.received.length = 0 then (s, {}) else
  let (decision, replayGuard) :=
    processSecurePacket evp a.received s.sessionKey s.replayGuard a.freshClock
  (⟨s.sessionKey, replayGuard⟩, { decision := some decision })

def step : Satellite → Arrival → Satellite × Output
  | .listening, a => start pkey satelliteKeypair a
  | .running s i, a =>
    let (s, output) := turn evp s a
    (if i + 1 < 4 then .running s (i + 1) else .exited 0, output)
  | .exited code, _ => (.exited code, {})

def after (satellite : Satellite) (arrivals : List Arrival) : Satellite :=
  arrivals.foldl (fun satellite a ↦ (satellite.step pkey evp satelliteKeypair a).1) satellite

def outputs : Satellite → List Arrival → List Output
  | _, [] => []
  | satellite, a :: arrivals =>
    (satellite.step pkey evp satelliteKeypair a).2 ::
      outputs (satellite.step pkey evp satelliteKeypair a).1 arrivals

def execution (satellite : Satellite) (a : Arrival) : Option Execution :=
  match satellite with
  | .running s _ => (turn evp s a).2.decision.bind (Execution.of s.sessionKey)
  | _ => none

def executions : Satellite → List Arrival → List Execution
  | _, [] => []
  | satellite, a :: arrivals =>
    (satellite.execution evp a).toList ++
      executions (satellite.step pkey evp satelliteKeypair a).1 arrivals

variable {pkey evp satelliteKeypair}

theorem step_running (s : Session) (i : ℕ) (a : Arrival) :
    (running s i).step pkey evp satelliteKeypair a =
      (if i + 1 < 4 then .running (turn evp s a).1 (i + 1) else .exited 0, (turn evp s a).2) := rfl

theorem turn_session (s : Session) (a : Arrival) :
    (turn evp s a).1 = ⟨s.sessionKey,
      (processSecurePacket evp a.received s.sessionKey s.replayGuard a.freshClock).2⟩ := by
  by_cases hempty : a.received.length = 0
  · rw [turn, if_pos hempty, processSecurePacket, deserializePacket_eq, if_neg (by omega)]
  · rw [turn, if_neg hempty]

theorem execution_running (s : Session) (i : ℕ) (a : Arrival) :
    (running s i).execution evp a = Execution.of s.sessionKey
      (processSecurePacket evp a.received s.sessionKey s.replayGuard a.freshClock).1 := by
  by_cases hempty : a.received.length = 0
  · rw [execution, turn, if_pos hempty, processSecurePacket, deserializePacket_eq,
      if_neg (by omega)]
    rfl
  · rw [execution, turn, if_neg hempty]
    rfl

theorem after_exited (code : ℕ) (arrivals : List Arrival) :
    (exited code).after pkey evp satelliteKeypair arrivals = exited code := by
  induction arrivals with
  | nil => rfl
  | cons a arrivals ih => exact ih

theorem executions_exited (code : ℕ) (arrivals : List Arrival) :
    (exited code).executions pkey evp satelliteKeypair arrivals = [] := by
  induction arrivals with
  | nil => rfl
  | cons a arrivals ih => exact ih

theorem start_fails {a : Arrival} (h : Node.StartUpFails pkey satelliteKeypair a) :
    (start pkey satelliteKeypair a).1 = .exited 1 := by
  by_cases hlen : a.received.length = 32
  · have hkey := h.resolve_left (not_not.mpr hlen)
    rw [start, if_neg (not_not.mpr hlen), if_pos hkey]
  · rw [start, if_pos hlen]

theorem start_eq {a : Arrival} (h : ¬ Node.StartUpFails pkey satelliteKeypair a) :
    start pkey satelliteKeypair a =
      (.running ⟨sessionKeyWith pkey satelliteKeypair a.received, .new 30000⟩ 0,
        { sent := [getRawPublicKey pkey satelliteKeypair] }) := by
  obtain ⟨hlen, hkey⟩ := not_or.mp h
  rw [start, if_neg hlen, if_neg hkey]

variable (pkey evp satelliteKeypair) in
theorem after_running {i : ℕ} (hi : i < 4) (s : Session) (arrivals : List Arrival) :
    (∃ s', (running s i).after pkey evp satelliteKeypair arrivals =
      if i + arrivals.length < 4 then running s' (i + arrivals.length) else exited 0) := by
  induction arrivals generalizing s i with
  | nil => exact ⟨s, (if_pos hi).symm⟩
  | cons a arrivals ih =>
    rw [after, List.foldl_cons, List.length_cons]
    by_cases hnext : i + 1 < 4
    · obtain ⟨s', hs'⟩ := ih hnext (turn evp s a).1
      refine ⟨s', ?_⟩
      rw [step_running, if_pos hnext, Nat.add_comm arrivals.length, ← Nat.add_assoc]
      exact hs'
    · refine ⟨s, ?_⟩
      rw [step_running, if_neg hnext, if_neg (by omega)]
      exact after_exited 0 arrivals

/-- The turns that are left run the receiver on as many datagrams. -/
theorem executions_running {i : ℕ} (hi : i < 4) (s : Session) (arrivals : List Arrival) :
    (running s i).executions pkey evp satelliteKeypair arrivals =
      (run evp s.sessionKey s.replayGuard
        ((arrivals.take (4 - i)).map fun a ↦ (a.received, a.freshClock))).1.filterMap
          (Execution.of s.sessionKey) := by
  induction arrivals generalizing s i with
  | nil => rw [List.take_nil]; rfl
  | cons a arrivals ih =>
    rw [executions, execution_running, show 4 - i = 4 - (i + 1) + 1 by omega, List.take_succ_cons,
      List.map_cons, run]
    simp only [List.filterMap_cons]
    have hrest : ((running s i).step pkey evp satelliteKeypair a).1.executions pkey evp
        satelliteKeypair arrivals = (run evp s.sessionKey (processSecurePacket evp a.received
          s.sessionKey s.replayGuard a.freshClock).2 ((arrivals.take (4 - (i + 1))).map
            fun a ↦ (a.received, a.freshClock))).1.filterMap (Execution.of s.sessionKey) := by
      by_cases hnext : i + 1 < 4
      · have hs := ih hnext (turn evp s a).1
        rw [turn_session] at hs
        rw [step_running, if_pos hnext, turn_session]
        exact hs
      · rw [step_running, if_neg hnext, executions_exited, Nat.sub_eq_zero_of_le (by omega),
          List.take_zero]
        rfl
    rw [hrest]
    cases Execution.of s.sessionKey
      (processSecurePacket evp a.received s.sessionKey s.replayGuard a.freshClock).1 with
    | none => rfl
    | some x => rfl

variable (pkey evp satelliteKeypair) in
theorem executions_running_once {i : ℕ} (hi : i < 4) (sessionKey : Bytes)
    (arrivals : List Arrival) :
    let executed :=
      (running ⟨sessionKey, .new 30000⟩ i).executions pkey evp satelliteKeypair arrivals
    executed.length ≤ 4 ∧ (executed.map Execution.identity).Nodup := by
  rw [executions_running hi]
  set inputs := (arrivals.take (4 - i)).map fun a ↦ (a.received, a.freshClock)
  obtain ⟨hrun, -⟩ := run_refines evp sessionKey (AntiReplay.tracks_new 30000) inputs
  refine ⟨?_, ?_⟩
  · have hlen := congrArg List.length hrun
    rw [List.length_map, OnceFilter.length_run] at hlen
    refine (List.length_filterMap_le _ _).trans (hlen.trans_le ?_)
    rw [List.length_map, List.length_take]
    omega
  · have hnodup := OnceFilter.nodup_accepted (acceptable evp sessionKey 30000) ∅ inputs
    rw [OnceFilter.accepted, ← hrun, List.reduceOption, List.filterMap_map] at hnodup
    have hidentity : ((run evp sessionKey (.new 30000) inputs).1.filterMap
        (Execution.of sessionKey)).map Execution.identity =
          (((run evp sessionKey (.new 30000) inputs).1.filterMap (id ∘ Decision.acceptance)).map
            Prod.fst).map (sessionKey, ·) := by
      rw [List.map_filterMap, List.map_filterMap, List.map_filterMap]
      refine List.filterMap_congr fun decision _ ↦ ?_
      cases decision <;> rfl
    rw [hidentity]
    exact hnodup.map (Prod.mk_right_injective sessionKey)

theorem after_listening (a : Arrival) (arrivals : List Arrival) :
    after pkey evp satelliteKeypair .listening (a :: arrivals) =
      (start pkey satelliteKeypair a).1.after pkey evp satelliteKeypair arrivals := rfl

theorem executions_listening (a : Arrival) (arrivals : List Arrival) :
    executions pkey evp satelliteKeypair .listening (a :: arrivals) =
      (start pkey satelliteKeypair a).1.executions pkey evp satelliteKeypair arrivals := rfl

/-- What a run of this program comes to. It ends with 1 at a first datagram that gives no session
key, and otherwise with 0 once four more have come. On the way it executes at most four commands,
none of them twice, and all under the key of its one handshake. -/
theorem lifetime (pkey : Pkey Key) (evp : Evp) (satelliteKeypair : Key) (arrivals : List Arrival) :
    let satellite := after pkey evp satelliteKeypair .listening arrivals
    let executed := executions pkey evp satelliteKeypair .listening arrivals
    (satellite = .exited 1 ↔ ∃ a ∈ arrivals.head?, Node.StartUpFails pkey satelliteKeypair a) ∧
      (satellite = .exited 0 ↔
        5 ≤ arrivals.length ∧ ∀ a ∈ arrivals.head?, ¬ Node.StartUpFails pkey satelliteKeypair a) ∧
      executed.length ≤ 4 ∧ (executed.map Execution.identity).Nodup ∧
      ∀ x ∈ executed, ∃ a ∈ arrivals.head?,
        x.sessionKey = sessionKeyWith pkey satelliteKeypair a.received := by
  intro satellite executed
  cases arrivals with
  | nil => simp [satellite, executed, after, executions]
  | cons a rest =>
    simp only [satellite, executed, after_listening, executions_listening, List.head?_cons,
      Option.mem_some_iff, exists_eq_left', forall_eq', List.length_cons]
    by_cases hfails : Node.StartUpFails pkey satelliteKeypair a
    · rw [start_fails hfails, after_exited, executions_exited]
      simp [hfails]
    · rw [start_eq hfails]
      obtain ⟨s, hs⟩ := after_running pkey evp satelliteKeypair (show 0 < 4 by decide)
        ⟨sessionKeyWith pkey satelliteKeypair a.received, .new 30000⟩ rest
      obtain ⟨hlen, hnodup⟩ := executions_running_once pkey evp satelliteKeypair
        (show 0 < 4 by decide) (sessionKeyWith pkey satelliteKeypair a.received) rest
      refine ⟨?_, ?_, hlen, hnodup, ?_⟩
      · rw [hs]
        split_ifs <;> simp [hfails]
      · rw [hs]
        split_ifs with hshort
        · simp only [false_iff]
          omega
        · simp only [hfails, not_false_eq_true, and_true, true_iff]
          omega
      · intro x hx
        rw [executions_running (by decide), List.mem_filterMap] at hx
        obtain ⟨decision, -, hx⟩ := hx
        exact (Execution.of_eq_some.mp hx).1

variable (pkey evp satelliteKeypair) in
theorem loop_of_packet (s : Session) {a : Arrival} (h : a.received.length ≠ 32) :
    (Node.loop pkey evp satelliteKeypair s a).1 = (turn evp s a).1 ∧
      (Node.loop pkey evp satelliteKeypair s a).2.decision = (turn evp s a).2.decision ∧
      (Node.loop pkey evp satelliteKeypair s a).2.sent = (turn evp s a).2.sent ++
        (turn evp s a).2.decision.toList.flatMap Decision.acks := by
  refine ⟨(Node.loop_session h).trans (turn_session s a).symm, ?_⟩
  by_cases hempty : a.received.length = 0
  · rw [Node.loop, turn, if_pos hempty, if_pos hempty]
    exact ⟨rfl, rfl⟩
  · obtain ⟨-, hsent, -⟩ := Phase5.process_outcome evp a.received s.sessionKey s.replayGuard
      a.latencyClock a.freshClock
    rw [Node.loop, turn, if_neg hempty, if_neg hempty, if_neg h,
      ← Phase5.process_eq_phase3 evp _ _ _ a.latencyClock]
    refine ⟨rfl, ?_⟩
    simpa using hsent

/-- What the two programs have in common at one datagram: its decision, and what is sent less
the ACK of the later program. -/
def visible (output : Output) : Option Decision × List Bytes :=
  (output.decision, output.sent ++ output.decision.toList.flatMap Decision.acks)

variable (pkey evp satelliteKeypair) in
theorem outputs_running {i : ℕ} (s : Session) {arrivals : List Arrival}
    (h : i + arrivals.length ≤ 4) :
    ((Node.running s).outputs pkey evp satelliteKeypair arrivals).map
        (fun output ↦ (output.decision, output.sent)) =
          ((running s i).outputs pkey evp satelliteKeypair arrivals).map visible ↔
      ∀ a ∈ arrivals, a.received.length ≠ 32 := by
  induction arrivals generalizing s i with
  | nil => simp [Node.outputs, outputs]
  | cons a arrivals ih =>
    rw [List.length_cons] at h
    rw [Node.outputs, outputs, List.map_cons, List.map_cons, List.cons_eq_cons,
      List.forall_mem_cons]
    by_cases hlen : a.received.length = 32
    · have hdiffer : (Node.loop pkey evp satelliteKeypair s a).2.decision ≠
          (turn evp s a).2.decision := by
        rw [Node.loop_handshake hlen, turn, if_neg (by omega)]
        exact (Option.some_ne_none _).symm
      refine iff_of_false ?_ (fun hall ↦ hall.1 hlen)
      intro heq
      exact hdiffer (congrArg Prod.fst heq.1)
    · obtain ⟨hsession, hdecision, hsent⟩ := loop_of_packet pkey evp satelliteKeypair s hlen
      have hhead : ((Node.loop pkey evp satelliteKeypair s a).2.decision,
          (Node.loop pkey evp satelliteKeypair s a).2.sent) = visible (turn evp s a).2 := by
        rw [visible, hdecision, hsent]
      refine (and_congr (iff_of_true hhead hlen) ?_)
      rw [step_running, show (Node.running s).step pkey evp satelliteKeypair a =
        (.running (Node.loop pkey evp satelliteKeypair s a).1, _) from rfl, hsession]
      by_cases hnext : i + 1 < 4
      · rw [if_pos hnext]
        exact ih _ (by omega)
      · obtain rfl := List.eq_nil_of_length_eq_zero (by omega : arrivals.length = 0)
        simp [Node.outputs, outputs]

theorem executions_loop {i : ℕ} (s : Session) {arrivals : List Arrival}
    (hlen : i + arrivals.length ≤ 4) (h : ∀ a ∈ arrivals, a.received.length ≠ 32) :
    (Node.running s).executions pkey evp satelliteKeypair arrivals =
      (running s i).executions pkey evp satelliteKeypair arrivals := by
  induction arrivals generalizing s i with
  | nil => rfl
  | cons a arrivals ih =>
    rw [List.length_cons] at hlen
    obtain ⟨ha, hrest⟩ := List.forall_mem_cons.mp h
    obtain ⟨hsession, -⟩ := loop_of_packet pkey evp satelliteKeypair s ha
    rw [Node.executions, executions, Node.execution_packet ha, execution_running, step_running,
      show (Node.running s).step pkey evp satelliteKeypair a =
        (.running (Node.loop pkey evp satelliteKeypair s a).1, _) from rfl, hsession]
    by_cases hnext : i + 1 < 4
    · rw [if_pos hnext, ih (turn evp s a).1 (i := i + 1) (by omega) hrest]
    · obtain rfl := List.eq_nil_of_length_eq_zero (by omega : arrivals.length = 0)
      rfl

/-- On the datagrams that this program lives to see, the later program decides and sends the same,
ACKs apart, exactly when none after the first has 32 bytes. -/
theorem later_program_agrees_iff {arrivals : List Arrival} (hlen : arrivals.length ≤ 5)
    (hstart : ∀ a ∈ arrivals.head?, ¬ Node.StartUpFails pkey satelliteKeypair a) :
    ((Node.outputs pkey evp satelliteKeypair .listening arrivals).map
        (fun output ↦ (output.decision, output.sent)) =
          (outputs pkey evp satelliteKeypair .listening arrivals).map visible ↔
        ∀ a ∈ arrivals.tail, a.received.length ≠ 32) ∧
      ((∀ a ∈ arrivals.tail, a.received.length ≠ 32) →
        Node.executions pkey evp satelliteKeypair .listening arrivals =
          executions pkey evp satelliteKeypair .listening arrivals) := by
  cases arrivals with
  | nil => simp [Node.outputs, outputs, Node.executions, executions]
  | cons a rest =>
    rw [List.length_cons] at hlen
    have hstart := hstart a rfl
    rw [Node.executions_listening, executions_listening, Node.outputs, outputs, List.map_cons,
      List.map_cons, List.cons_eq_cons, Node.step, step, Node.start_eq hstart, start_eq hstart,
      List.tail_cons]
    refine ⟨?_, fun h ↦ executions_loop _ (by omega) h⟩
    rw [outputs_running pkey evp satelliteKeypair _ (by omega)]
    exact and_iff_right rfl

theorem rehandshake_divides_the_programs :
    let call := validPacketCall 60000
    let key : Bytes := BigEndian.bytes 32 15
    let evp := Evp.ofTable [call.sealed key (List.replicate 17 1) (Vector.replicate tagSize 9)]
    let arrivals : List Arrival := [⟨BigEndian.bytes 32 5, 60000, 60000⟩,
      ⟨call.datagram evp key, 60100, 60100⟩, ⟨BigEndian.bytes 32 7, 60200, 60200⟩]
    (Node.outputs .product evp 3 .listening arrivals).map
        (fun output ↦ (output.decision, output.sent)) ≠
          (outputs .product evp 3 .listening arrivals).map visible ∧
      Node.executions .product evp 3 .listening (arrivals.take 2) =
        executions .product evp 3 .listening (arrivals.take 2) := by
  intro call key evp arrivals
  have hdiffer := (@later_program_agrees_iff _ .product evp 3 arrivals (by decide)
    (by decide +kernel)).1
  have hagree := (@later_program_agrees_iff _ .product evp 3 (arrivals.take 2) (by decide)
    (by decide +kernel)).2
  exact ⟨fun heq ↦ absurd (hdiffer.mp heq) (by decide +kernel), hagree (by decide +kernel)⟩

end Satellite

end Phase3

end SpaceSec
