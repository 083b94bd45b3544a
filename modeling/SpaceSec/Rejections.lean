import SpaceSec.AtMostOnce
import SpaceSec.Mirror
import SpaceSec.Library.Run

namespace SpaceSec

namespace Node

variable {Key : Type} (pkey : Pkey Key) (evp : Evp) (satelliteKeypair : Key)

/-- The datagram is the first one, a handshake, or executed. -/
def matters (node : Node) (a : Arrival) : Bool :=
  match node with
  | .listening => true
  | .running _ =>
    a.received.length = 32 || (node.execution pkey evp satelliteKeypair a).isSome
  | .exited _ => false

def purged (arrivals : List Arrival) : List Arrival :=
  Run.purge (fun node a ↦ (step pkey evp satelliteKeypair node a).1)
    (matters pkey evp satelliteKeypair) .listening arrivals

variable {pkey evp satelliteKeypair}

theorem executions_eq_emitted (node : Node) (arrivals : List Arrival) :
    node.executions pkey evp satelliteKeypair arrivals =
      Run.emitted (fun node a ↦ (step pkey evp satelliteKeypair node a).1)
        (fun node a ↦ (node.execution pkey evp satelliteKeypair a).toList) node arrivals := by
  induction arrivals generalizing node with
  | nil => rfl
  | cons a arrivals ih => rw [executions, Run.emitted, ih]

theorem sent_eq_emitted (node : Node) (arrivals : List Arrival) :
    (node.outputs pkey evp satelliteKeypair arrivals).flatMap Output.sent =
      Run.emitted (fun node a ↦ (step pkey evp satelliteKeypair node a).1)
        (fun node a ↦ (node.step pkey evp satelliteKeypair a).2.sent) node arrivals := by
  induction arrivals generalizing node with
  | nil => rfl
  | cons a arrivals ih => rw [outputs, List.flatMap_cons, Run.emitted, ih]

/-- A datagram that does not matter leaves the process as it finds it. -/
theorem unnoticed {node : Node} {a : Arrival}
    (h : node.matters pkey evp satelliteKeypair a = false) :
    (node.step pkey evp satelliteKeypair a).1 = node ∧
      node.execution pkey evp satelliteKeypair a = none ∧
      (node.step pkey evp satelliteKeypair a).2.sent = [] := by
  cases node with
  | listening => cases h
  | exited code => exact ⟨rfl, rfl, rfl⟩
  | running s =>
    simp only [matters, Bool.or_eq_false_iff, decide_eq_false_iff_not,
      Option.isSome_eq_false_iff, Option.isNone_iff_eq_none] at h
    obtain ⟨hlen, hnone⟩ := h
    have hreject := Option.map_eq_none_iff.mp (execution_packet hlen ▸ hnone)
    refine ⟨?_, hnone, ?_⟩
    · have hsession : (loop pkey evp satelliteKeypair s a).1 = s := by
        rw [loop_session hlen, Phase3.process_reject hreject]
      exact congrArg running hsession
    · have hacks (d : Decision) (hd : d.acceptance = none) : d.acks = [] := by
        cases d with
        | accepted => cases hd
        | _ => rfl
      by_cases hempty : a.received.length = 0
      · rw [step, loop, if_pos hempty]
      · obtain ⟨-, hsent, -⟩ := Phase5.process_outcome evp a.received s.sessionKey s.replayGuard
          a.latencyClock a.freshClock
        rw [step, loop, if_neg hempty, if_neg hlen]
        refine hsent.trans (hacks _ ?_)
        rw [← hreject, ← Phase5.process_eq_phase3 evp _ _ _ a.latencyClock]

theorem purge_exited (code : ℕ) (arrivals : List Arrival) :
    Run.purge (fun node a ↦ (step pkey evp satelliteKeypair node a).1)
      (matters pkey evp satelliteKeypair) (exited code) arrivals = [] := by
  induction arrivals with
  | nil => rfl
  | cons a arrivals ih => exact ih

variable (pkey evp satelliteKeypair) in
theorem length_purge_running (s : Session) (arrivals : List Arrival) :
    (Run.purge (fun node a ↦ (step pkey evp satelliteKeypair node a).1)
        (matters pkey evp satelliteKeypair) (running s) arrivals).length ≤
      arrivals.countP (fun a ↦ a.received.length = 32) +
        ((running s).executions pkey evp satelliteKeypair arrivals).length := by
  induction arrivals generalizing s with
  | nil => exact Nat.zero_le _
  | cons a arrivals ih =>
    have hrest := ih (loop pkey evp satelliteKeypair s a).1
    rw [Run.purge, executions, List.countP_cons, List.length_append, Option.length_toList,
      show (step pkey evp satelliteKeypair (running s) a).1 =
        running (loop pkey evp satelliteKeypair s a).1 from rfl]
    by_cases hlen : a.received.length = 32
    · rw [if_pos (by simp [matters, hlen]), if_pos (decide_eq_true hlen), List.length_cons]
      omega
    · have hlen' : ¬ decide (a.received.length = 32) = true := by simpa using hlen
      rw [if_neg hlen']
      by_cases hx : ((running s).execution pkey evp satelliteKeypair a).isSome = true
      · rw [if_pos (by simp [matters, hx]), if_pos hx, List.length_cons]
        omega
      · rw [if_neg (by simp [matters, hx, hlen]), if_neg hx]
        omega

variable (pkey evp satelliteKeypair)

/-- Whatever the satellite rejects, it forgets: without those datagrams the run ends in the same
state, executes the same commands and sends the same datagrams. What is left is the first datagram,
the handshakes and what is executed. -/
theorem rejected_leave_no_trace (arrivals : List Arrival) :
    let kept := purged pkey evp satelliteKeypair arrivals
    after pkey evp satelliteKeypair .listening kept =
        after pkey evp satelliteKeypair .listening arrivals ∧
      executions pkey evp satelliteKeypair .listening kept =
        executions pkey evp satelliteKeypair .listening arrivals ∧
      (outputs pkey evp satelliteKeypair .listening kept).flatMap Output.sent =
        (outputs pkey evp satelliteKeypair .listening arrivals).flatMap Output.sent ∧
      kept.length ≤ 1 + arrivals.countP (fun a ↦ a.received.length = 32) +
        (executions pkey evp satelliteKeypair .listening arrivals).length := by
  intro kept
  refine ⟨?_, ?_, ?_, ?_⟩
  · exact Run.foldl_purge (fun node a h ↦ (unnoticed h).1) .listening arrivals
  · rw [executions_eq_emitted, executions_eq_emitted]
    refine Run.emitted_purge (fun node a h ↦ ?_) Node.listening arrivals
    obtain ⟨hstep, hnone, -⟩ := unnoticed h
    exact ⟨hstep, by rw [hnone]; rfl⟩
  · rw [sent_eq_emitted, sent_eq_emitted]
    refine Run.emitted_purge (fun node a h ↦ ?_) Node.listening arrivals
    obtain ⟨hstep, -, hsent⟩ := unnoticed h
    exact ⟨hstep, hsent⟩
  · cases arrivals with
    | nil => exact Nat.zero_le _
    | cons a rest =>
      have hkept : kept = a :: Run.purge (fun node a ↦ (step pkey evp satelliteKeypair node a).1)
          (matters pkey evp satelliteKeypair) (start pkey satelliteKeypair a).1 rest := rfl
      rw [hkept, executions_listening, List.length_cons, List.countP_cons]
      rcases start_cases pkey satelliteKeypair a with hs | ⟨s, hs⟩
      · rw [hs, purge_exited, List.length_nil]
        omega
      · have hrest := length_purge_running pkey evp satelliteKeypair s rest
        rw [hs]
        omega

end Node

/-- The string under which the guard remembers the packet. -/
def Execution.nonceKey (x : Execution) : List Char :=
  AntiReplay.makeNonceKey x.packet.sessionId x.packet.nonce

namespace Node

variable {Key : Type} {pkey : Pkey Key} {evp : Evp} {satelliteKeypair : Key}

theorem seenNonces_sessionAfter {s : Session} {arrivals : List Arrival}
    (h : ∀ a ∈ arrivals, a.received.length ≠ 32) :
    (sessionAfter pkey evp satelliteKeypair s arrivals).replayGuard.seenNonces =
      s.replayGuard.seenNonces ∪ (((Node.running s).executions pkey evp satelliteKeypair
        arrivals).map Execution.nonceKey).toFinset := by
  induction arrivals generalizing s with
  | nil => simp [sessionAfter, executions]
  | cons a arrivals ih =>
    obtain ⟨ha, hrest⟩ := List.forall_mem_cons.mp h
    have hfirst : (loop pkey evp satelliteKeypair s a).1.replayGuard.seenNonces =
        s.replayGuard.seenNonces ∪ (((Node.running s).execution pkey evp satelliteKeypair
          a).toList.map Execution.nonceKey).toFinset := by
      rw [loop_session ha, execution_packet ha]
      cases hx : Execution.of s.sessionKey
          (Phase3.processSecurePacket evp a.received s.sessionKey s.replayGuard a.freshClock).1 with
      | none =>
        rw [Phase3.process_reject (Option.map_eq_none_iff.mp hx)]
        simp
      | some x =>
        rw [Phase3.process_accept (Execution.of_eq_some.mp hx).2]
        simp [AntiReplay.markSeen, Execution.nonceKey]
    rw [executions, List.map_append, List.toFinset_append, ← Finset.union_assoc, ← hfirst]
    exact ih hrest

theorem nodup_nonceKey {sessionKey : Bytes} {arrivals : List Arrival}
    (h : ∀ a ∈ arrivals, a.received.length ≠ 32) :
    (((Node.running ⟨sessionKey, .new 30000⟩).executions pkey evp satelliteKeypair
      arrivals).map Execution.nonceKey).Nodup := by
  have hnodup := OnceFilter.nodup_accepted (acceptable evp sessionKey 30000) ∅
    (arrivals.map fun a ↦ (a.received, a.freshClock))
  rw [executions_eq_accepted (AntiReplay.tracks_new 30000) h, List.map_map, List.Nodup,
    List.pairwise_map]
  rw [List.Nodup, List.pairwise_map] at hnodup
  refine hnodup.imp_of_mem fun {x y} hx hy hne heq ↦ hne ?_
  obtain ⟨_, -, hx⟩ := OnceFilter.check_of_mem_accepted _ hx
  obtain ⟨_, -, hy⟩ := OnceFilter.check_of_mem_accepted _ hy
  obtain ⟨hkx, -⟩ := acceptable_eq_some.mp hx
  obtain ⟨hky, -⟩ := acceptable_eq_some.mp hy
  rw [hkx, hky]
  exact Prod.ext_iff.mpr (AntiReplay.makeNonceKey_inj.mp heq)

/-- What the guard holds in the loop: one string for each command executed since the last
handshake, and nothing else. -/
theorem replay_cache {arrivals : List Arrival} {s : Session}
    (h : after pkey evp satelliteKeypair .listening arrivals = .running s) :
    let executed := sessionExecutions pkey evp satelliteKeypair arrivals
    s.replayGuard.seenNonces = (executed.map Execution.nonceKey).toFinset ∧
      s.replayGuard.seenNonces.card = executed.length := by
  intro executed
  obtain ⟨before, a, later, rfl, ha, hlater, hafter, rfl⟩ := current_session h
  have hexecuted : executed = (Node.running ⟨sessionKeyWith pkey satelliteKeypair a.received,
      .new 30000⟩).executions pkey evp satelliteKeypair later := by
    rw [← hafter]
    exact sessionExecutions_eq ha hlater
  have hseen : (sessionAfter pkey evp satelliteKeypair ⟨sessionKeyWith pkey satelliteKeypair
      a.received, .new 30000⟩ later).replayGuard.seenNonces =
        (executed.map Execution.nonceKey).toFinset := by
    rw [seenNonces_sessionAfter hlater, hexecuted]
    exact Finset.empty_union _
  refine ⟨hseen, ?_⟩
  rw [hseen, List.toFinset_card_of_nodup (hexecuted ▸ nodup_nonceKey hlater), List.length_map]

theorem replay_cache_of_junk_and_copies :
    let call := validPacketCall 60000
    let key : Bytes := BigEndian.bytes 32 15
    let evp := Evp.ofTable [call.sealed key (List.replicate 17 1) (Vector.replicate tagSize 9)]
    let packet := call.datagram evp key
    let arrivals : List Arrival := [⟨BigEndian.bytes 32 5, 60000, 60000⟩,
      ⟨packet.set 11 0, 60050, 60050⟩, ⟨packet, 60100, 60100⟩, ⟨packet, 60200, 60200⟩]
    let s : Session := ⟨key, (AntiReplay.new 30000).markSeen call.sessionId call.nonce⟩
    s.replayGuard.seenNonces.card = (sessionExecutions .product evp 3 arrivals).length ∧
      (sessionExecutions .product evp 3 arrivals).length = 1 := by
  intro call key evp packet arrivals s
  have hstate : after .product evp 3 .listening arrivals = .running s := by decide +kernel
  exact ⟨(replay_cache hstate).2, by decide +kernel⟩

end Node

end SpaceSec
