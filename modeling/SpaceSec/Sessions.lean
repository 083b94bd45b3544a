import SpaceSec.GroundStation
import SpaceSec.SatelliteNode
import SpaceSec.AcceptanceRule
import SpaceSec.Library.EpochFilter

namespace SpaceSec

open OnceFilter (EpochInput Epoch)

namespace Execution

def entry (x : Execution) : Bytes × Identity × SecurePacket × Bytes :=
  (x.sessionKey, x.packet.identity, x.packet, x.command)

theorem of_entry (sessionKey : Bytes) (decision : Decision) :
    (Execution.of sessionKey decision).map entry = decision.acceptance.map (sessionKey, ·) := by
  cases decision <;> rfl

end Execution

section Refinement

variable {Key : Type} {pkey : Pkey Key} {evp : Evp} {satelliteKeypair : Key}

/-- A handshake datagram renews the epoch, whose name is the session key; every other datagram is
offered to the filter. -/
def Arrival.epochInput (pkey : Pkey Key) (satelliteKeypair : Key) (a : Arrival) :
    EpochInput Bytes (Bytes × UInt64) :=
  if a.received.length = 32 then .renew (sessionKeyWith pkey satelliteKeypair a.received)
  else .offer (a.received, a.freshClock)

def sessionCheck (evp : Evp) (sessionKey : Bytes) :
    Bytes × UInt64 → Option (Identity × SecurePacket × Bytes) :=
  acceptable evp sessionKey 30000

structure Session.Represents (s : Session) (e : Epoch Bytes Identity) : Prop where
  sessionKey : s.sessionKey = e.current
  tracks : s.replayGuard.Tracks 30000 e.seen

theorem Session.represents_new (sessionKey : Bytes) :
    Session.Represents ⟨sessionKey, .new 30000⟩ ⟨sessionKey, ∅⟩ :=
  ⟨rfl, AntiReplay.tracks_new 30000⟩

variable (pkey evp satelliteKeypair)

theorem Session.Represents.step {s : Session} {e : Epoch Bytes Identity} (h : s.Represents e)
    (a : Arrival) :
    let filtered := e.step (sessionCheck evp) (a.epochInput pkey satelliteKeypair)
    (Node.loop pkey evp satelliteKeypair s a).1.Represents filtered.2 ∧
      ((Node.running s).execution pkey evp satelliteKeypair a).map Execution.entry =
        filtered.1.map (e.current, ·) := by
  by_cases hlen : a.received.length = 32
  · simp only [Node.loop_handshake hlen, Node.execution_handshake hlen, Arrival.epochInput,
      if_pos hlen, Epoch.step, Option.map_none, and_true]
    exact Session.represents_new _
  · obtain ⟨hdecision, htracks⟩ :=
      Phase3.process_refines evp s.sessionKey h.tracks a.received a.freshClock
    simp only [Node.loop_session hlen, Node.execution_packet hlen, Arrival.epochInput,
      if_neg hlen, Epoch.step, Execution.of_entry, hdecision, ← h.sessionKey]
    exact ⟨⟨rfl, htracks⟩, rfl⟩

theorem Session.Represents.run {s : Session} {e : Epoch Bytes Identity} (h : s.Represents e)
    (arrivals : List Arrival) :
    let inputs := arrivals.map (Arrival.epochInput pkey satelliteKeypair)
    (Node.sessionAfter pkey evp satelliteKeypair s arrivals).Represents
        (e.after (sessionCheck evp) inputs) ∧
      ((Node.running s).executions pkey evp satelliteKeypair arrivals).map Execution.entry =
        e.log (sessionCheck evp) inputs := by
  induction arrivals generalizing s e with
  | nil => exact ⟨h, rfl⟩
  | cons a arrivals ih =>
    obtain ⟨hstep, hexecution⟩ := h.step pkey evp satelliteKeypair a
    obtain ⟨hafter, hlog⟩ := ih hstep
    refine ⟨hafter, ?_⟩
    simp only [List.map_cons, Epoch.log, Node.executions, List.map_append]
    refine congrArg₂ (· ++ ·) ?_ hlog
    rw [← Option.toList_map, ← Option.toList_map, hexecution]

end Refinement

namespace Node

variable {Key : Type} {pkey : Pkey Key} {evp : Evp} {satelliteKeypair : Key}

/-- A session in the loop began with the last handshake that the node received. -/
theorem current_session {arrivals : List Arrival} {s : Session}
    (h : after pkey evp satelliteKeypair .listening arrivals = .running s) :
    ∃ before a later, arrivals = before ++ a :: later ∧ a.received.length = 32 ∧
      (∀ b ∈ later, b.received.length ≠ 32) ∧
      after pkey evp satelliteKeypair .listening (before ++ [a]) =
        .running ⟨sessionKeyWith pkey satelliteKeypair a.received, .new 30000⟩ ∧
      s = sessionAfter pkey evp satelliteKeypair
        ⟨sessionKeyWith pkey satelliteKeypair a.received, .new 30000⟩ later := by
  obtain ⟨first, rest, s₀, rfl, hstart, rfl⟩ := started_of_running h
  clear h
  induction rest using List.reverseRecOn with
  | nil =>
    obtain ⟨hlen, rfl, -⟩ := start_running hstart
    exact ⟨[], first, [], rfl, hlen, by simp, hstart, rfl⟩
  | append_singleton rest b ih =>
    obtain ⟨before, a, later, heq, hlen, hlater, hafter, hsession⟩ := ih
    by_cases hb : b.received.length = 32
    · refine ⟨first :: rest, b, [], rfl, hb, by simp, ?_, ?_⟩
      · rw [List.cons_append, after_listening, hstart, after_running, sessionAfter_append]
        exact congrArg (fun r ↦ running r.1) (loop_handshake hb)
      · rw [sessionAfter_append]
        exact congrArg Prod.fst (loop_handshake hb)
    · refine ⟨before, a, later ++ [b], ?_, hlen, ?_, hafter, ?_⟩
      · rw [← List.cons_append, heq, List.append_assoc, List.cons_append]
      · intro c hc
        rcases List.mem_append.mp hc with hc | hc
        · exact hlater c hc
        · rwa [List.mem_singleton.mp hc]
      · rw [sessionAfter_append, sessionAfter_append, hsession]

theorem sessionKey_sessionAfter {s : Session} {arrivals : List Arrival}
    (h : ∀ a ∈ arrivals, a.received.length ≠ 32) :
    (sessionAfter pkey evp satelliteKeypair s arrivals).sessionKey = s.sessionKey := by
  induction arrivals generalizing s with
  | nil => rfl
  | cons a arrivals ih =>
    obtain ⟨ha, harrivals⟩ := List.forall_mem_cons.mp h
    rw [sessionAfter, List.foldl_cons, loop_session ha]
    exact ih harrivals

theorem windowMs_sessionAfter {s : Session} {arrivals : List Arrival}
    (h : ∀ a ∈ arrivals, a.received.length ≠ 32) :
    (sessionAfter pkey evp satelliteKeypair s arrivals).replayGuard.windowMs =
      s.replayGuard.windowMs := by
  induction arrivals generalizing s with
  | nil => rfl
  | cons a arrivals ih =>
    obtain ⟨ha, harrivals⟩ := List.forall_mem_cons.mp h
    rw [sessionAfter, List.foldl_cons, loop_session ha]
    exact (ih harrivals).trans (Phase3.process_windowMs _ _ _ _ _)

theorem isDuplicate_loop {s : Session} {a : Arrival} (ha : a.received.length ≠ 32) (k : Identity) :
    (loop pkey evp satelliteKeypair s a).1.replayGuard.isDuplicate k.1 k.2 = true ↔
      s.replayGuard.isDuplicate k.1 k.2 = true ∨
        ∃ x ∈ (Node.running s).execution pkey evp satelliteKeypair a, x.packet.identity = k := by
  rw [loop_session ha, execution_packet ha]
  cases hx : Execution.of s.sessionKey
      (Phase3.processSecurePacket evp a.received s.sessionKey s.replayGuard a.freshClock).1 with
  | none =>
    rw [Phase3.process_reject (Option.map_eq_none_iff.mp hx)]
    simp
  | some x =>
    have hk : x.packet.identity = k ↔ k.1 = x.packet.sessionId ∧ k.2 = x.packet.nonce :=
      eq_comm.trans Prod.ext_iff
    rw [Phase3.process_accept (Execution.of_eq_some.mp hx).2, AntiReplay.isDuplicate_markSeen,
      or_comm]
    simp only [Option.mem_some_iff, exists_eq_left', hk]

theorem isDuplicate_sessionAfter {s : Session} {arrivals : List Arrival}
    (h : ∀ a ∈ arrivals, a.received.length ≠ 32) (k : Identity) :
    (sessionAfter pkey evp satelliteKeypair s arrivals).replayGuard.isDuplicate k.1 k.2 = true ↔
      s.replayGuard.isDuplicate k.1 k.2 = true ∨
        ∃ x ∈ (Node.running s).executions pkey evp satelliteKeypair arrivals,
          x.packet.identity = k := by
  induction arrivals generalizing s with
  | nil => simp [sessionAfter, executions]
  | cons a arrivals ih =>
    obtain ⟨ha, harrivals⟩ := List.forall_mem_cons.mp h
    have hrest := @ih (loop pkey evp satelliteKeypair s a).1 harrivals
    rw [sessionAfter, List.foldl_cons]
    simp only [sessionAfter] at hrest
    rw [hrest, isDuplicate_loop ha]
    simp only [executions, step, List.mem_append, Option.mem_toList, or_and_right, exists_or,
      or_assoc, Option.mem_def]

theorem sessionExecutions_eq {before later : List Arrival} {a : Arrival}
    (ha : a.received.length = 32) (hlater : ∀ b ∈ later, b.received.length ≠ 32) :
    sessionExecutions pkey evp satelliteKeypair (before ++ a :: later) =
      (after pkey evp satelliteKeypair .listening (before ++ [a])).executions pkey evp
        satelliteKeypair later := by
  have hp : ∀ b ∈ later.reverse, b.keepsSession = true := by
    simpa [Arrival.keepsSession] using hlater
  have hreverse : (before ++ a :: later).reverse = later.reverse ++ a :: before.reverse := by simp
  have hstop : ¬ a.keepsSession = true := by simpa [Arrival.keepsSession] using ha
  rw [sessionExecutions, List.rdropWhile, List.rtakeWhile, hreverse,
    List.dropWhile_append_of_pos hp, List.takeWhile_append_of_pos hp,
    List.dropWhile_cons_of_neg hstop, List.takeWhile_cons_of_neg hstop]
  simp only [List.reverse_cons, List.reverse_reverse, List.append_nil]

/-- In the loop the guard knows the session's executions, and its window is thirty seconds. -/
theorem guard_of_running {arrivals : List Arrival} {s : Session}
    (h : after pkey evp satelliteKeypair .listening arrivals = .running s) :
    s.replayGuard.windowMs = 30000 ∧
      ∀ k : Identity, s.replayGuard.isDuplicate k.1 k.2 = true ↔
        ∃ x ∈ sessionExecutions pkey evp satelliteKeypair arrivals, x.packet.identity = k := by
  obtain ⟨before, a, later, rfl, ha, hlater, hafter, rfl⟩ := current_session h
  refine ⟨windowMs_sessionAfter hlater, fun k ↦ ?_⟩
  rw [isDuplicate_sessionAfter hlater, sessionExecutions_eq ha hlater, hafter,
    AntiReplay.isDuplicate_new]
  simp only [Bool.false_eq_true, false_or]

theorem executions_eq_accepted {s : Session} {seen : Finset Identity}
    (h : s.replayGuard.Tracks 30000 seen) {arrivals : List Arrival}
    (hpackets : ∀ a ∈ arrivals, a.received.length ≠ 32) :
    (Node.running s).executions pkey evp satelliteKeypair arrivals =
      (OnceFilter.accepted (acceptable evp s.sessionKey 30000) seen
        (arrivals.map fun a ↦ (a.received, a.freshClock))).map
          fun accepted ↦ ⟨s.sessionKey, accepted.2.1, accepted.2.2⟩ := by
  induction arrivals generalizing s seen with
  | nil => rfl
  | cons a arrivals ih =>
    obtain ⟨ha, hrest⟩ := List.forall_mem_cons.mp hpackets
    obtain ⟨hdecision, htracks⟩ :=
      Phase3.process_refines evp s.sessionKey h a.received a.freshClock
    have hnext := @ih (loop pkey evp satelliteKeypair s a).1 _ (by rwa [loop_session ha]) hrest
    rw [executions, execution_packet ha, Execution.of, hdecision, List.map_cons,
      OnceFilter.accepted_cons, List.map_append, Option.toList_map]
    refine congrArg₂ (· ++ ·) rfl (hnext.trans ?_)
    rw [loop_session ha]

end Node

end SpaceSec
