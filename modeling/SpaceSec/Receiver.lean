import SpaceSec.AntiReplay
import SpaceSec.Crypto
import SpaceSec.PacketCodec
import SpaceSec.Library.OnceFilter

namespace SpaceSec

/-- The exits of `process_secure_packet`, in the order of the source. -/
inductive Decision
  | fault
  | badFormat
  | expired
  | duplicate
  | tagFail
  | accepted (packet : SecurePacket) (command : Bytes)
  deriving DecidableEq

namespace Phase3

def processSecurePacket (evp : Evp) (rawPacket sessionKey : Bytes) (replayGuard : AntiReplay)
    (now : UInt64) : Decision × AntiReplay :=
  match deserializePacket rawPacket default with
  | none => (.fault, replayGuard)
  | some (false, _) => (.badFormat, replayGuard)
  | some (true, packet) =>
    if !replayGuard.isFresh packet.timestampMs now then (.expired, replayGuard) else
    if replayGuard.isDuplicate packet.sessionId packet.nonce then (.duplicate, replayGuard) else
    let aad := buildAad packet
    let tag := packet.tag.toList
    match decryptChacha20Poly1305 evp sessionKey packet.nonce.toList packet.ciphertext aad
        tag [] with
    | (false, _) => (.tagFail, replayGuard)
    | (true, plaintext) =>
      (.accepted packet plaintext, replayGuard.markSeen packet.sessionId packet.nonce)

def run (evp : Evp) (sessionKey : Bytes) :
    AntiReplay → List (Bytes × UInt64) → List Decision × AntiReplay
  | replayGuard, [] => ([], replayGuard)
  | replayGuard, (rawPacket, now) :: rest =>
    let (decision, replayGuard) := processSecurePacket evp rawPacket sessionKey replayGuard now
    let (decisions, replayGuard) := run evp sessionKey replayGuard rest
    (decision :: decisions, replayGuard)

end Phase3

abbrev Identity := UInt32 × Nonce

def SecurePacket.identity (packet : SecurePacket) : Identity := (packet.sessionId, packet.nonce)

def SecurePacket.aeadOpen (packet : SecurePacket) (evp : Evp) (sessionKey : Bytes) : Option Bytes :=
  evp.aeadOpen sessionKey packet.nonce.toList packet.ciphertext (buildAad packet) packet.tag.toList

def Decision.acceptance : Decision → Option (Identity × SecurePacket × Bytes)
  | .accepted packet command => some (packet.identity, packet, command)
  | _ => none

/-- What makes a datagram acceptable in itself: it parses, is fresh and opens. -/
def acceptable (evp : Evp) (sessionKey : Bytes) (window : UInt64) (input : Bytes × UInt64) :
    Option (Identity × SecurePacket × Bytes) :=
  let packet := slicePacket input.1
  if 40 ≤ input.1.length ∧ |(input.2.toNat : ℤ) - packet.timestampMs.toNat| ≤ window.toNat then
    (packet.aeadOpen evp sessionKey).map (packet.identity, packet, ·)
  else none

/-- The guard's strings stand for a set of packet identities. -/
structure AntiReplay.Tracks (replayGuard : AntiReplay) (window : UInt64) (seen : Finset Identity) :
    Prop where
  windowMs : replayGuard.windowMs = window
  isDuplicate : ∀ s n, replayGuard.isDuplicate s n = true ↔ (s, n) ∈ seen

theorem AntiReplay.tracks_new (window : UInt64) : (AntiReplay.new window).Tracks window ∅ :=
  ⟨rfl, fun s n ↦ by simp [isDuplicate_new]⟩

theorem AntiReplay.Tracks.markSeen {replayGuard : AntiReplay} {window : UInt64}
    {seen : Finset Identity} (h : replayGuard.Tracks window seen) (packet : SecurePacket) :
    (replayGuard.markSeen packet.sessionId packet.nonce).Tracks window
      (insert packet.identity seen) where
  windowMs := h.windowMs
  isDuplicate s n := by
    rw [isDuplicate_markSeen, h.isDuplicate, Finset.mem_insert, SecurePacket.identity, Prod.mk_inj]

theorem acceptance_eq_some {decision : Decision} {packet : SecurePacket} {command : Bytes}
    {k : Identity} :
    decision.acceptance = some (k, packet, command) ↔
      k = packet.identity ∧ decision = .accepted packet command := by
  cases decision with
  | accepted packet' command' =>
    simp only [Decision.acceptance, Option.some.injEq, Prod.mk.injEq, Decision.accepted.injEq]
    refine ⟨?_, ?_⟩
    · intro h
      obtain ⟨rfl, rfl, rfl⟩ := h
      exact ⟨rfl, rfl, rfl⟩
    · intro h
      obtain ⟨rfl, rfl, rfl⟩ := h
      exact ⟨rfl, rfl, rfl⟩
  | _ => simp [Decision.acceptance]

theorem acceptable_eq_some {evp : Evp} {sessionKey : Bytes} {window : UInt64} {d : Bytes}
    {now : UInt64} {k : Identity} {packet : SecurePacket} {command : Bytes} :
    acceptable evp sessionKey window (d, now) = some (k, packet, command) ↔
      k = packet.identity ∧ packet = slicePacket d ∧ 40 ≤ d.length ∧
        |(now.toNat : ℤ) - packet.timestampMs.toNat| ≤ window.toNat ∧
        packet.aeadOpen evp sessionKey = some command := by
  rw [acceptable, Option.ite_none_right_eq_some, Option.map_eq_some_iff]
  refine ⟨?_, ?_⟩
  · intro h
    obtain ⟨⟨hlen, hfresh⟩, command', hopen, heq⟩ := h
    simp only [Prod.mk.injEq] at heq
    obtain ⟨rfl, rfl, rfl⟩ := heq
    exact ⟨rfl, rfl, hlen, hfresh, hopen⟩
  · intro h
    obtain ⟨rfl, rfl, hlen, hfresh, hopen⟩ := h
    exact ⟨⟨hlen, hfresh⟩, command, hopen, rfl⟩

namespace Phase3

theorem process_accepted_iff {evp : Evp} {rawPacket sessionKey : Bytes} {replayGuard : AntiReplay}
    {now : UInt64} {packet : SecurePacket} {command : Bytes} :
    (processSecurePacket evp rawPacket sessionKey replayGuard now).1 = .accepted packet command ↔
      packet = slicePacket rawPacket ∧ 40 ≤ rawPacket.length ∧
        |(now.toNat : ℤ) - packet.timestampMs.toNat| ≤ replayGuard.windowMs.toNat ∧
        replayGuard.isDuplicate packet.sessionId packet.nonce = false ∧
        packet.aeadOpen evp sessionKey = some command := by
  simp only [processSecurePacket, deserializePacket_eq]
  by_cases hlen : 40 ≤ rawPacket.length
  · simp only [if_pos hlen]
    by_cases hf : replayGuard.isFresh (slicePacket rawPacket).timestampMs now = true
    · by_cases hdup : replayGuard.isDuplicate (slicePacket rawPacket).sessionId
          (slicePacket rawPacket).nonce = true
      · simp only [hf, Bool.not_true, Bool.false_eq_true, if_false, hdup, if_true, reduceCtorEq,
          false_iff]
        intro h
        obtain ⟨rfl, -, -, hnew, -⟩ := h
        exact Bool.false_ne_true (hnew.symm.trans hdup)
      · have hfresh := (replayGuard.isFresh_iff _ _).mp hf
        simp only [hf, Bool.not_true, Bool.false_eq_true, if_false, hdup]
        cases hopen : (slicePacket rawPacket).aeadOpen evp sessionKey with
        | none =>
          have hd := evp.decrypt_of_not_open hopen []
          generalize decryptChacha20Poly1305 evp sessionKey _ _ _ _ [] = answer at hd ⊢
          obtain ⟨ok, out⟩ := answer
          obtain rfl : ok = false := hd
          simp only [reduceCtorEq, false_iff]
          intro h
          obtain ⟨rfl, -, -, -, ho⟩ := h
          simp [hopen] at ho
        | some plaintext =>
          rw [evp.decrypt_of_open hopen []]
          simp only [Decision.accepted.injEq]
          refine ⟨?_, ?_⟩
          · intro h
            obtain ⟨rfl, rfl⟩ := h
            exact ⟨rfl, hlen, hfresh, Bool.eq_false_iff.mpr hdup, hopen⟩
          · intro h
            obtain ⟨rfl, -, -, -, ho⟩ := h
            exact ⟨rfl, Option.some_inj.mp (hopen.symm.trans ho)⟩
    · simp only [hf, Bool.not_false, if_true, reduceCtorEq, false_iff]
      intro h
      obtain ⟨rfl, -, hfresh, -⟩ := h
      exact hf ((replayGuard.isFresh_iff _ _).mpr hfresh)
  · simp [hlen]

theorem process_reject {evp : Evp} {rawPacket sessionKey : Bytes} {replayGuard : AntiReplay}
    {now : UInt64}
    (h : (processSecurePacket evp rawPacket sessionKey replayGuard now).1.acceptance = none) :
    (processSecurePacket evp rawPacket sessionKey replayGuard now).2 = replayGuard := by
  simp only [processSecurePacket] at h ⊢
  split at h
  · rfl
  · rfl
  · split_ifs at h ⊢ with hfresh hdup
    · rfl
    · rfl
    · split at h
      · rfl
      · cases h

theorem process_accept {evp : Evp} {rawPacket sessionKey : Bytes} {replayGuard : AntiReplay}
    {now : UInt64} {packet : SecurePacket} {command : Bytes}
    (h : (processSecurePacket evp rawPacket sessionKey replayGuard now).1 =
      .accepted packet command) :
    (processSecurePacket evp rawPacket sessionKey replayGuard now).2 =
      replayGuard.markSeen packet.sessionId packet.nonce := by
  simp only [processSecurePacket] at h ⊢
  split at h
  · cases h
  · cases h
  · split_ifs at h ⊢ with hfresh hdup
    split at h
    · cases h
    · obtain ⟨rfl, -⟩ := Decision.accepted.inj h
      rfl

theorem process_windowMs (evp : Evp) (rawPacket sessionKey : Bytes) (replayGuard : AntiReplay)
    (now : UInt64) :
    (processSecurePacket evp rawPacket sessionKey replayGuard now).2.windowMs =
      replayGuard.windowMs := by
  cases ha : (processSecurePacket evp rawPacket sessionKey replayGuard now).1.acceptance with
  | none => rw [process_reject ha]
  | some a => rw [process_accept (acceptance_eq_some.mp ha).2, AntiReplay.markSeen_windowMs]

/-- One call of the receiver is one step of the once-only filter: it accepts the same
datagrams, and its string set goes on standing for the accepted identities. -/
theorem process_refines (evp : Evp) (sessionKey : Bytes) {replayGuard : AntiReplay}
    {window : UInt64} {seen : Finset Identity} (h : replayGuard.Tracks window seen)
    (rawPacket : Bytes) (now : UInt64) :
    let result := processSecurePacket evp rawPacket sessionKey replayGuard now
    let filtered := OnceFilter.step (acceptable evp sessionKey window) seen (rawPacket, now)
    result.1.acceptance = filtered.1 ∧ result.2.Tracks window filtered.2 := by
  intro result filtered
  have hacceptance : result.1.acceptance = filtered.1 := by
    refine Option.ext fun ⟨k, packet, command⟩ ↦ ?_
    rw [acceptance_eq_some, OnceFilter.step_some, acceptable_eq_some, process_accepted_iff,
      h.windowMs, Bool.eq_false_iff, ne_eq, h.isDuplicate]
    refine ⟨?_, ?_⟩
    · intro haccepted
      obtain ⟨rfl, hpacket, hlen, hfresh, hnew, hopen⟩ := haccepted
      exact ⟨⟨rfl, hpacket, hlen, hfresh, hopen⟩, hnew⟩
    · intro hfilter
      obtain ⟨⟨rfl, hpacket, hlen, hfresh, hopen⟩, hnew⟩ := hfilter
      exact ⟨rfl, hpacket, hlen, hfresh, hnew, hopen⟩
  refine ⟨hacceptance, ?_⟩
  cases hf : filtered.1 with
  | none =>
    rw [show result.2 = replayGuard from process_reject (hacceptance.trans hf),
      show filtered.2 = seen from OnceFilter.step_none _ hf]
    exact h
  | some a =>
    obtain ⟨k, packet, command⟩ := a
    obtain ⟨rfl, hd⟩ := acceptance_eq_some.mp (hacceptance.trans hf)
    rw [show result.2 = _ from process_accept hd,
      show filtered.2 = insert packet.identity seen from OnceFilter.step_insert _ hf]
    exact h.markSeen packet

theorem run_refines (evp : Evp) (sessionKey : Bytes) {replayGuard : AntiReplay} {window : UInt64}
    {seen : Finset Identity} (h : replayGuard.Tracks window seen) (inputs : List (Bytes × UInt64)) :
    (run evp sessionKey replayGuard inputs).1.map Decision.acceptance =
        OnceFilter.run (acceptable evp sessionKey window) seen inputs ∧
      (run evp sessionKey replayGuard inputs).2.Tracks window
        (OnceFilter.seenAfter (acceptable evp sessionKey window) seen inputs) := by
  induction inputs generalizing replayGuard seen with
  | nil => exact ⟨rfl, h⟩
  | cons input inputs ih =>
    obtain ⟨hdecision, htracks⟩ := process_refines evp sessionKey h input.1 input.2
    obtain ⟨hdecisions, hfinal⟩ := ih htracks
    refine ⟨?_, by simpa [run, OnceFilter.seenAfter] using hfinal⟩
    simp only [run, OnceFilter.run, List.map_cons, hdecision, hdecisions]

theorem run_append (evp : Evp) (sessionKey : Bytes) (replayGuard : AntiReplay)
    (xs ys : List (Bytes × UInt64)) :
    run evp sessionKey replayGuard (xs ++ ys) =
      ((run evp sessionKey replayGuard xs).1 ++
        (run evp sessionKey (run evp sessionKey replayGuard xs).2 ys).1,
      (run evp sessionKey (run evp sessionKey replayGuard xs).2 ys).2) := by
  induction xs generalizing replayGuard with
  | nil => rfl
  | cons x xs ih => simp only [List.cons_append, run, ih]

end Phase3

end SpaceSec
