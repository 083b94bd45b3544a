import SpaceSec.Receiver

namespace SpaceSec

open BigEndian

theorem timestamp_eq {d : Bytes} (h : 40 ≤ d.length) :
    (slicePacket d).timestampMs.toNat = value (d.extract 4 12) := by
  rw [← timestampMs_slicePacket h]
  exact (value_bytes_of_lt (slicePacket d).timestampMs.toNat_lt).symm

theorem identity_eq_iff {p : SecurePacket} {s : UInt32} {n : Nonce} :
    p.identity = (s, n) ↔
      bytes 4 p.sessionId.toNat = bytes 4 s.toNat ∧ p.nonce.toList = n.toList := by
  rw [SecurePacket.identity, Prod.mk_inj, Vector.toList_inj]
  refine and_congr_left' ⟨fun h ↦ by rw [h], fun h ↦ UInt32.toNat_inj.mp ?_⟩
  calc p.sessionId.toNat = value (bytes 4 p.sessionId.toNat) :=
        (value_bytes_of_lt p.sessionId.toNat_lt).symm
    _ = value (bytes 4 s.toNat) := by rw [h]
    _ = s.toNat := value_bytes_of_lt s.toNat_lt

theorem identity_slicePacket_eq_iff {d d' : Bytes} (h : 40 ≤ d.length) (h' : 40 ≤ d'.length) :
    (slicePacket d').identity = (slicePacket d).identity ↔
      d'.extract 0 4 = d.extract 0 4 ∧ d'.extract 12 24 = d.extract 12 24 := by
  rw [(slicePacket d).identity.eta.symm, identity_eq_iff, sessionId_slicePacket h',
    nonce_slicePacket h']
  simp only [SecurePacket.identity, sessionId_slicePacket h, nonce_slicePacket h]

theorem aeadOpen_eq {d : Bytes} (h : 40 ≤ d.length) (evp : Evp) (sessionKey : Bytes) :
    (slicePacket d).aeadOpen evp sessionKey =
      evp.aeadOpen sessionKey (d.extract 12 24) (d.extract 24 (d.length - 16)) (d.extract 0 24)
        (d.extract (d.length - 16) d.length) := by
  rw [SecurePacket.aeadOpen, buildAad_eq_take, serialize_slicePacket h, nonce_slicePacket h,
    tag_slicePacket h]
  rfl

namespace Phase3

variable (evp : Evp) (sessionKey : Bytes) (window : UInt64)

def decisions (inputs : List (Bytes × UInt64)) : List Decision :=
  (run evp sessionKey (.new window) inputs).1

def finalGuard (inputs : List (Bytes × UInt64)) : AntiReplay :=
  (run evp sessionKey (.new window) inputs).2

variable {evp sessionKey window} {inputs : List (Bytes × UInt64)}

theorem decision_iff {i : ℕ} {packet : SecurePacket} {command : Bytes} :
    (decisions evp sessionKey window inputs)[i]? = some (.accepted packet command) ↔
      (OnceFilter.run (acceptable evp sessionKey window) ∅ inputs)[i]? =
        some (some (packet.identity, packet, command)) := by
  rw [← (run_refines evp sessionKey (AntiReplay.tracks_new window) inputs).1, List.getElem?_map,
    Option.map_eq_some_iff, decisions]
  refine ⟨?_, ?_⟩
  · exact fun h ↦ ⟨_, h, rfl⟩
  · intro h
    obtain ⟨decision, h, ha⟩ := h
    rw [h, (acceptance_eq_some.mp ha).2]

theorem filter_entry {i : ℕ} {k : Identity} {a : SecurePacket × Bytes}
    (h : (OnceFilter.run (acceptable evp sessionKey window) ∅ inputs)[i]? = some (some (k, a))) :
    k = a.1.identity ∧
      (decisions evp sessionKey window inputs)[i]? = some (.accepted a.1 a.2) := by
  have hlt := (List.getElem?_eq_some_iff.mp h).1
  rw [OnceFilter.length_run] at hlt
  obtain ⟨hc, -⟩ := (OnceFilter.accepted_iff _ (List.getElem?_eq_getElem hlt) k a).mp h
  obtain ⟨rfl, -⟩ := acceptable_eq_some.mp hc
  exact ⟨rfl, decision_iff.mpr h⟩

theorem accepted_iff {i : ℕ} {d : Bytes} {t : UInt64} (h : inputs[i]? = some (d, t))
    {packet : SecurePacket} {command : Bytes} :
    (decisions evp sessionKey window inputs)[i]? = some (.accepted packet command) ↔
      packet = slicePacket d ∧ 40 ≤ d.length ∧
        |(t.toNat : ℤ) - packet.timestampMs.toNat| ≤ window.toNat ∧
        packet.aeadOpen evp sessionKey = some command ∧
        ∀ j < i, ∀ packet' command',
          (decisions evp sessionKey window inputs)[j]? = some (.accepted packet' command') →
          packet'.identity ≠ packet.identity := by
  rw [decision_iff, OnceFilter.accepted_iff _ h, acceptable_eq_some]
  refine ⟨?_, ?_⟩
  · intro hfilter
    obtain ⟨⟨-, hpacket, hlen, hfresh, hopen⟩, hearlier⟩ := hfilter
    refine ⟨hpacket, hlen, hfresh, hopen, fun j hj packet' command' hd heq ↦ ?_⟩
    exact hearlier j hj (packet', command') (heq ▸ decision_iff.mp hd)
  · intro hrule
    obtain ⟨hpacket, hlen, hfresh, hopen, hearlier⟩ := hrule
    refine ⟨⟨rfl, hpacket, hlen, hfresh, hopen⟩, fun j hj a ha ↦ ?_⟩
    obtain ⟨hk, hd⟩ := filter_entry ha
    exact hearlier j hj a.1 a.2 hd hk.symm

theorem input_of_accepted {i : ℕ} {packet : SecurePacket} {command : Bytes}
    (h : (decisions evp sessionKey window inputs)[i]? = some (.accepted packet command)) :
    ∃ d t, inputs[i]? = some (d, t) ∧ packet = slicePacket d ∧ 40 ≤ d.length := by
  have hlt := (List.getElem?_eq_some_iff.mp (decision_iff.mp h)).1
  rw [OnceFilter.length_run] at hlt
  have hi : inputs[i]? = some (inputs[i].1, inputs[i].2) := List.getElem?_eq_getElem hlt
  obtain ⟨hpacket, hlen, -⟩ := (accepted_iff hi).mp h
  exact ⟨_, _, hi, hpacket, hlen⟩

/-- The later of two acceptances would have found the earlier one's identity in the guard. -/
theorem accepted_position_unique {i j : ℕ} {packet packet' : SecurePacket}
    {command command' : Bytes}
    (h : (decisions evp sessionKey window inputs)[i]? = some (.accepted packet command))
    (h' : (decisions evp sessionKey window inputs)[j]? = some (.accepted packet' command'))
    (hidentity : packet.identity = packet'.identity) : i = j := by
  obtain ⟨_, _, hinput, -⟩ := input_of_accepted h
  obtain ⟨_, _, hinput', -⟩ := input_of_accepted h'
  obtain ⟨-, -, -, -, hfirst⟩ := (accepted_iff hinput).mp h
  obtain ⟨-, -, -, -, hfirst'⟩ := (accepted_iff hinput').mp h'
  rcases lt_trichotomy i j with hlt | heq | hlt
  · exact absurd hidentity (hfirst' i hlt packet command h)
  · exact heq
  · exact absurd hidentity.symm (hfirst j hlt packet' command' h')

theorem isDuplicate_finalGuard (s : UInt32) (n : Nonce) :
    (finalGuard evp sessionKey window inputs).isDuplicate s n = true ↔
      ∃ (i : ℕ) (packet : SecurePacket) (command : Bytes), packet.identity = (s, n) ∧
        (decisions evp sessionKey window inputs)[i]? = some (.accepted packet command) := by
  rw [finalGuard, (run_refines evp sessionKey (AntiReplay.tracks_new window) inputs).2.isDuplicate,
    OnceFilter.mem_seenAfter]
  simp only [Finset.notMem_empty, false_or, List.mem_iff_getElem?]
  refine ⟨?_, ?_⟩
  · intro h
    obtain ⟨⟨packet, command⟩, i, h⟩ := h
    obtain ⟨hk, hd⟩ := filter_entry h
    exact ⟨i, packet, command, hk.symm, hd⟩
  · intro h
    obtain ⟨i, packet, command, hk, hd⟩ := h
    exact ⟨(packet, command), i, hk ▸ decision_iff.mp hd⟩

theorem length_decisions : (decisions evp sessionKey window inputs).length = inputs.length := by
  have h := congrArg List.length
    (run_refines evp sessionKey (AntiReplay.tracks_new window) inputs).1
  rwa [List.length_map, OnceFilter.length_run] at h

theorem decisions_concat (d : Bytes) (t : UInt64) :
    decisions evp sessionKey window (inputs ++ [(d, t)]) = decisions evp sessionKey window inputs ++
      [(processSecurePacket evp d sessionKey (finalGuard evp sessionKey window inputs) t).1] := by
  rw [decisions, run_append]
  rfl

theorem finalGuard_concat (d : Bytes) (t : UInt64) :
    finalGuard evp sessionKey window (inputs ++ [(d, t)]) =
      (processSecurePacket evp d sessionKey (finalGuard evp sessionKey window inputs) t).2 := by
  rw [finalGuard, run_append]
  rfl

theorem no_earlier_iff {i : ℕ} {d : Bytes} (hlen : 40 ≤ d.length) :
    (∀ j < i, ∀ d' t' packet' command', inputs[j]? = some (d', t') →
      (decisions evp sessionKey window inputs)[j]? = some (.accepted packet' command') →
      ¬ (d'.extract 0 4 = d.extract 0 4 ∧ d'.extract 12 24 = d.extract 12 24)) ↔
    ∀ j < i, ∀ packet' command',
      (decisions evp sessionKey window inputs)[j]? = some (.accepted packet' command') →
      packet'.identity ≠ (slicePacket d).identity := by
  refine ⟨?_, ?_⟩
  · intro h j hj packet' command' hd
    obtain ⟨d', t', hj', rfl, hlen'⟩ := input_of_accepted hd
    rw [ne_eq, identity_slicePacket_eq_iff hlen hlen']
    exact h j hj d' t' _ command' hj' hd
  · intro h j hj d' t' packet' command' hj' hd
    obtain ⟨rfl, hlen', -⟩ := (accepted_iff hj').mp hd
    rw [← identity_slicePacket_eq_iff hlen hlen']
    exact h j hj _ command' hd

theorem finalGuard_of_reject {d : Bytes} {t : UInt64}
    (h : ∀ packet command,
      (decisions evp sessionKey window (inputs ++ [(d, t)]))[inputs.length]? ≠
        some (.accepted packet command)) :
    finalGuard evp sessionKey window (inputs ++ [(d, t)]) =
      finalGuard evp sessionKey window inputs := by
  rw [finalGuard_concat]
  apply process_reject
  apply Option.eq_none_iff_forall_ne_some.mpr
  intro a ha
  apply h a.2.1 a.2.2
  rw [decisions_concat, ← length_decisions, List.getElem?_concat_length,
    (acceptance_eq_some.mp ha).2]

end Phase3

open Phase3 in
/-- The receiver's whole specification over raw datagrams: which of them it accepts, what it then
executes, what its guard answers afterwards, and that a rejection leaves the guard as it was. -/
theorem acceptance_rule (evp : Evp) (sessionKey : Bytes) (window : UInt64)
    (inputs : List (Bytes × UInt64)) :
    (∀ (i : ℕ) (d : Bytes) (t : UInt64) (command : Bytes), inputs[i]? = some (d, t) →
      ((∃ packet, (decisions evp sessionKey window inputs)[i]? = some (.accepted packet command)) ↔
        40 ≤ d.length ∧
        |(t.toNat : ℤ) - value (d.extract 4 12)| ≤ window.toNat ∧
        (∀ j < i, ∀ d' t' packet' command', inputs[j]? = some (d', t') →
          (decisions evp sessionKey window inputs)[j]? = some (.accepted packet' command') →
          ¬ (d'.extract 0 4 = d.extract 0 4 ∧ d'.extract 12 24 = d.extract 12 24)) ∧
        evp.aeadOpen sessionKey (d.extract 12 24) (d.extract 24 (d.length - 16)) (d.extract 0 24)
          (d.extract (d.length - 16) d.length) = some command)) ∧
    (∀ s n, (finalGuard evp sessionKey window inputs).isDuplicate s n = true ↔
      ∃ (i : ℕ) (d : Bytes) (t : UInt64) (packet : SecurePacket) (command : Bytes),
        inputs[i]? = some (d, t) ∧
        (decisions evp sessionKey window inputs)[i]? = some (.accepted packet command) ∧
        d.extract 0 4 = bytes 4 s.toNat ∧ d.extract 12 24 = n.toList) ∧
    (∀ d t, (∀ packet command,
        (decisions evp sessionKey window (inputs ++ [(d, t)]))[inputs.length]? ≠
          some (.accepted packet command)) →
      finalGuard evp sessionKey window (inputs ++ [(d, t)]) =
        finalGuard evp sessionKey window inputs) := by
  refine ⟨?_, ?_, fun d t hreject ↦ finalGuard_of_reject hreject⟩
  · intro i d t command hi
    refine ⟨?_, ?_⟩
    · intro h
      obtain ⟨packet, hd⟩ := h
      obtain ⟨rfl, hlen, hfresh, hopen, hfirst⟩ := (accepted_iff hi).mp hd
      rw [timestamp_eq hlen] at hfresh
      rw [aeadOpen_eq hlen] at hopen
      exact ⟨hlen, hfresh, (no_earlier_iff hlen).mpr hfirst, hopen⟩
    · intro h
      obtain ⟨hlen, hfresh, hfirst, hopen⟩ := h
      rw [← timestamp_eq hlen] at hfresh
      rw [← aeadOpen_eq hlen] at hopen
      exact ⟨_, (accepted_iff hi).mpr ⟨rfl, hlen, hfresh, hopen, (no_earlier_iff hlen).mp hfirst⟩⟩
  · intro s n
    rw [isDuplicate_finalGuard]
    refine ⟨?_, ?_⟩
    · intro h
      obtain ⟨i, packet, command, hk, hd⟩ := h
      obtain ⟨d, t, hi, rfl, hlen⟩ := input_of_accepted hd
      rw [identity_eq_iff, sessionId_slicePacket hlen, nonce_slicePacket hlen] at hk
      exact ⟨i, d, t, _, command, hi, hd, hk⟩
    · intro h
      obtain ⟨i, d, t, packet, command, hi, hd, hk⟩ := h
      obtain ⟨rfl, hlen, -⟩ := (accepted_iff hi).mp hd
      refine ⟨i, _, command, ?_, hd⟩
      rwa [identity_eq_iff, sessionId_slicePacket hlen, nonce_slicePacket hlen]

end SpaceSec
