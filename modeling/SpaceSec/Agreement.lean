import SpaceSec.AcceptanceRule
import SpaceSec.GroundStation

namespace SpaceSec

/-- Under this key nothing opens but what the given calls sealed, and it opens to their commands. -/
def OpensOnlySealed (evp : Evp) (sessionKey : Bytes) (calls : Set CreateCall) : Prop :=
  ∀ nonce ciphertext aad tag plaintext,
    evp.aeadOpen sessionKey nonce ciphertext aad tag = some plaintext →
    ∃ call ∈ calls, ∃ sealedTag : Vector UInt8 tagSize,
      evp.aeadSeal sessionKey call.nonce.toList call.command call.aad =
        some (ciphertext, sealedTag) ∧
      call.nonce.toList = nonce ∧ call.aad = aad ∧ sealedTag.toList = tag ∧ call.command = plaintext

variable {evp : Evp} {sessionKey : Bytes} {calls : Set CreateCall}

theorem packet_of_opens (h : OpensOnlySealed evp sessionKey calls) {packet : SecurePacket}
    {command : Bytes} (hopen : packet.aeadOpen evp sessionKey = some command) :
    ∃ call ∈ calls, call.command = command ∧ call.identity = packet.identity ∧
      call.timestampMs = packet.timestampMs ∧
      call.datagram evp sessionKey = serializePacket packet := by
  obtain ⟨call, hcall, tag, hseal, -, haad, htag, hcommand⟩ := h _ _ _ _ _ hopen
  obtain ⟨hid, hts, hnonce⟩ := buildAad_inj haad
  have hpacket : call.packet packet.ciphertext tag = packet := by
    rw [CreateCall.packet, show call.sessionId = packet.sessionId from hid,
      show call.timestampMs = packet.timestampMs from hts,
      show call.nonce = packet.nonce from hnonce, Vector.toList_inj.mp htag]
  exact ⟨call, hcall, hcommand, Prod.ext hid hnonce, hts,
    by rw [CreateCall.datagram_of_seal hseal, hpacket]⟩

open Phase3 in
theorem exists_origin (h : OpensOnlySealed evp sessionKey calls) (window : UInt64)
    (inputs : List (Bytes × UInt64)) (i : ℕ) :
    ∃ call : CreateCall, ∀ packet command,
      (decisions evp sessionKey window inputs)[i]? = some (.accepted packet command) →
      call ∈ calls ∧ command = call.command ∧ call.identity = packet.identity ∧
      ∃ t, inputs[i]? = some (call.datagram evp sessionKey, t) ∧
        |(t.toNat : ℤ) - call.timestampMs.toNat| ≤ window.toNat := by
  by_cases hi : ∃ packet command,
      (decisions evp sessionKey window inputs)[i]? = some (.accepted packet command)
  · obtain ⟨packet, command, hd⟩ := hi
    obtain ⟨d, t, hinput, rfl, hlen⟩ := input_of_accepted hd
    obtain ⟨-, -, hfresh, hopen, -⟩ := (accepted_iff hinput).mp hd
    obtain ⟨call, hmem, hcommand, hid, hts, hdata⟩ := packet_of_opens h hopen
    rw [serialize_slicePacket hlen] at hdata
    refine ⟨call, fun packet' command' hd' ↦ ?_⟩
    obtain ⟨rfl, rfl⟩ : slicePacket d = packet' ∧ command = command' := by
      simpa using hd.symm.trans hd'
    exact ⟨hmem, hcommand.symm, hid, t, hdata ▸ hinput, hts ▸ hfresh⟩
  · exact ⟨default, fun packet command hd ↦ absurd ⟨packet, command, hd⟩ hi⟩

open Phase3 in
/-- Every accepted datagram is byte for byte the output of a call, executed as that call's command
within the window of its timestamp, and no two acceptances have one call. -/
theorem injective_agreement (h : OpensOnlySealed evp sessionKey calls) (window : UInt64)
    (inputs : List (Bytes × UInt64)) :
    ∃ origin : ℕ → CreateCall,
      Set.InjOn origin {i | ∃ packet command,
        (decisions evp sessionKey window inputs)[i]? = some (.accepted packet command)} ∧
      ∀ (i : ℕ) (packet : SecurePacket) (command : Bytes),
        (decisions evp sessionKey window inputs)[i]? = some (.accepted packet command) →
        origin i ∈ calls ∧ command = (origin i).command ∧
        ∃ t, inputs[i]? = some ((origin i).datagram evp sessionKey, t) ∧
          |(t.toNat : ℤ) - (origin i).timestampMs.toNat| ≤ window.toNat := by
  choose origin horigin using exists_origin h window inputs
  refine ⟨origin, ?_, ?_⟩
  · intro i hi j hj hij
    obtain ⟨packet, command, hd⟩ := hi
    obtain ⟨packet', command', hd'⟩ := hj
    obtain ⟨-, -, hid, -⟩ := horigin i packet command hd
    obtain ⟨-, -, hid', -⟩ := horigin j packet' command' hd'
    exact accepted_position_unique hd hd' (by rw [← hid, ← hid', hij])
  · intro i packet command hd
    obtain ⟨hmem, hcommand, -, ht⟩ := horigin i packet command hd
    exact ⟨hmem, hcommand, ht⟩

theorem opensOnlySealed_singleton (call : CreateCall) (sessionKey ciphertext : Bytes)
    (tag : Vector UInt8 tagSize) :
    OpensOnlySealed (Evp.ofTable [call.sealed sessionKey ciphertext tag]) sessionKey {call} := by
  intro nonce ct aad t plaintext hopen
  simp only [Evp.ofTable, Evp.aeadOpen_ofAead, Option.map_eq_some_iff, List.find?_singleton,
    Option.ite_none_right_eq_some, decide_eq_true_eq] at hopen
  obtain ⟨m, ⟨⟨-, hnonce, rfl, haad, htag⟩, hm⟩, rfl⟩ := hopen
  obtain rfl := Option.some_inj.mp hm
  exact ⟨call, rfl, tag, by simp [Evp.ofTable, CreateCall.sealed], hnonce, haad, htag, rfl⟩

theorem injective_agreement_capture_image :
    let call := validPacketCall 60000
    let key : Bytes := List.replicate 32 7
    let ciphertext : Bytes := List.replicate 17 1
    let tag := Vector.replicate tagSize 9
    let evp := Evp.ofTable [call.sealed key ciphertext tag]
    let inputs := [(call.datagram evp key, 60000), (call.datagram evp key, 60300)]
    Phase3.decisions evp key 30000 inputs =
        [.accepted (call.packet ciphertext tag) call.command, .duplicate] ∧
      ∃ origin : ℕ → CreateCall, origin 0 ∈ ({call} : Set CreateCall) ∧
        call.command = (origin 0).command := by
  intro call key ciphertext tag evp inputs
  have hd : Phase3.decisions evp key 30000 inputs =
      [.accepted (call.packet ciphertext tag) call.command, .duplicate] := by decide
  obtain ⟨origin, -, h⟩ :=
    injective_agreement (opensOnlySealed_singleton call key ciphertext tag) 30000 inputs
  obtain ⟨hmem, hcommand, -⟩ := h 0 (call.packet ciphertext tag) call.command (congrArg (·[0]?) hd)
  exact ⟨hd, origin, hmem, hcommand⟩

end SpaceSec
