import SpaceSec.Sessions

namespace SpaceSec

/-- What is left of a packet when its datagram loses bytes at the end: the tag is cut out of the
old ciphertext and tag. -/
def SecurePacket.truncate (packet : SecurePacket) (n : ℕ) : SecurePacket :=
  { packet with
    ciphertext := packet.ciphertext.take n
    tag := Vector.ofFn fun i ↦ (packet.ciphertext ++ packet.tag.toList).getD (n + i) 0 }

theorem take_serializePacket {packet : SecurePacket} {n : ℕ} (h : n ≤ packet.ciphertext.length) :
    (serializePacket packet).take (40 + n) = serializePacket (packet.truncate n) := by
  have htag : (packet.truncate n).tag.toList =
      (packet.ciphertext ++ packet.tag.toList).extract n (n + 16) :=
    ofFn_getD (packet.ciphertext ++ packet.tag.toList) n (by simp; omega)
  have hsplit : 40 + n = (buildAad packet).length + (n + 16) := by
    rw [length_buildAad]
    omega
  have htake : (packet.ciphertext ++ packet.tag.toList).take n = packet.ciphertext.take n :=
    List.take_append_of_le_length h
  rw [serializePacket, serializePacket, htag, List.append_assoc, hsplit,
    List.take_length_add_append, List.take_add, htake, List.append_assoc]
  simp only [List.extract, Nat.add_sub_cancel_left]
  rfl

/-- A call's command was sealed, without a change of length, and opens again. -/
structure Sealing (evp : Evp) (sessionKey : Bytes) (call : CreateCall) (ciphertext : Bytes)
    (tag : Vector UInt8 tagSize) : Prop where
  seals : evp.aeadSeal sessionKey call.nonce.toList call.command call.aad = some (ciphertext, tag)
  length : ciphertext.length = call.command.length
  opens : (call.packet ciphertext tag).aeadOpen evp sessionKey = some call.command

def TruncatedFails (evp : Evp) (sessionKey : Bytes) (packet : SecurePacket) : Prop :=
  ∀ n < packet.ciphertext.length, (packet.truncate n).aeadOpen evp sessionKey = none

section Singleton

variable (call : CreateCall) (sessionKey ciphertext : Bytes) (tag : Vector UInt8 tagSize)

theorem sealing_singleton (h : ciphertext.length = call.command.length) :
    Sealing (.ofTable [call.sealed sessionKey ciphertext tag]) sessionKey call ciphertext tag where
  seals := by simp [Evp.ofTable, CreateCall.sealed]
  length := h
  opens := by simp [SecurePacket.aeadOpen, Evp.ofTable, CreateCall.sealed, CreateCall.packet,
    CreateCall.aad, buildAad]

theorem truncatedFails_singleton :
    TruncatedFails (.ofTable [call.sealed sessionKey ciphertext tag]) sessionKey
      (call.packet ciphertext tag) := by
  intro n hn
  have hne : ciphertext ≠ ciphertext.take n := fun heq ↦ by
    have hlen := congrArg List.length heq
    rw [List.length_take] at hlen
    exact absurd hn (by simp only [CreateCall.packet]; omega)
  simp [SecurePacket.aeadOpen, SecurePacket.truncate, Evp.ofTable, CreateCall.sealed,
    CreateCall.packet, hne]

end Singleton

namespace Node

variable {Key : Type} {pkey : Pkey Key} {evp : Evp} {satelliteKeypair : Key}
  {call : CreateCall} {ciphertext : Bytes} {tag : Vector UInt8 tagSize}

theorem received_datagram {sessionKey : Bytes} (h : Sealing evp sessionKey call ciphertext tag)
    (hlen : call.command.length ≤ 2008) (latencyClock freshClock : UInt64) :
    Arrival.received ⟨call.datagram evp sessionKey, latencyClock, freshClock⟩ =
      serializePacket (call.packet ciphertext tag) := by
  rw [Arrival.received, CreateCall.datagram_of_seal h.seals, recvfrom_of_length_le]
  rw [length_serializePacket, CreateCall.packet, h.length]
  omega

theorem received_long_datagram {sessionKey : Bytes} (h : Sealing evp sessionKey call ciphertext tag)
    (hlen : 2008 < call.command.length) (latencyClock freshClock : UInt64) :
    Arrival.received ⟨call.datagram evp sessionKey, latencyClock, freshClock⟩ =
      serializePacket ((call.packet ciphertext tag).truncate 2008) := by
  have hct : 2008 ≤ (call.packet ciphertext tag).ciphertext.length := h.length.symm ▸ hlen.le
  rw [Arrival.received, CreateCall.datagram_of_seal h.seals]
  exact take_serializePacket hct

variable (pkey satelliteKeypair) in
theorem execution_of_call {s : Session} (h : Sealing evp s.sessionKey call ciphertext tag)
    (hlen : call.command.length ≤ 2008)
    (hnew : s.replayGuard.isDuplicate call.sessionId call.nonce = false)
    (latencyClock : UInt64) {freshClock : UInt64}
    (hfresh : |(freshClock.toNat : ℤ) - call.timestampMs.toNat| ≤ s.replayGuard.windowMs.toNat) :
    (Node.running s).execution pkey evp satelliteKeypair
        ⟨call.datagram evp s.sessionKey, latencyClock, freshClock⟩ =
      some ⟨s.sessionKey, call.packet ciphertext tag, call.command⟩ := by
  rw [execution_eq_some, received_datagram h hlen, slicePacket_serializePacket,
    length_serializePacket]
  exact ⟨by omega, rfl, rfl, by omega, hfresh, hnew, h.opens⟩

/-- The buffer cuts the packet of a longer command, and what is left does not open. -/
theorem execution_of_long_call {s : Session} (h : Sealing evp s.sessionKey call ciphertext tag)
    (htruncated : TruncatedFails evp s.sessionKey (call.packet ciphertext tag))
    (hlen : 2008 < call.command.length) (latencyClock freshClock : UInt64) :
    (Node.running s).execution pkey evp satelliteKeypair
      ⟨call.datagram evp s.sessionKey, latencyClock, freshClock⟩ = none := by
  apply Option.eq_none_iff_forall_ne_some.mpr
  intro x hx
  obtain ⟨-, -, hpacket, -, -, -, hopen⟩ := execution_eq_some.mp hx
  rw [received_long_datagram h hlen, slicePacket_serializePacket] at hpacket
  rw [hpacket, htruncated 2008 (h.length.symm ▸ hlen)] at hopen
  cases hopen

/-- A packet from the ground station that reaches the loop unmodified is executed as its command,
exactly when it fits the loop's buffer. -/
theorem delivered_iff {arrivals : List Arrival} {s : Session}
    (hstate : after pkey evp satelliteKeypair .listening arrivals = .running s)
    (hnew : ∀ x ∈ sessionExecutions pkey evp satelliteKeypair arrivals,
      x.packet.identity ≠ call.identity)
    (hseal : Sealing evp s.sessionKey call ciphertext tag)
    (htruncated : TruncatedFails evp s.sessionKey (call.packet ciphertext tag))
    (latencyClock : UInt64) {freshClock : UInt64}
    (hfresh : |(freshClock.toNat : ℤ) - call.timestampMs.toNat| ≤ 30000) :
    let a : Arrival := ⟨call.datagram evp s.sessionKey, latencyClock, freshClock⟩
    (a.received.length ≠ 32 ∧ (loop pkey evp satelliteKeypair s a).2.decision =
        some (.accepted (call.packet ciphertext tag) call.command)) ↔
      call.command.length ≤ 2008 := by
  intro a
  obtain ⟨hwindow, hguard⟩ := guard_of_running hstate
  refine ⟨?_, ?_⟩
  · intro hdelivered
    by_contra hlong
    have hx : (Node.running s).execution pkey evp satelliteKeypair a =
        some ⟨s.sessionKey, call.packet ciphertext tag, call.command⟩ :=
      execution_iff_decision.mpr ⟨rfl, hdelivered.2⟩
    rw [execution_of_long_call hseal htruncated (not_le.mp hlong)] at hx
    cases hx
  · intro hlen
    have hfirst : s.replayGuard.isDuplicate call.sessionId call.nonce = false := by
      apply Bool.eq_false_iff.mpr
      intro hdup
      obtain ⟨x, hx, hk⟩ := (hguard call.identity).mp hdup
      exact hnew x hx hk
    have hx := execution_of_call pkey satelliteKeypair hseal hlen hfirst latencyClock
      (by rw [hwindow]; exact hfresh)
    exact ⟨(execution_eq_some.mp hx).1, (execution_iff_decision.mp hx).2⟩

theorem long_command_rejected :
    let call := { validPacketCall 60000 with command := List.replicate 2009 65 }
    let key : Bytes := BigEndian.bytes 32 15
    let ciphertext : Bytes := List.replicate 2009 1
    let tag := Vector.replicate tagSize 9
    let evp := Evp.ofTable [call.sealed key ciphertext tag]
    let arrivals : List Arrival := [⟨BigEndian.bytes 32 5, 60000, 60000⟩]
    let s : Session := ⟨key, .new 30000⟩
    after .product evp 3 .listening arrivals = .running s ∧
      sessionExecutions .product evp 3 arrivals = [] ∧
      Sealing evp key call ciphertext tag ∧
      TruncatedFails evp key (call.packet ciphertext tag) ∧
      (call.datagram evp key).length ≤ 65507 ∧
      (loop .product evp 3 s ⟨call.datagram evp key, 60100, 60100⟩).2.decision = some .tagFail := by
  intro call key ciphertext tag evp arrivals s
  have hlen : ciphertext.length = call.command.length := by
    simp only [ciphertext, call, List.length_replicate]
  have hseal : Sealing evp key call ciphertext tag := sealing_singleton call key ciphertext tag hlen
  refine ⟨by decide +kernel, by decide +kernel, hseal,
    truncatedFails_singleton call key ciphertext tag, ?_, by decide +kernel⟩
  have hct : (call.packet ciphertext tag).ciphertext.length = 2009 := List.length_replicate
  rw [CreateCall.datagram_of_seal hseal.seals, length_serializePacket, hct]
  decide

theorem delivered_capture_image :
    let call := validPacketCall 60000
    let s : Session := ⟨BigEndian.bytes 32 15, .new 30000⟩
    let ciphertext : Bytes := List.replicate 17 1
    let tag := Vector.replicate tagSize 9
    let evp := Evp.ofTable [call.sealed s.sessionKey ciphertext tag]
    (Arrival.received ⟨call.datagram evp s.sessionKey, 60100, 60100⟩).length ≠ 32 ∧
      (loop .product evp 3 s ⟨call.datagram evp s.sessionKey, 60100, 60100⟩).2.decision =
        some (.accepted (call.packet ciphertext tag) call.command) := by
  intro call s ciphertext tag evp
  have hstate : after .product evp 3 .listening [⟨BigEndian.bytes 32 5, 60000, 60000⟩] =
      .running s := by decide +kernel
  have hnew : ∀ x ∈ sessionExecutions .product evp 3 [⟨BigEndian.bytes 32 5, 60000, 60000⟩],
      x.packet.identity ≠ call.identity := by decide +kernel
  have hfresh : |((60100 : UInt64).toNat : ℤ) - call.timestampMs.toNat| ≤ 30000 := by decide +kernel
  have hlen : ciphertext.length = call.command.length := by decide +kernel
  have hseal : Sealing evp s.sessionKey call ciphertext tag :=
    sealing_singleton call s.sessionKey ciphertext tag hlen
  have htruncated : TruncatedFails evp s.sessionKey (call.packet ciphertext tag) :=
    truncatedFails_singleton call s.sessionKey ciphertext tag
  have h := delivered_iff hstate hnew hseal htruncated 60100 hfresh
  exact h.mpr (by decide +kernel)

end Node

end SpaceSec
