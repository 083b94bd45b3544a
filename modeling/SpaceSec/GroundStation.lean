import SpaceSec.AntiReplay
import SpaceSec.Handshake
import SpaceSec.PacketCodec

namespace SpaceSec

def copyInto {m : ℕ} (src : Bytes) (dest : Vector UInt8 m) : Vector UInt8 m :=
  Vector.ofFn fun i ↦ src.getD i dest[i]

@[simp] theorem copyInto_toList {m : ℕ} (v dest : Vector UInt8 m) : copyInto v.toList dest = v := by
  ext i hi
  simp [copyInto, List.getD_eq_getElem?_getD]

def createSecureCommandPacket (evp : Evp) (sessionKey : Bytes) (sessionId : UInt32)
    (timestampMs : UInt64) (nonce : Nonce) (command : Bytes) : Bytes :=
  let packet : SecurePacket := { (default : SecurePacket) with sessionId, timestampMs, nonce }
  let plaintext := command
  let aad := buildAad packet
  match encryptChacha20Poly1305 evp sessionKey packet.nonce.toList plaintext aad
      packet.ciphertext [] with
  | (false, _, _) => []
  | (true, ciphertext, tagVec) =>
    serializePacket { packet with ciphertext, tag := copyInto tagVec packet.tag }

structure CreateCall where
  sessionId : UInt32
  timestampMs : UInt64
  nonce : Nonce
  command : Bytes
  deriving DecidableEq, Inhabited

namespace CreateCall

variable (call : CreateCall)

def datagram (evp : Evp) (sessionKey : Bytes) : Bytes :=
  createSecureCommandPacket evp sessionKey call.sessionId call.timestampMs call.nonce call.command

def packet (ciphertext : Bytes) (tag : Vector UInt8 tagSize) : SecurePacket where
  sessionId := call.sessionId
  timestampMs := call.timestampMs
  nonce := call.nonce
  ciphertext := ciphertext
  tag := tag

def aad : Bytes := buildAad (call.packet [] default)

def identity : UInt32 × Nonce := (call.sessionId, call.nonce)

def sealed (key ciphertext : Bytes) (tag : Vector UInt8 tagSize) : Evp.Sealed :=
  ⟨key, call.nonce.toList, call.command, call.aad, ciphertext, tag⟩

variable {call} {evp : Evp} {sessionKey ciphertext : Bytes} {tag : Vector UInt8 tagSize}

theorem datagram_of_seal
    (h : evp.aeadSeal sessionKey call.nonce.toList call.command call.aad = some (ciphertext, tag)) :
    call.datagram evp sessionKey = serializePacket (call.packet ciphertext tag) := by
  have he : encryptChacha20Poly1305 evp sessionKey call.nonce.toList call.command
      (buildAad (call.packet [] default)) [] [] = (true, ciphertext, tag.toList) :=
    evp.encrypt_of_seal h []
  change (match encryptChacha20Poly1305 evp sessionKey call.nonce.toList call.command
      (buildAad (call.packet [] default)) [] [] with
    | (false, _, _) => []
    | (true, ciphertext, tagVec) =>
      serializePacket (call.packet ciphertext (copyInto tagVec default))) = _
  rw [he]
  simp only [copyInto_toList]

theorem datagram_of_not_seal
    (h : evp.aeadSeal sessionKey call.nonce.toList call.command call.aad = none) :
    call.datagram evp sessionKey = [] := by
  have he : (encryptChacha20Poly1305 evp sessionKey call.nonce.toList call.command
      (buildAad (call.packet [] default)) [] []).1 = false :=
    evp.encrypt_of_not_seal h [] []
  change (match encryptChacha20Poly1305 evp sessionKey call.nonce.toList call.command
      (buildAad (call.packet [] default)) [] [] with
    | (false, _, _) => []
    | (true, ciphertext, tagVec) =>
      serializePacket (call.packet ciphertext (copyInto tagVec default))) = _
  generalize encryptChacha20Poly1305 evp sessionKey _ _ _ _ _ = answer at he ⊢
  obtain ⟨ok, ct, t⟩ := answer
  obtain rfl : ok = false := he
  rfl

end CreateCall

/-- The first packet that the ground station's `main` creates. -/
def validPacketCall (timestampMs : UInt64) : CreateCall where
  sessionId := 2026
  timestampMs := timestampMs
  nonce := #v[0, 0, 0, 0, 0, 0, 0, 0, 0, 0, 0, 0x20]
  command := ascii "CMD:CAPTURE_IMAGE"

/-- The ground station's handshake: its session key, or `none` when it exits with an error. -/
def groundHandshake {Key : Type} (pkey : Pkey Key) (groundKeypair : Key) (datagram : Bytes) :
    Option Bytes :=
  let received := datagram.take 2048
  if received.length ≠ 32 then none else
  let sessionKey := sessionKeyWith pkey groundKeypair received
  if sessionKey.length ≠ 32 then none else some sessionKey

theorem groundHandshake_eq_some {Key : Type} {pkey : Pkey Key} {ground : Key}
    {datagram key : Bytes} :
    groundHandshake pkey ground datagram = some key ↔ (datagram.take 2048).length = 32 ∧
      key = sessionKeyWith pkey ground (datagram.take 2048) ∧ key.length = 32 := by
  simp only [groundHandshake, ne_eq, ite_not]
  split_ifs with hlen hkey
  · simp only [Option.some_inj, hlen, true_and]
    refine ⟨?_, ?_⟩
    · intro heq
      exact ⟨heq.symm, heq ▸ hkey⟩
    · exact fun h ↦ h.1.symm
  · apply iff_of_false nofun
    intro h
    obtain ⟨-, rfl, h⟩ := h
    exact hkey h
  · exact iff_of_false nofun fun h ↦ hlen h.1

theorem groundHandshake_of_honest {Key : Type} {pkey : Pkey Key} {ground other : Key}
    (h : Honest pkey ground other)
    (hlen : (sessionKeyWith pkey other (getRawPublicKey pkey ground)).length = 32) :
    groundHandshake pkey ground (getRawPublicKey pkey other) =
      some (sessionKeyWith pkey other (getRawPublicKey pkey ground)) := by
  have htake : (getRawPublicKey pkey other).take 2048 = getRawPublicKey pkey other :=
    List.take_of_length_le (by rw [h.satellitePublic]; decide)
  rw [groundHandshake_eq_some, htake]
  exact ⟨h.satellitePublic, h.sessionKey.symm, hlen⟩

end SpaceSec
