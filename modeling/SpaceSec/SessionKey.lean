import SpaceSec.Sessions

namespace SpaceSec

variable {Key : Type} (pkey : Pkey Key) (satelliteKeypair : Key)

/-- The key is the HKDF output of a secret shared with one of the received public keys. -/
def ValidSessionKey (received : List Bytes) (sessionKey : Bytes) : Prop :=
  sessionKey.length = 32 ∧
    ∃ groundPublic ∈ received, groundPublic.length = 32 ∧
      sharedSecretWith pkey satelliteKeypair groundPublic ≠ [] ∧
      sessionKey = hkdfSha256SessionKey pkey (sharedSecretWith pkey satelliteKeypair groundPublic)

/-- What the calls of the X25519 derivation answer on a received public key. -/
def deriveAnswers (rawPublicKey : Bytes) : DeriveAnswers :=
  pkey.derive satelliteKeypair (loadX25519PublicKey pkey rawPublicKey)

/-- What the calls of HKDF answer on the secret shared with it. -/
def hkdfAnswers (rawPublicKey : Bytes) : HkdfAnswers :=
  pkey.hkdf hkdfSalt (sharedSecretWith pkey satelliteKeypair rawPublicKey) hkdfInfo

/-- What a handshake datagram must satisfy at start-up: a key of the right length comes from a
secret. -/
def StartUpDerives (a : Arrival) : Prop :=
  a.received.length = 32 → (hkdfAnswers pkey satelliteKeypair a.received).succeed = true →
    (deriveAnswers pkey satelliteKeypair a.received).succeed = true

def LoopDerives (a : Arrival) : Prop :=
  a.received.length = 32 → (hkdfAnswers pkey satelliteKeypair a.received).succeed = true ∧
    (deriveAnswers pkey satelliteKeypair a.received).succeed = true

instance (received : List Bytes) (sessionKey : Bytes) :
    Decidable (ValidSessionKey pkey satelliteKeypair received sessionKey) :=
  inferInstanceAs (Decidable (_ ∧ _))

instance (a : Arrival) : Decidable (StartUpDerives pkey satelliteKeypair a) :=
  inferInstanceAs (Decidable (_ → _))

instance (a : Arrival) : Decidable (LoopDerives pkey satelliteKeypair a) :=
  inferInstanceAs (Decidable (_ → _))

namespace Node

variable {pkey satelliteKeypair} {evp : Evp}

theorem sharedSecretWith_ne_nil {rawPublicKey : Bytes} :
    sharedSecretWith pkey satelliteKeypair rawPublicKey ≠ [] ↔
      (deriveAnswers pkey satelliteKeypair rawPublicKey).succeed = true :=
  deriveX25519SharedSecret_ne_nil pkey

theorem length_sessionKeyWith {rawPublicKey : Bytes} :
    (sessionKeyWith pkey satelliteKeypair rawPublicKey).length = 32 ↔
      (hkdfAnswers pkey satelliteKeypair rawPublicKey).succeed = true :=
  length_hkdfSha256SessionKey pkey

theorem running_of_later {first : Arrival} {before later : List Arrival} {s : Session}
    (h : after pkey evp satelliteKeypair .listening (first :: before ++ later) = .running s) :
    ∃ s', after pkey evp satelliteKeypair .listening (first :: before) = .running s' := by
  rcases start_cases pkey satelliteKeypair first with hs | ⟨s₀, hs⟩
  · rw [List.cons_append, after_listening, hs, after_exited] at h
    cases h
  · exact ⟨_, by rw [after_listening, hs, after_running]⟩

/-- The session key is valid in every state of the loop, in a run whose handshakes, while it goes
on, all derive. -/
theorem session_key_valid {arrivals : List Arrival}
    (hstart : ∀ a ∈ arrivals.head?, StartUpDerives pkey satelliteKeypair a)
    (hloop : ∀ (i : ℕ) (a : Arrival) (s : Session), arrivals[i]? = some a →
      after pkey evp satelliteKeypair .listening (arrivals.take i) = .running s →
      LoopDerives pkey satelliteKeypair a) (n : ℕ) {s : Session}
    (h : after pkey evp satelliteKeypair .listening (arrivals.take n) = .running s) :
    ValidSessionKey pkey satelliteKeypair ((arrivals.take n).map Arrival.received)
      s.sessionKey := by
  obtain ⟨before, a, later, heq, hlen, hlater, hafter, rfl⟩ := current_session h
  rw [sessionKey_sessionAfter hlater]
  have hmem : a.received ∈ (arrivals.take n).map Arrival.received := by
    rw [heq]
    simp
  suffices hkey : (hkdfAnswers pkey satelliteKeypair a.received).succeed = true ∧
      (deriveAnswers pkey satelliteKeypair a.received).succeed = true from
    ⟨length_sessionKeyWith.mpr hkey.1, a.received, hmem, hlen,
      sharedSecretWith_ne_nil.mpr hkey.2, rfl⟩
  obtain ⟨rest, hall⟩ : ∃ rest, arrivals = before ++ a :: rest :=
    ⟨later ++ arrivals.drop n,
      by rw [← List.cons_append, ← List.append_assoc, ← heq, List.take_append_drop]⟩
  rw [hall] at hstart hloop
  cases before with
  | nil =>
    obtain ⟨-, -, hkeylen⟩ := start_running hafter
    have hhkdf := length_sessionKeyWith.mp hkeylen
    exact ⟨hhkdf, hstart a rfl hlen hhkdf⟩
  | cons first before =>
    obtain ⟨s, hs⟩ := running_of_later hafter
    exact hloop (before.length + 1) a s (by simp) (by simpa using hs) hlen

/-- A handshake that does not derive leaves the loop with a key that comes from no secret. -/
theorem failed_rehandshake {s : Session} {a : Arrival} (hlen : a.received.length = 32)
    (hderive : sharedSecretWith pkey satelliteKeypair a.received = []) :
    (loop pkey evp satelliteKeypair s a).1 = ⟨hkdfSha256SessionKey pkey [], .new 30000⟩ := by
  rw [loop_handshake hlen, sessionKeyWith, hderive]

theorem zero_rehandshake_key :
    let arrivals : List Arrival := [⟨BigEndian.bytes 32 5, 0, 0⟩, ⟨BigEndian.bytes 32 0, 0, 0⟩]
    ∃ s, after .product (.ofTable []) 3 .listening arrivals = .running s ∧
      ¬ ValidSessionKey .product 3 (arrivals.map Arrival.received) s.sessionKey :=
  ⟨⟨[], .new 30000⟩, by decide +kernel, by decide +kernel⟩

theorem session_key_valid_two_handshakes :
    let arrivals : List Arrival := [⟨BigEndian.bytes 32 5, 0, 0⟩, ⟨BigEndian.bytes 32 7, 0, 0⟩]
    ValidSessionKey .product 3 (arrivals.map Arrival.received) (BigEndian.bytes 32 21)  := by
  intro arrivals
  have hstart : ∀ a ∈ arrivals.head?, StartUpDerives .product 3 a := by decide +kernel
  have hall : ∀ a ∈ arrivals, LoopDerives .product 3 a := by decide +kernel
  have hafter : after .product (.ofTable []) 3 .listening (arrivals.take 2) =
      .running ⟨BigEndian.bytes 32 21, .new 30000⟩ := by decide +kernel
  exact session_key_valid hstart (fun i a _ ha _ ↦ hall a (List.mem_of_getElem? ha)) 2 hafter

end Node

end SpaceSec
