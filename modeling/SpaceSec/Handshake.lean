import SpaceSec.Crypto

namespace SpaceSec

/-- What the OpenSSL calls of one X25519 derivation answer, in the order in which they are made:
the two `EVP_PKEY_derive` calls answer the length and the bytes of the secret, or fail. -/
structure DeriveAnswers where
  ctxNew : Bool := true
  init : Bool := true
  setPeer : Bool := true
  secretLen : Option ℕ
  secret : Option Bytes

structure HkdfAnswers where
  ctxNew : Bool := true
  init : Bool := true
  setMd : Bool := true
  setSalt : Bool := true
  setKey : Bool := true
  addInfo : Bool := true
  okm : Option Bytes

/-- All calls succeed, and the secret has bytes. -/
def DeriveAnswers.succeed (answers : DeriveAnswers) : Bool :=
  answers.ctxNew && answers.init && answers.setPeer && answers.secretLen.isSome &&
    answers.secret.any (!·.isEmpty)

/-- All calls succeed, and the key has 32 bytes. -/
def HkdfAnswers.succeed (answers : HkdfAnswers) : Bool :=
  answers.ctxNew && answers.init && answers.setMd && answers.setSalt && answers.setKey &&
    answers.addInfo && answers.okm.any (·.length = 32)

/-- OpenSSL's X25519 and HKDF-SHA256 over its type of keys; a null key is `none`. -/
structure Pkey (Key : Type) where
  getRawPublicKey : Key → Option Bytes
  newRawPublicKey : Bytes → Option Key
  derive : Key → Option Key → DeriveAnswers
  hkdf : (salt key info : Bytes) → HkdfAnswers

variable {Key : Type} (pkey : Pkey Key)

def getRawPublicKey (keypair : Key) : Bytes :=
  match pkey.getRawPublicKey keypair with
  | none => []
  | some raw => resize (overwrite (List.replicate 32 0) raw) raw.length

def loadX25519PublicKey (rawPublicKey : Bytes) : Option Key :=
  if rawPublicKey.length ≠ 32 then none else pkey.newRawPublicKey rawPublicKey

/-- The calls are made in turn, and the first that fails makes the function return `{}`. -/
def deriveX25519SharedSecret (myPrivateKey : Key) (peerPublicKey : Option Key) : Bytes :=
  let answers := pkey.derive myPrivateKey peerPublicKey
  let result : Option Bytes := do
    guard answers.ctxNew
    guard answers.init
    guard answers.setPeer
    let secretLen ← answers.secretLen
    let secret ← answers.secret
    return resize (overwrite (List.replicate secretLen 0) secret) secret.length
  result.getD []

def ascii (s : String) : Bytes := s.toList.map fun c ↦ UInt8.ofNat c.toNat

def hkdfSalt : Bytes := ascii "spacesec-salt"

def hkdfInfo : Bytes := ascii "spacesec-phase3-session-key"

def hkdfSha256SessionKey (sharedSecret : Bytes) : Bytes :=
  let answers := pkey.hkdf hkdfSalt sharedSecret hkdfInfo
  let result : Option Bytes := do
    guard answers.ctxNew
    guard answers.init
    guard answers.setMd
    guard answers.setSalt
    guard answers.setKey
    guard answers.addInfo
    let okm ← answers.okm
    return resize (overwrite (List.replicate 32 0) okm) okm.length
  result.getD []

theorem deriveX25519SharedSecret_ne_nil {myPrivateKey : Key} {peerPublicKey : Option Key} :
    deriveX25519SharedSecret pkey myPrivateKey peerPublicKey ≠ [] ↔
      (pkey.derive myPrivateKey peerPublicKey).succeed = true := by
  rw [deriveX25519SharedSecret]
  generalize pkey.derive myPrivateKey peerPublicKey = answers
  obtain ⟨ctxNew, init, setPeer, secretLen, secret⟩ := answers
  cases ctxNew <;> cases init <;> cases setPeer <;> cases secretLen <;> cases secret <;>
    simp [DeriveAnswers.succeed]

theorem length_hkdfSha256SessionKey {sharedSecret : Bytes} :
    (hkdfSha256SessionKey pkey sharedSecret).length = 32 ↔
      (pkey.hkdf hkdfSalt sharedSecret hkdfInfo).succeed = true := by
  rw [hkdfSha256SessionKey]
  generalize pkey.hkdf hkdfSalt sharedSecret hkdfInfo = answers
  obtain ⟨ctxNew, init, setMd, setSalt, setKey, addInfo, okm⟩ := answers
  cases ctxNew <;> cases init <;> cases setMd <;> cases setSalt <;> cases setKey <;>
    cases addInfo <;> cases okm <;> simp [HkdfAnswers.succeed]

def sharedSecretWith (keypair : Key) (rawPublicKey : Bytes) : Bytes :=
  deriveX25519SharedSecret pkey keypair (loadX25519PublicKey pkey rawPublicKey)

def sessionKeyWith (keypair : Key) (rawPublicKey : Bytes) : Bytes :=
  hkdfSha256SessionKey pkey (sharedSecretWith pkey keypair rawPublicKey)

/-- Two honest key pairs: each has a raw public key, and both sides derive the same secret. -/
structure Honest (ground satellite : Key) : Prop where
  groundPublic : (getRawPublicKey pkey ground).length = 32
  satellitePublic : (getRawPublicKey pkey satellite).length = 32
  agree : sharedSecretWith pkey ground (getRawPublicKey pkey satellite) =
    sharedSecretWith pkey satellite (getRawPublicKey pkey ground)

variable {pkey} in
theorem Honest.sessionKey {ground satellite : Key} (h : Honest pkey ground satellite) :
    sessionKeyWith pkey ground (getRawPublicKey pkey satellite) =
      sessionKeyWith pkey satellite (getRawPublicKey pkey ground) :=
  congrArg (hkdfSha256SessionKey pkey) h.agree

instance (ground satellite : Key) : Decidable (Honest pkey ground satellite) :=
  decidable_of_iff _ ⟨fun h ↦ ⟨h.1, h.2.1, h.2.2⟩,
    fun h ↦ And.intro h.groundPublic (And.intro h.satellitePublic h.agree)⟩

/-- A key exchange over numbers: the secret is the product, the zero key derives none, and from an
empty secret comes no session key. -/
def Pkey.product : Pkey ℕ where
  getRawPublicKey n := some (BigEndian.bytes 32 n)
  newRawPublicKey raw := some (BigEndian.value raw)
  derive mine peer :=
    match peer with
    | none => { setPeer := false, secretLen := none, secret := none }
    | some 0 => { secretLen := some 32, secret := none }
    | some (n + 1) => { secretLen := some 32, secret := some (BigEndian.bytes 32 (mine * (n + 1))) }
  hkdf _ key _ := { setKey := !key.isEmpty, okm := some (resize key 32) }

theorem getRawPublicKey_product (n : ℕ) :
    getRawPublicKey .product n = BigEndian.bytes 32 n :=
  resize_overwrite _ _

theorem sharedSecretWith_product {a b : ℕ} (hpos : 0 < b) (hlt : b < 256 ^ 32) :
    sharedSecretWith .product a (BigEndian.bytes 32 b) = BigEndian.bytes 32 (a * b) := by
  obtain ⟨n, rfl⟩ := Nat.exists_eq_succ_of_ne_zero hpos.ne'
  simp [sharedSecretWith, loadX25519PublicKey, deriveX25519SharedSecret, Pkey.product,
    BigEndian.value_bytes_of_lt hlt]

theorem length_sessionKeyWith_product {a b : ℕ} (hpos : 0 < b) (hlt : b < 256 ^ 32) :
    (sessionKeyWith .product a (getRawPublicKey .product b)).length = 32 := by
  rw [getRawPublicKey_product, sessionKeyWith, sharedSecretWith_product hpos hlt]
  simp [hkdfSha256SessionKey, Pkey.product, BigEndian.bytes]

theorem honest_product {a b : ℕ} (ha : 0 < a ∧ a < 256 ^ 32) (hb : 0 < b ∧ b < 256 ^ 32) :
    Honest .product a b where
  groundPublic := by rw [getRawPublicKey_product, BigEndian.length_bytes]
  satellitePublic := by rw [getRawPublicKey_product, BigEndian.length_bytes]
  agree := by
    rw [getRawPublicKey_product, getRawPublicKey_product, sharedSecretWith_product hb.1 hb.2,
      sharedSecretWith_product ha.1 ha.2, Nat.mul_comm]

end SpaceSec
