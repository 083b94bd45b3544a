import SpaceSec.Packet

namespace SpaceSec

def resize (v : Bytes) (n : ℕ) : Bytes := v.take n ++ List.replicate (n - v.length) 0

/-- A library call writes `bs` at the front of the buffer `v`. -/
def overwrite (v bs : Bytes) : Bytes := bs ++ v.drop bs.length

@[simp] theorem resize_overwrite (v bs : Bytes) : resize (overwrite v bs) bs.length = bs := by
  simp [resize, overwrite]

@[simp] theorem length_resize (v : Bytes) (n : ℕ) : (resize v n).length = n := by
  rw [resize, List.length_append, List.length_take, List.length_replicate]
  omega

structure EncryptArgs where
  key : Bytes
  nonce : Bytes
  plaintext : Bytes
  aad : Bytes

structure DecryptArgs where
  key : Bytes
  nonce : Bytes
  ciphertext : Bytes
  aad : Bytes
  tag : Bytes

/-- What the OpenSSL calls of one encryption answer, in the order in which they are made.
An update answers its return code and the bytes it wrote. -/
structure EncryptAnswers where
  ctxNew : Bool := true
  init : Bool := true
  updateAad : Bool := true
  update : Bool × Bytes
  final : Bool := true
  getTag : Option (Vector UInt8 tagSize)

structure DecryptAnswers where
  ctxNew : Bool := true
  init : Bool := true
  updateAad : Bool := true
  update : Bool × Bytes
  setTag : Bool := true
  final : ℤ

/-- OpenSSL's ChaCha20-Poly1305. The final calls of this stream cipher write no byte. -/
structure Evp where
  encrypt : EncryptArgs → EncryptAnswers
  decrypt : DecryptArgs → DecryptAnswers

/-- The returned flag, and the caller's `ciphertext` and `tag` after the call. -/
def encryptChacha20Poly1305 (evp : Evp) (key nonce plaintext aad ciphertext tag : Bytes) :
    Bool × Bytes × Bytes :=
  let answers := evp.encrypt ⟨key, nonce, plaintext, aad⟩
  if !answers.ctxNew then (false, ciphertext, tag) else
  let ciphertext := resize ciphertext plaintext.length
  let tag := resize tag 16
  if !answers.init then (false, ciphertext, tag) else
  if !aad.isEmpty && !answers.updateAad then (false, ciphertext, tag) else
  let ciphertext := overwrite ciphertext answers.update.2
  if !answers.update.1 then (false, ciphertext, tag) else
  let ciphertextLen := answers.update.2.length
  if !answers.final then (false, ciphertext, tag) else
  match answers.getTag with
  | none => (false, ciphertext, tag)
  | some written => (true, resize ciphertext ciphertextLen, overwrite tag written.toList)

def decryptChacha20Poly1305 (evp : Evp) (key nonce ciphertext aad tag plaintextOut : Bytes) :
    Bool × Bytes :=
  let answers := evp.decrypt ⟨key, nonce, ciphertext, aad, tag⟩
  if !answers.ctxNew then (false, plaintextOut) else
  let plaintextOut := resize plaintextOut ciphertext.length
  if !answers.init then (false, plaintextOut) else
  if !aad.isEmpty && !answers.updateAad then (false, plaintextOut) else
  let plaintextOut := overwrite plaintextOut answers.update.2
  if !answers.update.1 then (false, plaintextOut) else
  let plaintextLen := answers.update.2.length
  if !answers.setTag then (false, plaintextOut) else
  if answers.final ≤ 0 then (false, []) else
  (true, resize plaintextOut plaintextLen)

namespace Evp

variable (evp : Evp)

def aeadSeal (key nonce plaintext aad : Bytes) : Option (Bytes × Vector UInt8 tagSize) :=
  let answers := evp.encrypt ⟨key, nonce, plaintext, aad⟩
  if answers.ctxNew && answers.init && (aad.isEmpty || answers.updateAad) && answers.update.1 &&
      answers.final then
    answers.getTag.map (answers.update.2, ·)
  else none

/-- Opening as a partial function: every call of a decryption succeeded, the tag check included. -/
def aeadOpen (key nonce ciphertext aad tag : Bytes) : Option Bytes :=
  let answers := evp.decrypt ⟨key, nonce, ciphertext, aad, tag⟩
  if answers.ctxNew && answers.init && (aad.isEmpty || answers.updateAad) && answers.update.1 &&
      answers.setTag && 0 < answers.final then
    some answers.update.2
  else none

theorem encrypt_of_seal {key nonce plaintext aad ct : Bytes} {tag : Vector UInt8 tagSize}
    (h : evp.aeadSeal key nonce plaintext aad = some (ct, tag)) (oldCt : Bytes) :
    encryptChacha20Poly1305 evp key nonce plaintext aad oldCt [] = (true, ct, tag.toList) := by
  rw [aeadSeal, Option.ite_none_right_eq_some, Option.map_eq_some_iff] at h
  simp only [Bool.and_eq_true, Bool.or_eq_true] at h
  obtain ⟨⟨⟨⟨⟨hnew, hinit⟩, haad⟩, hupdate⟩, hfinal⟩, written, htag, heq⟩ := h
  obtain ⟨rfl, rfl⟩ := Prod.mk.inj heq
  have hwritten : overwrite (resize [] 16) written.toList = written.toList := by
    simp [overwrite, resize]
  rcases haad with haad | haad <;>
    simp [encryptChacha20Poly1305, hnew, hinit, haad, hupdate, hfinal, htag, hwritten]

theorem encrypt_of_not_seal {key nonce plaintext aad : Bytes}
    (h : evp.aeadSeal key nonce plaintext aad = none) (oldCt oldTag : Bytes) :
    (encryptChacha20Poly1305 evp key nonce plaintext aad oldCt oldTag).1 = false := by
  simp only [encryptChacha20Poly1305]
  split_ifs with hnew hinit haad hupdate hfinal
  · rfl
  · rfl
  · rfl
  · rfl
  · rfl
  · rw [aeadSeal, if_pos (by simp_all [Decidable.imp_iff_not_or]), Option.map_eq_none_iff] at h
    rw [h]

theorem decrypt_of_open {key nonce ciphertext aad tag plaintext : Bytes}
    (h : evp.aeadOpen key nonce ciphertext aad tag = some plaintext) (old : Bytes) :
    decryptChacha20Poly1305 evp key nonce ciphertext aad tag old = (true, plaintext) := by
  rw [aeadOpen, Option.ite_none_right_eq_some, Option.some_inj] at h
  simp only [Bool.and_eq_true, Bool.or_eq_true, decide_eq_true_eq] at h
  obtain ⟨⟨⟨⟨⟨⟨hnew, hinit⟩, haad⟩, hupdate⟩, htag⟩, hfinal⟩, rfl⟩ := h
  rcases haad with haad | haad <;>
    simp [decryptChacha20Poly1305, hnew, hinit, haad, hupdate, htag, not_le.mpr hfinal]

theorem decrypt_of_not_open {key nonce ciphertext aad tag : Bytes}
    (h : evp.aeadOpen key nonce ciphertext aad tag = none) (old : Bytes) :
    (decryptChacha20Poly1305 evp key nonce ciphertext aad tag old).1 = false := by
  simp only [decryptChacha20Poly1305]
  split_ifs with hnew hinit haad hupdate htag hfinal
  · rfl
  · rfl
  · rfl
  · rfl
  · rfl
  · rfl
  · rw [aeadOpen, if_pos (by simp_all [Decidable.imp_iff_not_or])] at h
    cases h

/-- Any pair of partial functions is the sealing and opening of some OpenSSL. -/
def ofAead (encrypt : Bytes → Bytes → Bytes → Bytes → Option (Bytes × Vector UInt8 tagSize))
    (decrypt : Bytes → Bytes → Bytes → Bytes → Bytes → Option Bytes) : Evp where
  encrypt args :=
    let answer := encrypt args.key args.nonce args.plaintext args.aad
    { update := (true, (answer.map Prod.fst).getD []), getTag := answer.map Prod.snd }
  decrypt args :=
    let answer := decrypt args.key args.nonce args.ciphertext args.aad args.tag
    { update := (true, answer.getD []), final := if answer.isSome then 1 else 0 }

variable (encrypt : Bytes → Bytes → Bytes → Bytes → Option (Bytes × Vector UInt8 tagSize))
  (decrypt : Bytes → Bytes → Bytes → Bytes → Bytes → Option Bytes)

@[simp] theorem aeadSeal_ofAead : (ofAead encrypt decrypt).aeadSeal = encrypt := by
  funext key nonce plaintext aad
  cases h : encrypt key nonce plaintext aad <;> simp [aeadSeal, ofAead, h]

@[simp] theorem aeadOpen_ofAead : (ofAead encrypt decrypt).aeadOpen = decrypt := by
  funext key nonce ciphertext aad tag
  cases h : decrypt key nonce ciphertext aad tag <;> simp [aeadOpen, ofAead, h]

structure Sealed where
  key : Bytes
  nonce : Bytes
  plaintext : Bytes
  aad : Bytes
  ciphertext : Bytes
  tag : Vector UInt8 tagSize
  deriving DecidableEq

def ofTable (table : List Sealed) : Evp :=
  ofAead
    (fun key nonce plaintext aad ↦
      (table.find? fun m ↦
        m.key = key ∧ m.nonce = nonce ∧ m.plaintext = plaintext ∧ m.aad = aad).map
          fun m ↦ (m.ciphertext, m.tag))
    (fun key nonce ciphertext aad tag ↦
      (table.find? fun m ↦ m.key = key ∧ m.nonce = nonce ∧ m.ciphertext = ciphertext ∧ m.aad = aad ∧
        m.tag.toList = tag).map Sealed.plaintext)

end Evp

end SpaceSec
