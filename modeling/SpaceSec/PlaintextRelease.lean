import SpaceSec.Handshake

namespace SpaceSec

@[simp] theorem length_overwrite {v bs : Bytes} (h : bs.length ≤ v.length) :
    (overwrite v bs).length = v.length := by
  rw [overwrite, List.length_append, List.length_drop]
  omega

/-- Every call between the creation of the context and the final one succeeded. -/
def DecryptAnswers.ReachesFinal (answers : DecryptAnswers) (aad : Bytes) : Prop :=
  answers.init = true ∧ (aad = [] ∨ answers.updateAad = true) ∧ answers.update.1 = true ∧
    answers.setTag = true

instance (answers : DecryptAnswers) (aad : Bytes) : Decidable (answers.ReachesFinal aad) :=
  inferInstanceAs (Decidable (_ ∧ _))

namespace Evp

variable (evp : Evp)

/-- An update of this stream cipher writes at most as many bytes as it is given. -/
def Fits : Prop := ∀ args, (evp.decrypt args).update.2.length ≤ args.ciphertext.length

variable (key nonce ciphertext aad tag plaintextOut : Bytes)

def ReleasesOnlyVerified : Prop :=
  let result := decryptChacha20Poly1305 evp key nonce ciphertext aad tag plaintextOut
  let answers := evp.decrypt ⟨key, nonce, ciphertext, aad, tag⟩
  (result.1 = false → result.2 = []) ∧
    (result.1 = true → 0 < answers.final ∧ result.2 = answers.update.2)

variable {evp key nonce ciphertext aad tag plaintextOut}

theorem decrypt_without_context
    (hnew : (evp.decrypt ⟨key, nonce, ciphertext, aad, tag⟩).ctxNew = false) :
    decryptChacha20Poly1305 evp key nonce ciphertext aad tag plaintextOut =
      (false, plaintextOut) := by
  simp only [decryptChacha20Poly1305, hnew, Bool.not_false, if_true]

theorem decrypt_of_reachesFinal
    (hnew : (evp.decrypt ⟨key, nonce, ciphertext, aad, tag⟩).ctxNew = true)
    (hfinal : (evp.decrypt ⟨key, nonce, ciphertext, aad, tag⟩).ReachesFinal aad) :
    decryptChacha20Poly1305 evp key nonce ciphertext aad tag plaintextOut =
      if (evp.decrypt ⟨key, nonce, ciphertext, aad, tag⟩).final ≤ 0 then (false, [])
      else (true, (evp.decrypt ⟨key, nonce, ciphertext, aad, tag⟩).update.2) := by
  obtain ⟨hinit, haad, hupdate, htag⟩ := hfinal
  rcases haad with rfl | haad
  · simp [decryptChacha20Poly1305, hnew, hinit, hupdate, htag]
  · simp [decryptChacha20Poly1305, hnew, hinit, haad, hupdate, htag]

variable (plaintextOut) in
/-- An exit between the two leaves a buffer as long as the ciphertext, with whatever it holds. -/
theorem decrypt_of_not_reachesFinal (hfits : evp.Fits)
    (hnew : (evp.decrypt ⟨key, nonce, ciphertext, aad, tag⟩).ctxNew = true)
    (hfinal : ¬ (evp.decrypt ⟨key, nonce, ciphertext, aad, tag⟩).ReachesFinal aad) :
    (decryptChacha20Poly1305 evp key nonce ciphertext aad tag plaintextOut).1 = false ∧
      (decryptChacha20Poly1305 evp key nonce ciphertext aad tag plaintextOut).2.length =
        ciphertext.length := by
  have hlen : (evp.decrypt ⟨key, nonce, ciphertext, aad, tag⟩).update.2.length ≤
      (resize plaintextOut ciphertext.length).length := by
    rw [length_resize]
    exact hfits ⟨key, nonce, ciphertext, aad, tag⟩
  have hwritten := (length_overwrite hlen).trans (length_resize _ _)
  have hresized := length_resize plaintextOut ciphertext.length
  simp only [decryptChacha20Poly1305, hnew, Bool.not_true, Bool.false_eq_true, if_false]
  split_ifs with hinit haad hupdate htag hrejected
  · exact ⟨rfl, hresized⟩
  · exact ⟨rfl, hresized⟩
  · exact ⟨rfl, hwritten⟩
  · exact ⟨rfl, hwritten⟩
  all_goals exact absurd ⟨by simpa using hinit, by simpa [Decidable.imp_iff_not_or] using haad,
    by simpa using hupdate, by simpa using htag⟩ hfinal

/-- A decryption that fails before its final call keeps its promise only with nothing to keep: no
old plaintext where there is no context, and no ciphertext where there is one. -/
theorem decrypt_releases_only_verified (hfits : evp.Fits) :
    evp.ReleasesOnlyVerified key nonce ciphertext aad tag plaintextOut ↔
      if (evp.decrypt ⟨key, nonce, ciphertext, aad, tag⟩).ctxNew = true then
        (evp.decrypt ⟨key, nonce, ciphertext, aad, tag⟩).ReachesFinal aad ∨ ciphertext = []
      else plaintextOut = [] := by
  rw [ReleasesOnlyVerified]
  split_ifs with hnew
  · by_cases hfinal : (evp.decrypt ⟨key, nonce, ciphertext, aad, tag⟩).ReachesFinal aad
    · rw [decrypt_of_reachesFinal hnew hfinal]
      split_ifs with hrejected
      · simp [hfinal]
      · simpa [hfinal] using hrejected
    · obtain ⟨hfailed, hlen⟩ := decrypt_of_not_reachesFinal plaintextOut hfits hnew hfinal
      simp only [hfailed, hfinal, false_or, true_imp_iff, Bool.false_eq_true, false_imp_iff,
        and_true, ← List.length_eq_zero_iff, hlen]
  · rw [decrypt_without_context (Bool.eq_false_iff.mpr hnew)]
    simp

theorem set_tag_failure_releases :
    let evp : Evp := {
      encrypt _ := { update := (true, []), getTag := none }
      decrypt args :=
        { update := (true, args.ciphertext.map (· ^^^ 1)), setTag := false, final := 1 } }
    evp.Fits ∧
      decryptChacha20Poly1305 evp [] [] (ascii "NQDO") [] [] [] = (false, ascii "OPEN") := by
  refine ⟨?_, by decide⟩
  intro args
  simp

theorem decrypt_releases_only_verified_reused_buffer :
    let tag := Vector.replicate tagSize 9
    let sealed : Sealed := ⟨[7], [3], ascii "OPEN", [5], ascii "NQDO", tag⟩
    (ofTable [sealed]).ReleasesOnlyVerified [7] [3] (ascii "NQDO") [5] tag.toList
      (ascii "CLOSE") := by
  intro tag sealed
  have hfits : (ofTable [sealed]).Fits := by
    intro args
    simp only [ofTable, ofAead, List.find?_singleton]
    split_ifs with h
    · simp only [decide_eq_true_eq] at h
      rw [← h.2.2.1]
      decide
    · simp
  exact (decrypt_releases_only_verified hfits).mpr (by decide)

end Evp

end SpaceSec
