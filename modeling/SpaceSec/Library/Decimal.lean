import Mathlib.Data.Nat.Notation

namespace Decimal

theorem isDigit_of_mem {n : ℕ} {c : Char} (h : c ∈ Nat.toDigits 10 n) : c.isDigit = true :=
  Nat.isDigit_of_mem_toDigits (Nat.succ_pos 9) (Nat.le_refl 10) h

theorem not_mem_toDigits {c : Char} (hc : c.isDigit = false) (n : ℕ) : c ∉ Nat.toDigits 10 n := by
  intro h
  rw [isDigit_of_mem h] at hc
  cases hc

theorem isDigit_range {c : Char} (hc : c.isDigit = true) : 0x30 ≤ c.toNat ∧ c.toNat < 0x3a := by
  obtain ⟨hlow, hhigh⟩ := Char.isDigit_iff_toNat.mp hc
  exact ⟨hlow, Nat.lt_succ_of_le hhigh⟩

theorem toDigits_injective {m n : ℕ} (h : Nat.toDigits 10 m = Nat.toDigits 10 n) : m = n := by
  rw [← @Nat.ofDigitChars_ten_toDigits m, h, Nat.ofDigitChars_ten_toDigits]

theorem toDigits_eq_cons (n : ℕ) :
    ∃ c digits, Nat.toDigits 10 n = c :: digits ∧ c.isDigit = true := by
  obtain ⟨c, digits, hdigits⟩ := List.exists_cons_of_ne_nil (@Nat.toDigits_ne_nil n 10)
  exact ⟨c, digits, hdigits, isDigit_of_mem (hdigits ▸ List.mem_cons_self)⟩

/-- A positive number does not begin with a zero. -/
theorem toDigits_head_ne_zero {n : ℕ} (hn : 0 < n) :
    ∃ c digits, Nat.toDigits 10 n = c :: digits ∧ c ≠ '0' := by
  induction n using Nat.strongRecOn with
  | ind n ih =>
    by_cases hlt : n < 10
    · have hne : ∀ i : Fin 10, 0 < (i : ℕ) → (i : ℕ).digitChar ≠ '0' := by decide
      exact ⟨_, [], Nat.toDigits_of_lt_base hlt, hne ⟨n, hlt⟩ hn⟩
    · obtain ⟨c, digits, hdigits, hc⟩ := ih (n / 10) (by omega) (by omega)
      refine ⟨c, digits ++ [(n % 10).digitChar], ?_, hc⟩
      rw [Nat.toDigits_of_base_le (by decide) (Nat.le_of_not_lt hlt), hdigits]
      rfl

end Decimal
