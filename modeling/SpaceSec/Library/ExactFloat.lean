import SpaceSec.Library.FloatOrder

open Float.Model (UnpackedFloat totalExponent)
open Float.Model.Format (binary64)
open Float.Model.UnpackedFloat

namespace Binary64

/-- Zeros that are shifted out leave no trace. -/
theorem shiftRight_exact (m j : ℕ) :
    ExtendedMantissa.ofMantissaAndAccuracy (m * 2 ^ j) .exact >>> j =
      ExtendedMantissa.ofMantissaAndAccuracy m .exact := by
  induction j generalizing m with
  | zero =>
    rw [Nat.pow_zero, Nat.mul_one]
    rfl
  | succ j ih =>
    rw [Nat.pow_succ', ← Nat.mul_assoc, shiftRight_succ, ih (m * 2)]
    simp only [ExtendedMantissa.shiftRightOne, ExtendedMantissa.ofMantissaAndAccuracy,
      Nat.mul_div_cancel m Nat.two_pos, Nat.mul_mod_left]
    rfl

section Exact

variable (s : Sign) {m : ℕ} {e : ℤ}

theorem unpackSign_packComponents (exponent : BitVec 11) (mantissa : BitVec 52) :
    Sign.ofBitVec (@unpackSign binary64 (packComponents binary64 s exponent mantissa)) = s := by
  have hsign : @unpackSign binary64 (packComponents binary64 s exponent mantissa) =
      s.toBitVec := by
    ext i hi
    obtain rfl := Nat.lt_one_iff.mp hi
    rw [unpackSign, BitVec.getElem_cast, BitVec.extractLsb, BitVec.getElem_extractLsb']
    change (s.toBitVec ++ exponent ++ mantissa).getLsbD 63 = _
    rw [BitVec.getLsbD_append, if_neg (by decide), BitVec.getLsbD_append, if_neg (by decide)]
    rfl
  rw [hsign]
  cases s <;> rfl

variable (hm : m.log2 = 52)
include hm

theorem pos_of_log2 : 0 < m := by
  apply Nat.pos_of_ne_zero
  intro hzero
  rw [hzero] at hm
  exact absurd hm (by decide)

/-- A mantissa of 53 bits is rounded to itself, whatever zeros follow it. -/
theorem round_exact (j : ℕ) (he : -1074 ≤ e) : roundWithAccuracy binary64 s (m * 2 ^ j) e .exact =
    .finite s m (e + j) (pos_of_log2 hm) := by
  have hlog := log2_mul_two_pow (pos_of_log2 hm).ne' j
  have hsnd : (firstShift (m * 2 ^ j) e .exact).2 = e + j := by
    rw [firstShift_snd]
    omega
  have hfirst : firstMantissa (m * 2 ^ j) e .exact = m := by
    rw [firstMantissa, firstShift_fst .exact hsnd, shiftRight_exact]
    rfl
  have hfinal : finalShift (m * 2 ^ j) e .exact = 0 := by
    rw [finalShift, hfirst, hsnd]
    omega
  have hmantissa :
      firstMantissa (m * 2 ^ j) e .exact / 2 ^ finalShift (m * 2 ^ j) e .exact = m := by
    rw [hfirst, hfinal, Nat.pow_zero, Nat.div_one]
  rw [roundWithAccuracy_eq, dif_neg (by rw [hmantissa]; exact (pos_of_log2 hm).ne')]
  congr 1
  rw [hsnd, hfinal, Nat.cast_zero, add_zero]

theorem unpack_pack_exact (he : -1074 ≤ e) (he' : e ≤ 971) :
    unpack binary64 (pack binary64 (.finite s m e (pos_of_log2 hm))) =
      .finite s m e (pos_of_log2 hm) := by
  have hexponent : (BitVec.ofNat 11 (e + 1075).toNat).toNat = (e + 1075).toNat := by
    rw [BitVec.toNat_ofNat]
    omega
  have hlast : BitVec.ofNat 11 (e + 1075).toNat ≠ -1#11 := by
    rw [Ne, ← BitVec.toNat_inj, hexponent, show (-1#11).toNat = 2047 by decide]
    omega
  have hfirst : BitVec.ofNat 11 (e + 1075).toNat ≠ 0#11 := by
    rw [Ne, ← BitVec.toNat_inj, hexponent, show (0#11).toNat = 0 by decide]
    omega
  obtain ⟨hlow, hhigh⟩ := (Nat.log2_eq_iff (pos_of_log2 hm).ne').mp hm
  have hmantissa : (1#1 ++ BitVec.ofNat 52 m).toNat = m := by
    rw [BitVec.toNat_append, BitVec.toNat_ofNat, BitVec.toNat_ofNat,
      ← Nat.shiftLeft_add_eq_or_of_lt (Nat.mod_lt _ (Nat.two_pow_pos 52)), Nat.shiftLeft_eq]
    omega
  rw [pack_finite, if_neg (by omega), if_pos hm]
  simp only [unpack, unpackExponent_packComponents, unpackMantissa_packComponents,
    unpackSign_packComponents]
  rw [if_neg hlast, if_neg hfirst]
  congr 1
  rw [hexponent, show (binary64.exponentBias : ℤ) = 1023 by decide]
  omega

end Exact

section Integer

variable {n : ℕ} (hn : 0 < n) (hfits : n < 2 ^ 53)
include hn hfits

theorem log2_le_of_lt : n.log2 ≤ 52 := Nat.lt_succ_iff.mp ((Nat.log2_lt hn.ne').mpr hfits)

theorem log2_mantissa : (n * 2 ^ (52 - n.log2)).log2 = 52 := by
  rw [log2_mul_two_pow hn.ne']
  have := log2_le_of_lt hn hfits
  omega

/-- Integers of at most 53 bits are floats. -/
theorem unpack_ofNat_exact : (Float.ofNat n).toModel.unpack =
    .finite .positive (n * 2 ^ (52 - n.log2)) (-(52 - n.log2 : ℕ))
      (pos_of_log2 (log2_mantissa hn hfits)) := by
  have hlog := log2_mantissa hn hfits
  obtain ⟨j, hj⟩ : ∃ j, j = 52 - n.log2 := ⟨_, rfl⟩
  have hj52 : j ≤ 52 := by omega
  have hshift : (0 - binary64.targetExponent (totalExponent n 0)).toNat = j := by
    rw [targetExponent_total]
    omega
  rw [← hj] at hlog
  simp only [← hj]
  have hround : round binary64 .positive n 0 =
      .finite .positive (n * 2 ^ j) (-j) (pos_of_log2 hlog) := by
    have hexact := round_exact .positive hlog (e := -j) 0 (by omega)
    rw [Nat.pow_zero, Nat.mul_one] at hexact
    rw [UnpackedFloat.round, decreaseExponent, hshift, Nat.shiftLeft_eq]
    simp only [Int.zero_sub, hexact, Nat.cast_zero, add_zero]
  have hofInt : UnpackedFloat.ofInt binary64 n.toUInt64.toNat =
      .finite .positive (n * 2 ^ j) (-j) (pos_of_log2 hlog) := by
    rw [UnpackedFloat.ofInt, UnpackedFloat.normalize, Nat.toUInt64_eq,
      UInt64.toNat_ofNat_of_lt' (hfits.trans (by decide)), Int.compare_eq_gt.mpr (by omega)]
    exact hround
  have hunpack := unpack_pack_exact .positive hlog (e := -j) (by omega) (by omega)
  -- the product with `1.0` is exact again
  have hmul : mul binary64 (.finite .positive (n * 2 ^ j) (-j) (pos_of_log2 hlog))
      (.finite .positive (2 ^ 52) (-52) (Nat.two_pow_pos 52)) =
        .finite .positive (n * 2 ^ j) (-j) (pos_of_log2 hlog) := by
    rw [mul, round_exact _ hlog 52 (by omega)]
    congr 1
    omega
  rw [Float.ofNat]
  change (Float.ofScientific n false 0).toModel.unpack = _
  rw [Float.ofScientific, dif_pos ⟨hfits, by decide⟩]
  refine Eq.trans ?_ hunpack
  rw [← hmul, ← hunpack, ← hofInt, ← unpack_one]
  rfl

end Integer

end Binary64

namespace FloatOrder

open Binary64

theorem key_ofNat_zero : key (Float.ofNat 0).toModel.unpack = toLex (0, toLex (0, 0)) := rfl

theorem key_ofNat {n : ℕ} (hn : 0 < n) (hfits : n < 2 ^ 53) :
    key (Float.ofNat n).toModel.unpack =
      toLex (1, toLex (-((52 - n.log2 : ℕ) : ℤ), ((n * 2 ^ (52 - n.log2) : ℕ) : ℤ))) := by
  rw [unpack_ofNat_exact hn hfits]
  rfl

theorem ofNat_lt_ofNat {m n : ℕ} (hmn : m < n) (hfits : n < 2 ^ 53) :
    Float.ofNat m < Float.ofNat n := by
  refine (lt_iff (isNaN_ofInt m) (isNaN_ofInt n)).mpr ?_
  change key (Float.ofNat m).toModel.unpack < key (Float.ofNat n).toModel.unpack
  rw [key_ofNat (by omega) hfits]
  by_cases hm : m = 0
  · rw [hm, key_ofNat_zero, Prod.Lex.toLex_lt_toLex]
    exact Or.inl one_pos
  · have hm0 : 0 < m := Nat.pos_of_ne_zero hm
    have hlog : m.log2 ≤ n.log2 := (Nat.le_log2 (by omega)).mpr
      ((Nat.log2_self_le hm).trans hmn.le)
    have hn52 := log2_le_of_lt (by omega) hfits
    rw [key_ofNat hm0 (hmn.trans hfits), Prod.Lex.toLex_lt_toLex, Prod.Lex.toLex_lt_toLex]
    refine Or.inr ⟨rfl, ?_⟩
    -- with the same number of bits the mantissas decide
    rcases hlog.lt_or_eq with hlt | heq
    · exact Or.inl (by omega)
    · refine Or.inr ⟨by rw [heq], ?_⟩
      rw [heq, Nat.cast_lt]
      exact Nat.mul_lt_mul_of_pos_right hmn (Nat.two_pow_pos _)

theorem ofInt_lt_ofInt {m n : ℤ} (hm : 0 ≤ m) (hmn : m < n) (hfits : n < 2 ^ 53) :
    Float.ofInt m < Float.ofInt n := by
  obtain ⟨m, rfl⟩ := Int.eq_ofNat_of_zero_le hm
  obtain ⟨n, rfl⟩ := Int.eq_ofNat_of_zero_le (hm.trans hmn.le)
  exact ofNat_lt_ofNat (by omega) (by omega)

end FloatOrder
