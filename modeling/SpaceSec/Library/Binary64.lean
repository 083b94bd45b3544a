import Mathlib

open Float.Model (Format totalExponent UnpackedFloat)
open Float.Model.Format (binary64)
open Float.Model.UnpackedFloat

namespace Binary64

theorem targetExponent_eq (total : ℤ) : binary64.targetExponent total = max (total - 53) (-1074) :=
  rfl

theorem targetExponent_total (m : ℕ) (e : ℤ) :
    binary64.targetExponent (totalExponent m e) = max (m.log2 - 52 + e) (-1074) := by
  rw [targetExponent_eq, totalExponent]
  omega

section Shift

theorem shiftRight_succ (em : ExtendedMantissa) (k : ℕ) :
    em >>> (k + 1) = (em >>> k).shiftRightOne := rfl

theorem mantissa_shiftRight (em : ExtendedMantissa) (k : ℕ) :
    (em >>> k).mantissa = em.mantissa / 2 ^ k := by
  induction k with
  | zero => exact (Nat.div_one _).symm
  | succ k ih =>
    rw [shiftRight_succ, ExtendedMantissa.shiftRightOne, ih, Nat.div_div_eq_div_mul, Nat.pow_succ]

theorem roundBit_shiftRight (em : ExtendedMantissa) (k : ℕ) :
    (em >>> (k + 1)).roundBit = (em.mantissa / 2 ^ k % 2 != 0) := by
  rw [shiftRight_succ, ExtendedMantissa.shiftRightOne, mantissa_shiftRight]

theorem le_roundedMantissa (em : ExtendedMantissa) : em.mantissa ≤ em.roundedMantissa := by
  obtain ⟨m, _ | _, _ | _⟩ := em
  all_goals
    simp only [ExtendedMantissa.roundedMantissa, ExtendedMantissa.accuracy,
      Accuracy.roundToNearestEven]
    omega

theorem roundedMantissa_le (em : ExtendedMantissa) :
    em.roundedMantissa ≤ em.mantissa + if em.roundBit then 1 else 0 := by
  obtain ⟨m, _ | _, _ | _⟩ := em
  all_goals
    simp only [ExtendedMantissa.roundedMantissa, ExtendedMantissa.accuracy,
      Accuracy.roundToNearestEven, Bool.false_eq_true, if_false, if_true]
    omega

/-- Above half, and at half of an odd mantissa, rounding goes up. -/
theorem roundedMantissa_of_odd {em : ExtendedMantissa} (hround : em.roundBit = true)
    (hodd : em.mantissa % 2 = 1) : em.roundedMantissa = em.mantissa + 1 := by
  obtain ⟨m, _ | _, _ | _⟩ := em
  · cases hround
  · cases hround
  · simp only [ExtendedMantissa.roundedMantissa, ExtendedMantissa.accuracy,
      Accuracy.roundToNearestEven, hodd]
  · rfl

end Shift

section Round

variable (s : Sign) (m : ℕ) (e : ℤ) (accuracy : Accuracy)

/-- The mantissa, the exponent and what is lost, after the first shift of a rounding. -/
def firstShift : ExtendedMantissa × ℤ := shiftToTargetExponent binary64 m e accuracy

def firstMantissa : ℕ := (firstShift m e accuracy).1.roundedMantissa

def finalShift : ℕ :=
  (max ((firstMantissa m e accuracy).log2 - 52 + (firstShift m e accuracy).2) (-1074) -
    (firstShift m e accuracy).2).toNat

theorem firstShift_snd : (firstShift m e accuracy).2 = max e (max (m.log2 - 52 + e) (-1074)) := by
  rw [firstShift, shiftToTargetExponent, shiftToExponent, targetExponent_total]
  omega

variable {m e} in
theorem firstShift_fst {k : ℕ} (hk : (firstShift m e accuracy).2 = e + k) :
    (firstShift m e accuracy).1 = ExtendedMantissa.ofMantissaAndAccuracy m accuracy >>> k := by
  rw [firstShift, shiftToTargetExponent, shiftToExponent] at hk ⊢
  obtain rfl := Int.ofNat_inj.mp (add_left_cancel hk)
  rfl

theorem mantissa_ofMantissaAndAccuracy :
    (ExtendedMantissa.ofMantissaAndAccuracy m accuracy).mantissa = m := by
  cases accuracy with
  | exact => rfl
  | inexact ordering => cases ordering <;> rfl

theorem roundWithAccuracy_eq :
    roundWithAccuracy binary64 s m e accuracy =
      if h : firstMantissa m e accuracy / 2 ^ finalShift m e accuracy = 0 then .zero s
      else .finite s (firstMantissa m e accuracy / 2 ^ finalShift m e accuracy)
        ((firstShift m e accuracy).2 + finalShift m e accuracy) (Nat.pos_of_ne_zero h) := by
  have hmantissa : (ExtendedMantissa.ofMantissaAndAccuracy (firstMantissa m e accuracy) .exact >>>
      finalShift m e accuracy).mantissa =
        firstMantissa m e accuracy / 2 ^ finalShift m e accuracy := by
    rw [mantissa_shiftRight, mantissa_ofMantissaAndAccuracy]
  have hshift : shiftToTargetExponent binary64 (firstShift m e accuracy).1.roundedMantissa
      (firstShift m e accuracy).2 .exact =
        (ExtendedMantissa.ofMantissaAndAccuracy (firstMantissa m e accuracy) .exact >>>
          finalShift m e accuracy, (firstShift m e accuracy).2 + finalShift m e accuracy) := by
    rw [shiftToTargetExponent, shiftToExponent, targetExponent_total]
    rfl
  simp only [← hmantissa]
  rw [roundWithAccuracy, ← firstShift]
  simp only [hshift]

variable {m} {k : ℕ}

/-- What lies below the midpoint between the largest finite number and the next power of two stays
below that power. -/
theorem exponent_le_of_lt (h : m < (2 ^ 54 - 1) * 2 ^ k) :
    (firstShift m (970 - k) accuracy).2 + finalShift m (970 - k) accuracy ≤ 971 := by
  have hm : m < 2 ^ (m.log2 + 1) := Nat.lt_log2_self
  have hlog : m.log2 ≤ 53 + k := by
    by_cases hzero : m = 0
    · rw [hzero]
      exact Nat.zero_le _
    · rw [← Nat.lt_succ_iff, Nat.log2_lt hzero, Nat.pow_succ, Nat.pow_add]
      omega
  have hsnd := firstShift_snd m (970 - k) accuracy
  by_contra hover
  obtain ⟨j, hj⟩ : ∃ j : ℕ, (firstShift m (970 - k) accuracy).2 = 970 - k + j :=
    ⟨((firstShift m (970 - k) accuracy).2 - (970 - k)).toNat, by omega⟩
  have hfst : (firstShift m (970 - k) accuracy).1.mantissa = m / 2 ^ j := by
    rw [firstShift_fst accuracy hj, mantissa_shiftRight, mantissa_ofMantissaAndAccuracy]
  have hsmall : m / 2 ^ j < 2 ^ 53 := by
    apply Nat.div_lt_of_lt_mul
    rw [← Nat.pow_add]
    exact hm.trans_le (Nat.pow_le_pow_right Nat.two_pos (by omega))
  have hround := roundedMantissa_le (firstShift m (970 - k) accuracy).1
  rw [hfst] at hround
  -- only a carry gives the rounded mantissa another bit
  rw [← firstMantissa] at hround
  have hfinal : 53 ≤ (firstMantissa m (970 - k) accuracy).log2 := by
    rw [finalShift] at hover
    omega
  have hcarry : 2 ^ 53 ≤ firstMantissa m (970 - k) accuracy := by
    have hpos : firstMantissa m (970 - k) accuracy ≠ 0 := by
      intro hzero
      rw [hzero] at hfinal
      exact absurd hfinal (by decide)
    exact (Nat.le_log2 hpos).mp hfinal
  have hup : (firstShift m (970 - k) accuracy).1.roundBit = true := by
    by_contra hdown
    rw [if_neg hdown] at hround
    omega
  rw [if_pos hup] at hround
  have hlogr : (firstMantissa m (970 - k) accuracy).log2 = 53 :=
    (Nat.log2_eq_iff (by omega)).mpr ⟨hcarry, by omega⟩
  obtain rfl : j = k + 1 := by
    rw [finalShift] at hover
    omega
  rw [firstShift_fst accuracy hj, roundBit_shiftRight, mantissa_ofMantissaAndAccuracy,
    bne_iff_ne] at hup
  rw [Nat.pow_succ, ← Nat.div_div_eq_div_mul] at hsmall hround
  have hbelow : m / 2 ^ k < 2 ^ 54 - 1 := by
    rw [Nat.div_lt_iff_lt_mul (Nat.two_pow_pos k)]
    exact h
  omega

variable {e}

/-- A mantissa with bits enough is cut to 53 of them. -/
theorem normal_of_le_log2 (hlog : 52 ≤ m.log2) (he : -1074 ≤ e) :
    (firstShift m e accuracy).2 = e + (m.log2 - 52 : ℕ) ∧
      m / 2 ^ (m.log2 - 52) ≤ firstMantissa m e accuracy ∧
      finalShift m e accuracy = (firstMantissa m e accuracy).log2 - 52 ∧
      (firstMantissa m e accuracy / 2 ^ finalShift m e accuracy).log2 = 52 := by
  have hm : m ≠ 0 := by
    intro hzero
    rw [hzero] at hlog
    exact absurd hlog (by decide)
  have hsnd := firstShift_snd m e accuracy
  have hj : (firstShift m e accuracy).2 = e + (m.log2 - 52 : ℕ) := by omega
  have hround := le_roundedMantissa (firstShift m e accuracy).1
  rw [← firstMantissa, firstShift_fst accuracy hj, mantissa_shiftRight,
    mantissa_ofMantissaAndAccuracy] at hround
  have hlarge : 2 ^ 52 ≤ firstMantissa m e accuracy := by
    refine le_trans ?_ hround
    rw [Nat.le_div_iff_mul_le (Nat.two_pow_pos _), ← Nat.pow_add, Nat.add_sub_cancel' hlog]
    exact Nat.log2_self_le hm
  have hr : firstMantissa m e accuracy ≠ 0 := by omega
  have hlogr : 52 ≤ (firstMantissa m e accuracy).log2 := (Nat.le_log2 hr).mpr hlarge
  have hshift : finalShift m e accuracy = (firstMantissa m e accuracy).log2 - 52 := by
    rw [finalShift]
    omega
  refine ⟨hj, hround, hshift, ?_⟩
  have hfloor : 2 ^ 52 ≤ firstMantissa m e accuracy / 2 ^ finalShift m e accuracy := by
    rw [hshift, Nat.le_div_iff_mul_le (Nat.two_pow_pos _), ← Nat.pow_add,
      Nat.add_sub_cancel' hlogr]
    exact Nat.log2_self_le hr
  rw [Nat.log2_eq_iff (by omega)]
  refine ⟨hfloor, ?_⟩
  rw [hshift, Nat.div_lt_iff_lt_mul (Nat.two_pow_pos _), ← Nat.pow_add]
  refine Nat.lt_log2_self.trans_le (Nat.pow_le_pow_right Nat.two_pos ?_)
  omega

/-- What lies at that midpoint or above goes over to that power. -/
theorem lt_exponent_of_le (hk : 970 - (k : ℤ) ≥ -1074) (h : (2 ^ 54 - 1) * 2 ^ k ≤ m) :
    971 < (firstShift m (970 - k) accuracy).2 + finalShift m (970 - k) accuracy ∧
      firstMantissa m (970 - k) accuracy / 2 ^ finalShift m (970 - k) accuracy ≠ 0 := by
  have hpow := Nat.two_pow_pos k
  have hm : m ≠ 0 := by
    intro hzero
    rw [hzero] at h
    omega
  have hlog : 53 + k ≤ m.log2 := by
    rw [Nat.le_log2 hm, Nat.pow_add]
    omega
  obtain ⟨hj, hround, hshift, hnormal⟩ :=
    normal_of_le_log2 (e := 970 - k) accuracy (by omega : 52 ≤ m.log2) hk
  refine ⟨?_, ?_⟩
  · by_cases hnext : 54 + k ≤ m.log2
    · omega
    · have hlogm : m.log2 - 52 = k + 1 := by omega
      have hbelow : m / 2 ^ k < 2 ^ 54 := by
        rw [Nat.div_lt_iff_lt_mul hpow, ← Nat.pow_add, ← Nat.log2_lt hm]
        omega
      have habove : 2 ^ 54 - 1 ≤ m / 2 ^ k := (Nat.le_div_iff_mul_le hpow).mpr h
      rw [hlogm] at hj
      have hfst := firstShift_fst accuracy hj
      have hodd : (firstShift m (970 - k) accuracy).1.mantissa = 2 ^ 53 - 1 := by
        rw [hfst, mantissa_shiftRight, mantissa_ofMantissaAndAccuracy, Nat.pow_succ,
          ← Nat.div_div_eq_div_mul]
        omega
      have hup : (firstShift m (970 - k) accuracy).1.roundBit = true := by
        rw [hfst, roundBit_shiftRight, mantissa_ofMantissaAndAccuracy, bne_iff_ne]
        omega
      have hcarry : firstMantissa m (970 - k) accuracy = 2 ^ 53 := by
        rw [firstMantissa, roundedMantissa_of_odd hup (by omega), hodd]
        omega
      rw [hcarry, show (2 ^ 53 : ℕ).log2 = 53 by decide] at hshift
      omega
  · intro hzero
    rw [hzero] at hnormal
    exact absurd hnormal (by decide)

end Round

section Pack

theorem isNaN_of_isFinite {u : UnpackedFloat} (hu : u.isFinite = true) : u.isNaN = false := by
  cases u with
  | notANumber => cases hu
  | _ => rfl

theorem unpack_packedInfinity (s : Sign) : ∃ s', unpack binary64 (packedInfinity binary64 s) =
    .infinity s' := by
  simp only [unpack, packedInfinity, unpackExponent_packComponents, unpackMantissa_packComponents,
    if_true]
  exact ⟨_, rfl⟩

theorem unpack_packedZero (s : Sign) : ∃ s', unpack binary64 (packedZero binary64 s) =
    .zero s' := by
  simp only [unpack, packedZero, unpackExponent_packComponents, unpackMantissa_packComponents]
  exact ⟨_, rfl⟩

theorem unpack_packedNaN : (unpack binary64 (packedNaN binary64)).isFinite = false := by
  decide

variable (s : Sign) {m : ℕ} {e : ℤ} (hm : 0 < m)

theorem pack_finite : pack binary64 (.finite s m e hm) =
    if 971 < e then packedInfinity binary64 s
    else if m.log2 = 52 then
      packComponents binary64 s (BitVec.ofNat 11 (e + 1075).toNat) (BitVec.ofNat 52 m)
    else packComponents binary64 s 0#11 (BitVec.ofNat 52 m) := by
  have hbias : (e + binary64.exponentBias + (52 : ℕ)).toNat = (e + 1075).toNat := by
    rw [show (binary64.exponentBias : ℤ) = 1023 by decide]
    omega
  rw [pack, hbias]
  simp only [Format.mantissaBits, Nat.add_comm 1, Nat.add_right_cancel_iff]
  exact if_congr (by omega) rfl rfl

theorem unpack_pack_of_lt (he : 971 < e) :
    ∃ s', unpack binary64 (pack binary64 (.finite s m e hm)) = .infinity s' := by
  rw [pack_finite, if_pos he]
  exact unpack_packedInfinity s

theorem unpack_pack_of_normal (he : e ≤ 971) (hpos : -1074 ≤ e) (hnormal : m.log2 = 52) :
    ∃ s' m' e', ∃ hm' : 0 < m', unpack binary64 (pack binary64 (.finite s m e hm)) =
      .finite s' m' e' hm' ∧ e' = e ∧ 2 ^ 52 ≤ m' := by
  have hexponent : (BitVec.ofNat 11 (e + 1075).toNat).toNat = (e + 1075).toNat := by
    rw [BitVec.toNat_ofNat]
    omega
  have hlast : BitVec.ofNat 11 (e + 1075).toNat ≠ -1#11 := by
    rw [Ne, ← BitVec.toNat_inj, hexponent, show (-1#11).toNat = 2047 by decide]
    omega
  have hfirst : BitVec.ofNat 11 (e + 1075).toNat ≠ 0#11 := by
    rw [Ne, ← BitVec.toNat_inj, hexponent, show (0#11).toNat = 0 by decide]
    omega
  rw [pack_finite, if_neg (by omega), if_pos hnormal]
  simp only [unpack, unpackExponent_packComponents, unpackMantissa_packComponents]
  rw [if_neg hlast, if_neg hfirst]
  have hlarge : 2 ^ 52 ≤ (1#1 ++ BitVec.ofNat 52 m).toNat := by
    rw [BitVec.toNat_append]
    exact Nat.left_le_or
  refine ⟨_, _, _, (Nat.two_pow_pos 52).trans_le hlarge, rfl, ?_, hlarge⟩
  rw [hexponent, show (binary64.exponentBias : ℤ) = 1023 by decide]
  omega

theorem isFinite_unpack_packComponents {exponent : BitVec 11} {mantissa : BitVec 52}
    (h : exponent ≠ -1#11) :
    (unpack binary64 (packComponents binary64 s exponent mantissa)).isFinite = true := by
  simp only [unpack, unpackExponent_packComponents, unpackMantissa_packComponents]
  rw [if_neg h]
  split_ifs
  · rfl
  · rfl
  · rfl

theorem isFinite_unpack_pack (he : e ≤ 971) :
    (unpack binary64 (pack binary64 (.finite s m e hm))).isFinite = true := by
  rw [pack_finite, if_neg (by omega)]
  split_ifs
  · apply isFinite_unpack_packComponents
    intro heq
    have := congrArg BitVec.toNat heq
    simp at this
    omega
  · exact isFinite_unpack_packComponents s (by decide)

/-- The finite numbers that there are. -/
theorem unpack_bounds {bits : BitVec 64} {s : Sign} {m : ℕ} {e : ℤ} {hm : 0 < m}
    (h : unpack binary64 bits = .finite s m e hm) : m < 2 ^ 53 ∧ e ≤ 971 := by
  have hbias : (binary64.exponentBias : ℤ) = 1023 := by decide
  have hexponent : (@unpackExponent binary64 bits).toNat < 2 ^ 11 := BitVec.isLt _
  have hmantissa : (@unpackMantissa binary64 bits).toNat < 2 ^ 52 := BitVec.isLt _
  have hone : (1#1 ++ @unpackMantissa binary64 bits).toNat < 2 ^ 53 := BitVec.isLt _
  rw [unpack] at h
  simp only at h
  split_ifs at h with hlast _ hfirst
  · simp only [hfirst, UnpackedFloat.finite.injEq] at h
    obtain ⟨-, rfl, rfl⟩ := h
    refine ⟨by omega, ?_⟩
    rw [hbias, show (0#11).toNat = 0 by decide]
    decide
  · have hne : (@unpackExponent binary64 bits).toNat ≠ 2047 :=
      fun heq ↦ hlast (BitVec.eq_of_toNat_eq heq)
    simp only [UnpackedFloat.finite.injEq] at h
    obtain ⟨-, rfl, rfl⟩ := h
    refine ⟨hone, ?_⟩
    rw [hbias]
    generalize (@unpackExponent binary64 bits).toNat = exponent at hne hexponent
    omega

theorem isNaN_unpack_pack {u : UnpackedFloat} (hu : u.isNaN = false) :
    (unpack binary64 (pack binary64 u)).isNaN = false := by
  cases u with
  | notANumber => cases hu
  | infinity s =>
    obtain ⟨s', hs'⟩ := unpack_packedInfinity s
    rw [pack, hs']
    rfl
  | zero s =>
    obtain ⟨s', hs'⟩ := unpack_packedZero s
    rw [pack, hs']
    rfl
  | finite s m e hm =>
    by_cases he : 971 < e
    · obtain ⟨s', hs'⟩ := unpack_pack_of_lt s hm he
      rw [hs']
      rfl
    · exact isNaN_of_isFinite (isFinite_unpack_pack s hm (not_lt.mp he))

end Pack

section Operations

variable (s : Sign) {m k : ℕ} {e : ℤ} (accuracy : Accuracy)

/-- A rounding keeps a mantissa of 53 bits where it is given as many. -/
theorem round_of_le_log2 (hlog : 52 ≤ m.log2) (he : -1074 ≤ e) :
    ∃ m' e', ∃ hm' : 0 < m', roundWithAccuracy binary64 s m e accuracy = .finite s m' e' hm' ∧
      m'.log2 = 52 ∧ e + (m.log2 - 52 : ℕ) ≤ e' ∧
      (∀ k : ℕ, e = 970 - k → m < (2 ^ 54 - 1) * 2 ^ k → e' ≤ 971) := by
  obtain ⟨hj, -, -, hnormal⟩ := normal_of_le_log2 accuracy hlog he
  have hzero : firstMantissa m e accuracy / 2 ^ finalShift m e accuracy ≠ 0 := by
    intro hzero
    rw [hzero] at hnormal
    exact absurd hnormal (by decide)
  rw [roundWithAccuracy_eq, dif_neg hzero]
  refine ⟨_, _, _, rfl, hnormal, by omega, ?_⟩
  intro k hk hlt
  rw [hk]
  exact exponent_le_of_lt accuracy hlt

theorem isFinite_round (h : m < (2 ^ 54 - 1) * 2 ^ k) :
    (unpack binary64 (pack binary64
      (roundWithAccuracy binary64 s m (970 - k) accuracy))).isFinite = true := by
  rw [roundWithAccuracy_eq]
  split_ifs
  · obtain ⟨s', hs'⟩ := unpack_packedZero s
    rw [pack, hs']
    rfl
  · exact isFinite_unpack_pack s _ (exponent_le_of_lt accuracy h)

theorem round_overflow (hk : k ≤ 2044) (h : (2 ^ 54 - 1) * 2 ^ k ≤ m) :
    ∃ s', unpack binary64 (pack binary64
      (roundWithAccuracy binary64 s m (970 - k) accuracy)) = .infinity s' := by
  obtain ⟨hover, hzero⟩ := lt_exponent_of_le accuracy (by omega) h
  rw [roundWithAccuracy_eq, dif_neg hzero]
  exact unpack_pack_of_lt s _ hover

theorem round_positive {n : ℕ} (hn : 0 < n) :
    ∃ m' e', ∃ hm' : 0 < m', round binary64 .positive n 0 = .finite .positive m' e' hm' ∧
      m'.log2 = 52 ∧ -52 ≤ e' ∧ (n < 2 ^ 53 → e' ≤ 971) := by
  have hn0 := hn.ne'
  obtain ⟨j, hj⟩ : ∃ j, j = 52 - n.log2 := ⟨_, rfl⟩
  have hshift : (0 - binary64.targetExponent (totalExponent n 0)).toNat = j := by
    rw [targetExponent_total]
    omega
  have hlog : 52 ≤ (n * 2 ^ j).log2 := by
    rw [Nat.le_log2 (Nat.mul_ne_zero hn0 (Nat.two_pow_pos j).ne')]
    calc 2 ^ 52 ≤ 2 ^ (n.log2 + j) := Nat.pow_le_pow_right Nat.two_pos (by omega)
      _ = 2 ^ n.log2 * 2 ^ j := Nat.pow_add _ _ _
      _ ≤ n * 2 ^ j := Nat.mul_le_mul_right _ (Nat.log2_self_le hn0)
  obtain ⟨m', e', hm', hround, hnormal, hlow, hhigh⟩ :=
    round_of_le_log2 .positive .exact hlog (e := 0 - j) (by omega)
  rw [UnpackedFloat.round, decreaseExponent, hshift, Nat.shiftLeft_eq]
  refine ⟨m', e', hm', hround, hnormal, by omega, ?_⟩
  intro hsmall
  apply hhigh (970 + j) (by omega)
  calc n * 2 ^ j < 2 ^ 53 * 2 ^ j := Nat.mul_lt_mul_of_pos_right hsmall (Nat.two_pow_pos j)
    _ ≤ (2 ^ 54 - 1) * 2 ^ (970 + j) :=
      Nat.mul_le_mul (by decide) (Nat.pow_le_pow_right Nat.two_pos (Nat.le_add_left j 970))

theorem unpack_one : (Float.ofBits 0x3FF0000000000000).toModel.unpack =
    .finite .positive (2 ^ 52) (-52) (Nat.two_pow_pos 52) := rfl

theorem log2_mul_two_pow (hm : m ≠ 0) (j : ℕ) : (m * 2 ^ j).log2 = m.log2 + j := by
  have hpow := Nat.two_pow_pos j
  rw [Nat.log2_eq_iff (Nat.mul_ne_zero hm hpow.ne'), Nat.pow_add, Nat.add_right_comm, Nat.pow_add]
  exact ⟨Nat.mul_le_mul_right _ (Nat.log2_self_le hm),
    Nat.mul_lt_mul_of_pos_right Nat.lt_log2_self hpow⟩

theorem mul_of_le_log2 {s₁ s₂ : Sign} {m₁ m₂ : ℕ} {e₁ e₂ : ℤ} (hm₁ : 0 < m₁) (hm₂ : 0 < m₂)
    (hlog : 52 ≤ (m₁ * m₂).log2) (he : -1074 ≤ e₁ + e₂) :
    ∃ s m e, ∃ hm : 0 < m, mul binary64 (.finite s₁ m₁ e₁ hm₁) (.finite s₂ m₂ e₂ hm₂) =
      .finite s m e hm ∧ m.log2 = 52 ∧ e₁ + e₂ + ((m₁ * m₂).log2 - 52 : ℕ) ≤ e := by
  obtain ⟨m, e, hm, hround, hnormal, hlow, -⟩ := round_of_le_log2 (s₁ * s₂) .exact hlog he
  exact ⟨_, m, e, hm, hround, hnormal, hlow⟩

/-- A positive integer comes out at one or more. -/
theorem unpack_ofNat {n : ℕ} (hn : 0 < n) :
    ∃ s m e, ∃ hm : 0 < m, (Float.ofNat n).toModel.unpack =
      unpack binary64 (pack binary64 (.finite s m e hm)) ∧ m.log2 = 52 ∧ -52 ≤ e := by
  rw [Float.ofNat]
  change ∃ s m e, ∃ hm : 0 < m, (Float.ofScientific n false 0).toModel.unpack = _ ∧ _
  by_cases hsmall : n < 2 ^ 53
  · obtain ⟨m, e, hm, hround, hnormal, hlow, hhigh⟩ := round_positive hn
    have hofInt : UnpackedFloat.ofInt binary64 n.toUInt64.toNat = .finite .positive m e hm := by
      rw [UnpackedFloat.ofInt, UnpackedFloat.normalize, Nat.toUInt64_eq,
        UInt64.toNat_ofNat_of_lt' (hsmall.trans (by decide)), Int.compare_eq_gt.mpr (by omega)]
      exact hround
    obtain ⟨s', m', e', hm', hunpack, rfl, hlarge⟩ :=
      unpack_pack_of_normal .positive hm (hhigh hsmall) (by omega) hnormal
    have hlogm : 52 ≤ m'.log2 := (Nat.le_log2 hm'.ne').mpr hlarge
    have hlog := log2_mul_two_pow hm'.ne' 52
    obtain ⟨s, m'', e'', hm'', hmul, hnormal'', hlow''⟩ :=
      @mul_of_le_log2 s' .positive _ _ e' (-52) hm' (Nat.two_pow_pos 52) (by omega) (by omega)
    refine ⟨s, m'', e'', hm'', ?_, hnormal'', by omega⟩
    rw [← hmul, ← hunpack, ← hofInt, ← unpack_one, Float.ofScientific, dif_pos ⟨hsmall, by decide⟩]
    rfl
  · have hlog := log2_mul_two_pow hn.ne' 53
    have hlogn : 53 ≤ n.log2 := (Nat.le_log2 hn.ne').mpr (by omega)
    have hpos : 0 < n <<< 53 := by
      rw [Nat.shiftLeft_eq]
      exact Nat.mul_pos hn (Nat.two_pow_pos 53)
    rw [← Nat.mul_one (n * 2 ^ 53), ← Nat.shiftLeft_eq] at hlog
    obtain ⟨s, m, e, hm, hmul, hnormal, hlow⟩ :=
      @mul_of_le_log2 .positive .positive _ _ (-53) 0 hpos Nat.one_pos (by omega) (by omega)
    refine ⟨s, m, e, hm, ?_, hnormal, by omega⟩
    rw [← hmul, Float.ofScientific, dif_neg (fun hs ↦ hsmall hs.1)]
    change unpack binary64 (pack binary64 (ofScientific binary64 n 0)) = _
    have hexponents : (0 : ℤ) ≤ 2 ^ binary64.exponentBits := by decide
    rw [ofScientific, dif_neg hn.ne', if_neg (by omega), if_neg (by omega), if_pos (by decide)]
    rfl

end Operations

section Division

/-- A finite number does not overflow when it is divided by one or more. -/
theorem divCore_lt {m₁ m₂ : ℕ} {e₁ e₂ : ℤ} (hm₁ : m₁ < 2 ^ 53) (he₁ : e₁ ≤ 971)
    (hm₂ : 2 ^ 52 ≤ m₂) (he₂ : -52 ≤ e₂) :
    ∃ (q k : ℕ) (accuracy : Accuracy),
      divCore binary64 m₁ e₁ m₂ e₂ = (q, 970 - (k : ℤ), accuracy) ∧ q < (2 ^ 54 - 1) * 2 ^ k := by
  obtain ⟨t, ht⟩ : ∃ t, t = min (e₁ - e₂)
      (binary64.targetExponent (totalExponent m₁ e₁ - totalExponent m₂ e₂)) := ⟨_, rfl⟩
  have hlog₁ : m₁.log2 ≤ 52 := by
    by_cases hzero : m₁ = 0
    · rw [hzero]
      decide
    · exact Nat.lt_succ_iff.mp ((Nat.log2_lt hzero).mpr hm₁)
  have hlog₂ : 52 ≤ m₂.log2 := (Nat.le_log2 (by omega)).mpr hm₂
  have htarget : t ≤ 970 := by
    rw [targetExponent_eq, totalExponent, totalExponent] at ht
    omega
  obtain ⟨k, hk⟩ : ∃ k : ℕ, t = 970 - k := ⟨(970 - t).toNat, by omega⟩
  refine ⟨_, k, _, by rw [divCore, ← ht, ← hk], ?_⟩
  rw [Nat.shiftLeft_eq]
  apply Nat.div_lt_of_lt_mul
  have hshift : (e₁ - e₂ - t).toNat ≤ 53 + k := by omega
  calc m₁ * 2 ^ (e₁ - e₂ - t).toNat ≤ (2 ^ 53 - 1) * 2 ^ (53 + k) :=
        Nat.mul_le_mul (by omega) (Nat.pow_le_pow_right Nat.two_pos hshift)
    _ = 2 ^ 52 * ((2 ^ 54 - 2) * 2 ^ k) := by
        rw [Nat.pow_add, ← Nat.mul_assoc, ← Nat.mul_assoc]
        exact congrArg (· * 2 ^ k) (by decide)
    _ < 2 ^ 52 * ((2 ^ 54 - 1) * 2 ^ k) := by
        apply Nat.mul_lt_mul_of_pos_left _ (Nat.two_pow_pos 52)
        exact Nat.mul_lt_mul_of_pos_right (by decide) (Nat.two_pow_pos k)
    _ ≤ m₂ * ((2 ^ 54 - 1) * 2 ^ k) := Nat.mul_le_mul_right _ hm₂

variable {x : Float} {n : ℕ}

theorem isNaN_ofInt (n : ℤ) : (Float.ofInt n).isNaN = false := by
  have hofNat (n : ℕ) : (Float.ofNat n).toModel.unpack.isNaN = false := by
    cases n with
    | zero => rfl
    | succ n =>
      obtain ⟨s, m, e, hm, hunpack, -, -⟩ := unpack_ofNat (Nat.succ_pos n)
      rw [hunpack]
      exact isNaN_unpack_pack rfl
  cases n with
  | ofNat n => exact hofNat n
  | negSucc n =>
    apply isNaN_unpack_pack
    have hpositive := hofNat n.succ
    cases hunpack : (Float.ofNat n.succ).toModel.unpack with
    | notANumber =>
      rw [hunpack] at hpositive
      cases hpositive
    | _ => rfl

theorem unpack_ofNat_of_not_isInf (hn : 0 < n) (hfits : (Float.ofNat n).isInf = false) :
    ∃ s m e, ∃ hm : 0 < m, (Float.ofNat n).toModel.unpack = .finite s m e hm ∧ 2 ^ 52 ≤ m ∧
      -52 ≤ e := by
  obtain ⟨s, m, e, hm, hunpack, hnormal, he⟩ := unpack_ofNat hn
  by_cases hlarge : 971 < e
  · obtain ⟨s', hinf⟩ := unpack_pack_of_lt s hm hlarge
    change (Float.ofNat n).toModel.unpack.isInf = false at hfits
    rw [hunpack, hinf] at hfits
    cases hfits
  · obtain ⟨s', m', e', hm', hfinite, rfl, hm52⟩ :=
      unpack_pack_of_normal s hm (not_lt.mp hlarge) (by omega) hnormal
    exact ⟨s', m', e', hm', hunpack.trans hfinite, hm52, he⟩

theorem ofNat_beq_zero (hn : 0 < n) (hfits : (Float.ofNat n).isInf = false) :
    (Float.ofNat n == 0) = false := by
  obtain ⟨s, m, e, hm, hunpack, -, -⟩ := unpack_ofNat_of_not_isInf hn hfits
  change (Float.ofNat n).toModel.unpack.beq (.zero .positive) = false
  rw [hunpack]
  cases s with
  | negative => rfl
  | positive => rfl

theorem isFinite_div_ofNat (hn : 0 < n) (hfits : (Float.ofNat n).isInf = false) :
    (x / Float.ofNat n).isFinite = x.isFinite := by
  obtain ⟨s₂, m₂, e₂, hm₂, hunpack, hm52, he52⟩ := unpack_ofNat_of_not_isInf hn hfits
  change (unpack binary64 (pack binary64 (div binary64 x.toModel.unpack
    (Float.ofNat n).toModel.unpack))).isFinite = x.toModel.unpack.isFinite
  rw [hunpack]
  cases hx : x.toModel.unpack with
  | infinity s =>
    obtain ⟨s', hs'⟩ := unpack_packedInfinity (s / s₂)
    rw [div, pack, hs']
    rfl
  | notANumber =>
    rw [div]
    exact unpack_packedNaN
  | zero s =>
    obtain ⟨s', hs'⟩ := unpack_packedZero (s / s₂)
    rw [div, pack, hs']
    rfl
  | finite s₁ m₁ e₁ hm₁ =>
    obtain ⟨hm₁, he₁⟩ := unpack_bounds hx
    obtain ⟨q, k, accuracy, hdiv, hq⟩ := divCore_lt hm₁ he₁ hm52 he52
    simp only [div, hdiv]
    exact isFinite_round _ accuracy hq

theorem isFinite_ofModel_pack (u : UnpackedFloat) :
    (Float.ofModel (.pack u)).isFinite = (unpack binary64 (pack binary64 u)).isFinite := rfl

theorem isInf_ofModel_pack (u : UnpackedFloat) :
    (Float.ofModel (.pack u)).isInf = (unpack binary64 (pack binary64 u)).isInf := rfl

/-- The nearest float to the quotient of two integers. -/
def divInt (m n : ℤ) : Float :=
  let (quotient, exponent, accuracy) := divCore binary64 m.natAbs 0 n.natAbs 0
  let sign : Sign := if decide (m < 0) == decide (n < 0) then .positive else .negative
  .ofModel (.pack (roundWithAccuracy binary64 sign quotient exponent accuracy))

/-- Integers at or above this bound round to no finite float. -/
def overflowBound : ℕ := (2 ^ 54 - 1) * 2 ^ 970

theorem isFinite_divInt (m : ℤ) {n : ℤ} (hn : n ≠ 0) :
    (divInt m n).isFinite = !(divInt m n).isInf ∧
      ((divInt m n).isInf = true ↔ overflowBound * n.natAbs ≤ m.natAbs) := by
  obtain ⟨t, ht⟩ : ∃ t, t = min ((0 : ℤ) - 0) (binary64.targetExponent
      (totalExponent m.natAbs 0 - totalExponent n.natAbs 0)) := ⟨_, rfl⟩
  have hfloor : -1074 ≤ t := by
    rw [targetExponent_eq] at ht
    omega
  obtain ⟨j, hj⟩ : ∃ j : ℕ, t = 970 - ((970 + j : ℕ) : ℤ) := ⟨(-t).toNat, by omega⟩
  have hshift : ((0 : ℤ) - 0 - t).toNat = j := by omega
  have hpos : 0 < n.natAbs := Int.natAbs_pos.mpr hn
  have hbound : (2 ^ 54 - 1) * 2 ^ (970 + j) ≤ m.natAbs <<< j / n.natAbs ↔
      overflowBound * n.natAbs ≤ m.natAbs := by
    have hpow (a b : ℕ) : a * 2 ^ (b + j) = a * 2 ^ b * 2 ^ j := by
      rw [Nat.pow_add, Nat.mul_assoc]
    rw [Nat.shiftLeft_eq, Nat.le_div_iff_mul_le hpos, hpow, ← overflowBound, Nat.mul_right_comm]
    exact Nat.mul_le_mul_right_iff (Nat.two_pow_pos j)
  rw [← hbound]
  obtain ⟨accuracy, hdiv⟩ : ∃ accuracy, divCore binary64 m.natAbs 0 n.natAbs 0 =
      (m.natAbs <<< j / n.natAbs, 970 - ((970 + j : ℕ) : ℤ), accuracy) :=
    ⟨_, by rw [divCore, ← ht, hshift, hj]⟩
  simp only [divInt, hdiv]
  generalize m.natAbs <<< j / n.natAbs = q
  generalize (if decide (m < 0) == decide (n < 0) then Sign.positive else Sign.negative) = s
  obtain ⟨u, hu⟩ : ∃ u, u = unpack binary64 (pack binary64
      (roundWithAccuracy binary64 s q (970 - (970 + j : ℕ)) accuracy)) := ⟨_, rfl⟩
  rw [isFinite_ofModel_pack, isInf_ofModel_pack, ← hu]
  by_cases hq : (2 ^ 54 - 1) * 2 ^ (970 + j) ≤ q
  · obtain ⟨s', hinf⟩ := round_overflow s accuracy (by omega) hq
    rw [hu, hinf]
    exact ⟨rfl, iff_of_true rfl hq⟩
  · have hfinite := isFinite_round s accuracy (not_le.mp hq)
    rw [← hu] at hfinite
    cases u with
    | infinity | notANumber => cases hfinite
    | zero | finite => exact ⟨rfl, iff_of_false nofun hq⟩

end Division

/-- The nearest integer, the even one of two. -/
def nearestInt (s : Sign) (m : ℕ) (e : ℤ) : ℤ :=
  let (m, e) := decreaseExponent m e 0
  s.apply (shiftToExponent m e .exact 0).1.roundedMantissa

end Binary64
