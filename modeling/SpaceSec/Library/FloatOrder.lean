import Mathlib.Data.Prod.Lex
import Mathlib.Order.Compare
import SpaceSec.Library.Binary64

open Float.Model (UnpackedFloat)
open Float.Model.Format (binary64)
open Float.Model.UnpackedFloat

namespace FloatOrder

/-- The place of a number in the order of the numbers: its class, then its exponent and mantissa. -/
def key : UnpackedFloat → ℤ ×ₗ ℤ ×ₗ ℤ
  | .infinity .negative => toLex (-2, toLex (0, 0))
  | .finite .negative m e _ => toLex (-1, toLex (-e, -m))
  | .zero _ => toLex (0, toLex (0, 0))
  | .finite .positive m e _ => toLex (1, toLex (e, m))
  | .infinity .positive => toLex (2, toLex (0, 0))
  | .notANumber => toLex (3, toLex (0, 0))

theorem compare_signs : compare Sign.negative Sign.positive = .lt := rfl

theorem compare_magnitudes {e e' : ℤ} {m m' : ℕ} :
    (compare e e').then (compare m m') = .lt ↔ e < e' ∨ e = e' ∧ m < m' := by
  rw [Ordering.then_eq_lt, compare_lt_iff_lt, compare_eq_iff_eq, compare_lt_iff_lt]

theorem compare_magnitudes_gt {e e' : ℤ} {m m' : ℕ} :
    (compare e e').then (compare m m') = .gt ↔ e' < e ∨ e = e' ∧ m' < m := by
  rw [Ordering.then_eq_gt, compare_gt_iff_gt, compare_eq_iff_eq, compare_gt_iff_gt]

theorem unpacked_lt_iff {u v : UnpackedFloat} (hu : u.isNaN = false) (hv : v.isNaN = false) :
    u.lt v = true ↔ key u < key v := by
  rcases u with (_ | _) | _ | (_ | _) | ⟨_ | _, m, e, hm⟩
  case notANumber => cases hu
  all_goals
    rcases v with (_ | _) | _ | (_ | _) | ⟨_ | _, m', e', hm'⟩
    case notANumber => cases hv
    all_goals simp [UnpackedFloat.lt, UnpackedFloat.compare, key, Prod.Lex.toLex_lt_toLex,
      compare_signs, compare_magnitudes, compare_magnitudes_gt]

variable {a b x : Float}

theorem lt_iff (ha : a.isNaN = false) (hb : b.isNaN = false) :
    a < b ↔ key a.toModel.unpack < key b.toModel.unpack :=
  decide_eq_true_iff.trans (unpacked_lt_iff ha hb)

theorem not_lt_self (ha : a.isNaN = false) : ¬ a < a := by
  rw [lt_iff ha ha]
  exact lt_irrefl _

theorem lt_trans (ha : a.isNaN = false) (hb : b.isNaN = false) (hx : x.isNaN = false)
    (hab : a < b) (hbx : b < x) : a < x := by
  rw [lt_iff ha hb] at hab
  rw [lt_iff hb hx] at hbx
  exact (lt_iff ha hx).mpr (hab.trans hbx)

theorem isNaN_of_lt (h : a < b) : a.isNaN = false ∧ b.isNaN = false := by
  have hlt : a.toModel.unpack.lt b.toModel.unpack = true := of_decide_eq_true h
  change a.toModel.unpack.isNaN = false ∧ b.toModel.unpack.isNaN = false
  generalize a.toModel.unpack = u at hlt ⊢
  generalize b.toModel.unpack = v at hlt ⊢
  cases u with
  | notANumber => cases v <;> cases hlt
  | infinity | zero | finite =>
    cases v with
    | notANumber => cases hlt
    | _ => exact ⟨rfl, rfl⟩

/-- A number between which and `x` there is no other lies on one side or the other of `b`. -/
theorem lt_or_lt (ha : a.isNaN = false) (hb : b.isNaN = false) (hx : x.isNaN = false)
    (hax : a < x) : a < b ∨ b < x := by
  rw [lt_iff ha hx] at hax
  rw [lt_iff ha hb, lt_iff hb hx]
  exact (lt_or_ge _ _).imp_right fun hba ↦ hba.trans_lt hax

/-- `Math.max` of two numbers: NaN where there is one, and of two zeros the positive one. -/
def mathMax (a b : Float) : Float :=
  if a.isNaN then a
  else if b.isNaN then b
  else if a < b then b
  else if a.toBits = 0x8000000000000000 ∧ b.toBits = 0 then b
  else a

theorem mathMax_cases (a b : Float) : mathMax a b = a ∨ mathMax a b = b := by
  rw [mathMax]
  split_ifs
  · exact Or.inl rfl
  · exact Or.inr rfl
  · exact Or.inr rfl
  · exact Or.inr rfl
  · exact Or.inl rfl

theorem mathMax_isNaN (ha : a.isNaN = false) (hb : b.isNaN = false) :
    (mathMax a b).isNaN = false := by
  rcases mathMax_cases a b with h | h
  · rwa [h]
  · rwa [h]

theorem key_mathMax (ha : a.isNaN = false) (hb : b.isNaN = false) :
    key (mathMax a b).toModel.unpack = max (key a.toModel.unpack) (key b.toModel.unpack) := by
  rw [mathMax, if_neg (by rw [ha]; exact Bool.false_ne_true),
    if_neg (by rw [hb]; exact Bool.false_ne_true)]
  split_ifs with hlt hzero
  · exact (max_eq_right ((lt_iff ha hb).mp hlt).le).symm
  · -- the two zeros have one place
    have hzeros : key a.toModel.unpack = key b.toModel.unpack := by
      obtain ⟨hbits, hbits'⟩ := hzero
      change key (unpack binary64 a.toBits.toBitVec) = key (unpack binary64 b.toBits.toBitVec)
      rw [hbits, hbits']
      rfl
    rw [hzeros, max_self]
  · rw [lt_iff ha hb] at hlt
    exact (max_eq_left (not_lt.mp hlt)).symm

theorem lt_mathMax (ha : a.isNaN = false) (hb : b.isNaN = false) (hx : x.isNaN = false) :
    x < mathMax a b ↔ x < a ∨ x < b := by
  rw [lt_iff hx (mathMax_isNaN ha hb), key_mathMax ha hb, lt_max_iff, lt_iff hx ha, lt_iff hx hb]

theorem mathMax_lt (ha : a.isNaN = false) (hb : b.isNaN = false) (hx : x.isNaN = false) :
    mathMax a b < x ↔ a < x ∧ b < x := by
  rw [lt_iff (mathMax_isNaN ha hb) hx, key_mathMax ha hb, max_lt_iff, lt_iff ha hx, lt_iff hb hx]

section Fold

variable {xs : List Float} (hxs : ∀ y ∈ xs, y.isNaN = false)
include hxs

theorem foldl_mathMax_isNaN (ha : a.isNaN = false) : (xs.foldl mathMax a).isNaN = false := by
  induction xs generalizing a with
  | nil => exact ha
  | cons y xs ih =>
    obtain ⟨hy, hxs⟩ := List.forall_mem_cons.mp hxs
    exact ih hxs (mathMax_isNaN ha hy)

theorem lt_foldl_mathMax (ha : a.isNaN = false) (hx : x.isNaN = false) :
    x < xs.foldl mathMax a ↔ x < a ∨ ∃ y ∈ xs, x < y := by
  induction xs generalizing a with
  | nil => simp
  | cons y xs ih =>
    obtain ⟨hy, hxs⟩ := List.forall_mem_cons.mp hxs
    rw [List.foldl_cons, ih hxs (mathMax_isNaN ha hy), lt_mathMax ha hy hx]
    simp only [List.mem_cons, exists_eq_or_imp, or_assoc]

theorem foldl_mathMax_lt (ha : a.isNaN = false) (hx : x.isNaN = false) :
    xs.foldl mathMax a < x ↔ a < x ∧ ∀ y ∈ xs, y < x := by
  induction xs generalizing a with
  | nil => simp
  | cons y xs ih =>
    obtain ⟨hy, hxs⟩ := List.forall_mem_cons.mp hxs
    rw [List.foldl_cons, ih hxs (mathMax_isNaN ha hy), mathMax_lt ha hy hx, List.forall_mem_cons,
      and_assoc]

end Fold

theorem foldl_mathMax_mem (a : Float) (xs : List Float) :
    xs.foldl mathMax a = a ∨ xs.foldl mathMax a ∈ xs := by
  induction xs generalizing a with
  | nil => exact Or.inl rfl
  | cons y xs ih =>
    rw [List.foldl_cons, List.mem_cons, ← or_assoc]
    refine (ih (mathMax a y)).imp_left fun h ↦ ?_
    rw [h]
    exact mathMax_cases a y

end FloatOrder
