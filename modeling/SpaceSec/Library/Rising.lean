import Mathlib.Data.List.Chain
import Mathlib.Order.Basic

/-- The second observation is no less than the first, if neither of them is a break. -/
def Rises {α : Type} [LE α] (a b : Option α) : Prop := ∀ x ∈ a, ∀ y ∈ b, x ≤ y

/-- Observations that never fall from one break to the next. -/
def Rising {α : Type} [LE α] (xs : List (Option α)) : Prop := xs.IsChain Rises

namespace Rising

variable {α : Type} [Preorder α] {xs ys : List (Option α)} {x y : α}

theorem rises_some {a b : Option α} (hax : Rises a (some x)) (hxb : Rises (some x) b) :
    Rises a b := by
  intro y hy z hz
  exact (hax y hy x rfl).trans (hxb x rfl z hz)

/-- An observation can be left out, but not a break. -/
theorem erase (h : Rising (xs ++ some x :: ys)) : Rising (xs ++ ys) := by
  obtain ⟨hxs, hrest, hlink⟩ := List.isChain_append.mp h
  refine List.isChain_append.mpr ⟨hxs, hrest.tail, ?_⟩
  intro a ha b hb
  cases ys with
  | nil => cases hb
  | cons c ys =>
    obtain rfl := Option.some_inj.mp hb
    exact rises_some (hlink a ha (some x) rfl) (List.isChain_cons_cons.mp hrest).1

theorem concat_of_le (h : Rising (xs ++ [some x])) (hxy : x ≤ y) : Rising (xs ++ [some y]) := by
  obtain ⟨hxs, -, hlink⟩ := List.isChain_append.mp h
  refine List.isChain_append.mpr ⟨hxs, List.isChain_singleton _, ?_⟩
  intro a ha b hb z hz w hw
  obtain rfl := Option.some_inj.mp hb
  obtain rfl := Option.some_inj.mp hw
  exact (hlink a ha (some x) rfl z hz x rfl).trans hxy

theorem concat_self (h : Rising (xs ++ [some x])) : Rising (xs ++ [some x] ++ [some x]) := by
  refine List.isChain_append.mpr ⟨h, List.isChain_singleton _, ?_⟩
  intro a ha b hb z hz w hw
  rw [List.getLast?_concat] at ha
  obtain rfl := Option.some_inj.mp ha
  obtain rfl := Option.some_inj.mp hz
  obtain rfl := Option.some_inj.mp hb
  obtain rfl := Option.some_inj.mp hw
  exact le_rfl

/-- After a break anything can follow. -/
theorem concat_break (h : Rising (xs ++ [some x])) (y : α) :
    Rising (xs ++ [none] ++ [some y]) := by
  obtain ⟨hxs, -, -⟩ := List.isChain_append.mp h
  refine List.isChain_append.mpr ⟨List.isChain_append.mpr ⟨hxs, List.isChain_singleton _, ?_⟩,
    List.isChain_singleton _, ?_⟩
  · intro a _ b hb z _ w hw
    obtain rfl := Option.some_inj.mp hb
    cases hw
  · intro a ha b _ z hz
    rw [List.getLast?_concat] at ha
    obtain rfl := Option.some_inj.mp ha
    cases hz

theorem pairwise {xs : List α} (h : Rising (xs.map some)) : xs.Pairwise (· ≤ ·) := by
  refine List.isChain_iff_pairwise.mp (List.isChain_of_isChain_map some ?_ h)
  intro a b hab
  exact hab a rfl b rfl

end Rising
