import Mathlib.Data.List.TakeDrop

namespace Run

variable {State Input : Type} {step : State → Input → State} {s : State} {inputs : List Input}

/-- The state after one more input is one more step away. -/
theorem foldl_take_succ {n : ℕ} (hn : n < inputs.length) :
    (inputs.take (n + 1)).foldl step s = step ((inputs.take n).foldl step s) inputs[n] := by
  rw [List.take_succ_eq_append_getElem hn, List.foldl_append]
  rfl

/-- An invariant that every step of a run keeps, whatever it needs to know of that step's input,
holds after all of them. -/
theorem foldl_take {P : State → Prop} (hinitial : P s)
    (hstep : ∀ n (hn : n < inputs.length), P ((inputs.take n).foldl step s) →
      P (step ((inputs.take n).foldl step s) inputs[n]))
    (n : ℕ) : P ((inputs.take n).foldl step s) := by
  induction n with
  | zero => exact hinitial
  | succ n ih =>
    by_cases hn : n < inputs.length
    · rw [foldl_take_succ hn]
      exact hstep n hn ih
    · rwa [List.take_of_length_le (by omega), ← List.take_of_length_le (Nat.le_of_not_lt hn)]

/-- What holds at every step of a run holds at those of its beginning and at its last. -/
theorem forall_take_concat {P : List Input → Input → Prop} {x : Input} :
    (∀ n (hn : n < (inputs ++ [x]).length), P ((inputs ++ [x]).take n) (inputs ++ [x])[n]) ↔
      (∀ n (hn : n < inputs.length), P (inputs.take n) inputs[n]) ∧ P inputs x := by
  refine ⟨?_, ?_⟩
  · intro h
    refine ⟨?_, ?_⟩
    · intro n hn
      have hfirst := h n (by rw [List.length_append]; omega)
      rwa [List.take_append_of_le_length (Nat.le_of_lt hn), List.getElem_append_left hn] at hfirst
    · have hlast := h inputs.length (by simp)
      rwa [List.take_left, List.getElem_concat_length rfl] at hlast
  · intro h n hn
    obtain ⟨hfirst, hlast⟩ := h
    rw [List.length_append, List.length_singleton] at hn
    rcases Nat.lt_succ_iff_lt_or_eq.mp hn with hlt | rfl
    · rw [List.take_append_of_le_length (Nat.le_of_lt hlt), List.getElem_append_left hlt]
      exact hfirst n hlt
    · rwa [List.take_left, List.getElem_concat_length rfl]

section Purge

variable {Output : Type} (step : State → Input → State) (emit : State → Input → List Output)
  (keep : State → Input → Bool)

/-- All that a run puts out, input by input. -/
def emitted : State → List Input → List Output
  | _, [] => []
  | s, x :: xs => emit s x ++ emitted (step s x) xs

/-- The inputs of a run that are kept, each judged in the state that it meets. -/
def purge : State → List Input → List Input
  | _, [] => []
  | s, x :: xs => if keep s x then x :: purge (step s x) xs else purge (step s x) xs

variable {step emit keep}

/-- A run does without the inputs that leave its state as it is. -/
theorem foldl_purge (h : ∀ s x, keep s x = false → step s x = s) (s : State) (xs : List Input) :
    (purge step keep s xs).foldl step s = xs.foldl step s := by
  induction xs generalizing s with
  | nil => rfl
  | cons x xs ih =>
    rw [purge]
    cases hkeep : keep s x with
    | true => exact ih (step s x)
    | false =>
      have hsame := ih (step s x)
      rw [h s x hkeep] at hsame
      rw [if_neg Bool.false_ne_true, List.foldl_cons, h s x hkeep, hsame]

theorem emitted_purge (h : ∀ s x, keep s x = false → step s x = s ∧ emit s x = []) (s : State)
    (xs : List Input) : emitted step emit s (purge step keep s xs) = emitted step emit s xs := by
  induction xs generalizing s with
  | nil => rfl
  | cons x xs ih =>
    rw [purge]
    cases hkeep : keep s x with
    | true => exact congrArg (emit s x ++ ·) (ih (step s x))
    | false =>
      obtain ⟨hstep, hemit⟩ := h s x hkeep
      have hsame := ih (step s x)
      rw [hstep] at hsame
      rw [if_neg Bool.false_ne_true, emitted, hstep, hemit, hsame, List.nil_append]

end Purge

end Run
