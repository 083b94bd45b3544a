import Mathlib.Data.Finset.Insert
import Mathlib.Data.List.Perm.Lattice
import Mathlib.Data.List.ReduceOption

namespace OnceFilter

variable {α κ β : Type} [DecidableEq κ]

variable (check : α → Option (κ × β))

/-- A receiver that accepts each identity at most once, and remembers accepted identities only.
`check` names the identity and the payload of an input that is acceptable in itself. -/
def step (seen : Finset κ) (x : α) : Option (κ × β) × Finset κ :=
  match check x with
  | none => (none, seen)
  | some (k, b) => if k ∈ seen then (none, seen) else (some (k, b), insert k seen)

def run : Finset κ → List α → List (Option (κ × β))
  | _, [] => []
  | seen, x :: xs => (step check seen x).1 :: run (step check seen x).2 xs

def seenAfter (seen : Finset κ) (xs : List α) : Finset κ :=
  xs.foldl (fun seen x ↦ (step check seen x).2) seen

theorem step_some {seen : Finset κ} {x : α} {k : κ} {b : β} :
    (step check seen x).1 = some (k, b) ↔ check x = some (k, b) ∧ k ∉ seen := by
  rw [step]
  split
  · simp_all
  · rename_i k' b' h
    split_ifs with hk
    · simp only [h, Option.some.injEq, Prod.mk.injEq, false_iff]
      intro h
      obtain ⟨⟨rfl, rfl⟩, hn⟩ := h
      exact hn hk
    · simp only [h, Option.some.injEq, Prod.mk.injEq]
      exact ⟨fun he ↦ ⟨he, he.1 ▸ hk⟩, And.left⟩

theorem mem_step {seen : Finset κ} {x : α} {k : κ} :
    k ∈ (step check seen x).2 ↔ k ∈ seen ∨ ∃ b, (step check seen x).1 = some (k, b) := by
  rw [step]
  split
  · simp
  · split_ifs with hk
    · simp
    · simp [or_comm, eq_comm]

theorem step_none {seen : Finset κ} {x : α} (h : (step check seen x).1 = none) :
    (step check seen x).2 = seen := by
  ext k
  simp [mem_step, h]

theorem step_insert {seen : Finset κ} {x : α} {k : κ} {b : β}
    (h : (step check seen x).1 = some (k, b)) : (step check seen x).2 = insert k seen := by
  ext k'
  simp [mem_step, h, or_comm, eq_comm]

@[simp] theorem length_run (seen : Finset κ) (xs : List α) :
    (run check seen xs).length = xs.length := by
  induction xs generalizing seen with
  | nil => rfl
  | cons x xs ih => rw [run, List.length_cons, ih, List.length_cons]

theorem mem_seenAfter {seen : Finset κ} {xs : List α} {k : κ} :
    k ∈ seenAfter check seen xs ↔ k ∈ seen ∨ ∃ b, some (k, b) ∈ run check seen xs := by
  induction xs generalizing seen with
  | nil => simp [seenAfter, run]
  | cons x xs ih =>
    have h := @ih (step check seen x).2
    rw [seenAfter, List.foldl_cons]
    simp only [seenAfter] at h
    rw [h, mem_step]
    simp only [run, List.mem_cons, exists_or, or_assoc, eq_comm]

theorem getElem?_run {seen : Finset κ} {xs : List α} {i : ℕ} {x : α} (h : xs[i]? = some x) :
    (run check seen xs)[i]? = some (step check (seenAfter check seen (xs.take i)) x).1 := by
  induction xs generalizing seen i with
  | nil => simp at h
  | cons y xs ih =>
    cases i with
    | zero =>
      obtain rfl : y = x := by simpa using h
      rfl
    | succ i => simpa [run, seenAfter] using @ih (step check seen y).2 i (by simpa using h)

theorem run_take (seen : Finset κ) (xs : List α) (i : ℕ) :
    run check seen (xs.take i) = (run check seen xs).take i := by
  induction xs generalizing seen i with
  | nil => simp [run]
  | cons x xs ih =>
    cases i with
    | zero => rfl
    | succ i => simp only [List.take_succ_cons, run, ih]

/-- Position by position: an input is accepted exactly when it is acceptable in itself and no
earlier accepted input has its identity. -/
theorem accepted_iff {xs : List α} {i : ℕ} {x : α} (h : xs[i]? = some x) (k : κ) (b : β) :
    (run check ∅ xs)[i]? = some (some (k, b)) ↔
      check x = some (k, b) ∧ ∀ j < i, ∀ b', (run check ∅ xs)[j]? ≠ some (some (k, b')) := by
  rw [getElem?_run check h, Option.some_inj, step_some, mem_seenAfter, run_take]
  refine and_congr_right fun _ ↦ ?_
  simp only [Finset.notMem_empty, false_or, not_exists, List.mem_iff_getElem?, List.getElem?_take]
  refine ⟨?_, ?_⟩
  · intro hn j hj b' he
    exact hn b' j (by rw [if_pos hj, he])
  · intro hn b' j he
    split_ifs at he with hj
    exact hn j hj b' he

def accepted (seen : Finset κ) (xs : List α) : List (κ × β) := (run check seen xs).reduceOption

theorem mem_accepted {seen : Finset κ} {xs : List α} {a : κ × β} :
    a ∈ accepted check seen xs ↔ some a ∈ run check seen xs :=
  List.reduceOption_mem_iff

theorem notMem_seen_of_accepted {seen : Finset κ} {xs : List α} {a : κ × β}
    (h : a ∈ accepted check seen xs) : a.1 ∉ seen := by
  induction xs generalizing seen with
  | nil => simp [accepted, run] at h
  | cons x xs ih =>
    rw [mem_accepted, run, List.mem_cons] at h
    rcases h with h | h
    · exact ((step_some check).mp h.symm).2
    · exact fun hseen ↦ ih ((mem_accepted check).mpr h) ((mem_step check).mpr (Or.inl hseen))

theorem accepted_cons (seen : Finset κ) (x : α) (xs : List α) :
    accepted check seen (x :: xs) =
      (step check seen x).1.toList ++ accepted check (step check seen x).2 xs := by
  rw [accepted, run]
  cases h : (step check seen x).1 <;> simp [accepted]

theorem nodup_accepted (seen : Finset κ) (xs : List α) :
    ((accepted check seen xs).map Prod.fst).Nodup := by
  induction xs generalizing seen with
  | nil => simp [accepted, run]
  | cons x xs ih =>
    rw [accepted_cons]
    cases h : (step check seen x).1 with
    | none => simpa using ih (step check seen x).2
    | some a =>
      have hmem : a.1 ∈ (step check seen x).2 := (mem_step check).mpr (Or.inr ⟨a.2, h⟩)
      simp only [Option.toList_some, List.singleton_append, List.map_cons, List.nodup_cons,
        ih (step check seen x).2, and_true, List.mem_map, not_exists, not_and]
      intro a' ha' heq
      exact notMem_seen_of_accepted check ha' (heq ▸ hmem)

theorem check_of_mem_accepted {xs : List α} {a : κ × β} (h : a ∈ accepted check ∅ xs) :
    ∃ x ∈ xs, check x = some a := by
  obtain ⟨i, hi⟩ := List.mem_iff_getElem?.mp ((mem_accepted check).mp h)
  have hlt := (List.getElem?_eq_some_iff.mp hi).1
  rw [length_run] at hlt
  have hx : xs[i]? = some xs[i] := List.getElem?_eq_getElem hlt
  exact ⟨xs[i], List.getElem_mem hlt, ((accepted_iff check hx a.1 a.2).mp hi).1⟩

/-- When an identity has one payload in the whole input, the accepted ones are just the
acceptable ones. -/
theorem mem_accepted_iff {xs : List α}
    (huniq : ∀ x ∈ xs, ∀ y ∈ xs, ∀ k b b', check x = some (k, b) → check y = some (k, b') → b = b')
    {k : κ} {b : β} : (k, b) ∈ accepted check ∅ xs ↔ ∃ x ∈ xs, check x = some (k, b) := by
  refine ⟨check_of_mem_accepted check, fun ⟨x, hx, hc⟩ ↦ ?_⟩
  obtain ⟨i, hi⟩ := List.mem_iff_getElem?.mp hx
  by_cases hearlier : ∃ b', (k, b') ∈ accepted check ∅ xs
  · obtain ⟨b', hb'⟩ := hearlier
    obtain ⟨y, hy, hcy⟩ := check_of_mem_accepted check hb'
    rwa [huniq x hx y hy k b b' hc hcy]
  · have hfirst : (run check ∅ xs)[i]? = some (some (k, b)) := by
      apply (accepted_iff check hi k b).mpr
      refine ⟨hc, fun j _ b' hj ↦ hearlier ⟨b', ?_⟩⟩
      exact (mem_accepted check).mpr (List.mem_of_getElem? hj)
    exact (mem_accepted check).mpr (List.mem_of_getElem? hfirst)

/-- Where all acceptable inputs are one and the same, at most one is accepted. -/
theorem accepted_of_single {xs : List α} {a : κ × β} (h : ∀ x ∈ xs, ∀ b, check x = some b → b = a)
    [Decidable (∃ x ∈ xs, check x = some a)] :
    accepted check ∅ xs = if ∃ x ∈ xs, check x = some a then [a] else [] := by
  have hmem (b : κ × β) : b ∈ accepted check ∅ xs ↔ ∃ x ∈ xs, check x = some b := by
    refine mem_accepted_iff check ?_
    intro x hx y hy k b b' hb hb'
    exact (Prod.mk.inj ((h x hx _ hb).trans (h y hy _ hb').symm)).2
  have hnodup := (nodup_accepted check ∅ xs).of_map
  split_ifs with ha
  · apply List.perm_singleton.mp
    refine (List.perm_ext_iff_of_nodup hnodup (List.nodup_singleton a)).mpr fun b ↦ ?_
    rw [hmem, List.mem_singleton]
    refine ⟨?_, ?_⟩
    · intro hb
      obtain ⟨x, hx, hb⟩ := hb
      exact h x hx b hb
    · rintro rfl
      exact ha
  · apply List.eq_nil_iff_forall_not_mem.mpr
    intro b hb
    obtain ⟨x, hx, hb⟩ := (hmem b).mp hb
    exact ha ⟨x, hx, h x hx b hb ▸ hb⟩

/-- What is accepted depends on the set of acceptable inputs, not on their order or number. -/
theorem accepted_perm {xs ys : List α}
    (huniq : ∀ x ∈ xs, ∀ y ∈ xs, ∀ k b b', check x = some (k, b) → check y = some (k, b') → b = b')
    (hsame : ∀ a, (∃ x ∈ xs, check x = some a) ↔ ∃ y ∈ ys, check y = some a) :
    (accepted check ∅ xs).Perm (accepted check ∅ ys) := by
  have huniq' : ∀ x ∈ ys, ∀ y ∈ ys, ∀ k b b', check x = some (k, b) → check y = some (k, b') →
      b = b' := by
    intro x hx y hy k b b' hxb hyb
    obtain ⟨x', hx', hxb'⟩ := (hsame (k, b)).mpr ⟨x, hx, hxb⟩
    obtain ⟨y', hy', hyb'⟩ := (hsame (k, b')).mpr ⟨y, hy, hyb⟩
    exact huniq x' hx' y' hy' k b b' hxb' hyb'
  refine (List.perm_ext_iff_of_nodup (nodup_accepted check ∅ xs).of_map
    (nodup_accepted check ∅ ys).of_map).mpr ?_
  intro h
  obtain ⟨k, b⟩ := h
  rw [mem_accepted_iff check huniq, mem_accepted_iff check huniq', hsame]

end OnceFilter
