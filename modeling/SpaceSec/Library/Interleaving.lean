import Mathlib.Data.List.Basic
import Mathlib.Data.Nat.Basic
import Mathlib.Logic.Function.Iterate

/-- Threads over a state that they share. -/
structure Pool (S L : Type) where
  shared : S
  threads : List L

namespace Pool

variable {S L : Type} (step : S → L → S × L)

/-- One atomic action of the `i`-th thread. -/
def turn (p : Pool S L) (i : ℕ) : Pool S L :=
  match p.threads[i]? with
  | none => p
  | some l => ⟨(step p.shared l).1, p.threads.set i (step p.shared l).2⟩

def run (p : Pool S L) (schedule : List ℕ) : Pool S L := schedule.foldl (turn step) p

/-- What a thread comes to when it is given `n` actions on end. -/
def alone (n : ℕ) (s : S) (l : L) : S × L := (fun x ↦ step x.1 x.2)^[n] (s, l)

/-- The schedule that gives `n` actions on end to each of the `k` threads from the `i`-th on. -/
def serial (n i : ℕ) : ℕ → List ℕ
  | 0 => []
  | k + 1 => List.replicate n i ++ serial n (i + 1) k

/-- The threads one after another, each given `n` actions. -/
def oneByOne (n : ℕ) : S → List L → S × List L
  | s, [] => (s, [])
  | s, l :: ls =>
    let (s, l) := alone step n s l
    let (s, ls) := oneByOne n s ls
    (s, l :: ls)

variable {step} {p : Pool S L}

theorem turn_append (s : S) (xs ys : List L) (l : L) :
    turn step ⟨s, xs ++ l :: ys⟩ xs.length = ⟨(step s l).1, xs ++ (step s l).2 :: ys⟩ := by
  simp [turn]

theorem turn_none {i : ℕ} (h : p.threads[i]? = none) : p.turn step i = p := by
  rw [turn, h]

/-- A thread acts between those before it and those after it. -/
theorem turn_some {i : ℕ} {l : L} (h : p.threads[i]? = some l) :
    ∃ xs ys, p.threads = xs ++ l :: ys ∧
      p.turn step i = ⟨(step p.shared l).1, xs ++ (step p.shared l).2 :: ys⟩ := by
  obtain ⟨s, threads⟩ := p
  obtain ⟨hi, rfl⟩ := List.getElem?_eq_some_iff.mp h
  have hsplit : threads = threads.take i ++ threads[i] :: threads.drop (i + 1) := by simp
  refine ⟨_, _, hsplit, ?_⟩
  have hturn := @turn_append _ _ step s (threads.take i) (threads.drop (i + 1)) threads[i]
  rwa [List.length_take_of_le (Nat.le_of_lt hi), ← hsplit] at hturn

/-- What each thread relies on holds as long as its own actions establish it and those of the others
do not interfere with it. -/
theorem forall_turn {Q : S → L → Prop} (hown : ∀ s l, Q s l → Q (step s l).1 (step s l).2)
    (hother : ∀ s l m, Q s l → Q s m → Q (step s l).1 m) (h : ∀ l ∈ p.threads, Q p.shared l)
    (i : ℕ) : ∀ l ∈ (p.turn step i).threads, Q (p.turn step i).shared l := by
  cases hget : p.threads[i]? with
  | none => rwa [turn_none hget]
  | some l =>
    obtain ⟨xs, ys, hthreads, hturn⟩ := @turn_some _ _ step _ _ _ hget
    rw [hthreads] at h
    obtain ⟨hxs, hrest⟩ := List.forall_mem_append.mp h
    obtain ⟨hl, hys⟩ := List.forall_mem_cons.mp hrest
    rw [hturn]
    exact List.forall_mem_append.mpr ⟨fun m hm ↦ hother _ l m hl (hxs m hm),
      List.forall_mem_cons.mpr ⟨hown _ l hl, fun m hm ↦ hother _ l m hl (hys m hm)⟩⟩

theorem forall_run {Q : S → L → Prop} (hown : ∀ s l, Q s l → Q (step s l).1 (step s l).2)
    (hother : ∀ s l m, Q s l → Q s m → Q (step s l).1 m) (h : ∀ l ∈ p.threads, Q p.shared l)
    (schedule : List ℕ) :
    ∀ l ∈ (p.run step schedule).threads, Q (p.run step schedule).shared l := by
  induction schedule generalizing p with
  | nil => exact h
  | cons i schedule ih => exact ih (forall_turn hown hother h i)

theorem run_replicate (n : ℕ) (s : S) (xs ys : List L) (l : L) :
    run step ⟨s, xs ++ l :: ys⟩ (List.replicate n xs.length) =
      ⟨(alone step n s l).1, xs ++ (alone step n s l).2 :: ys⟩ := by
  induction n generalizing s l with
  | zero => rfl
  | succ n ih =>
    rw [List.replicate_succ, run, List.foldl_cons, turn_append]
    exact ih (step s l).1 (step s l).2

/-- The serial schedules are schedules. -/
theorem run_serial (n : ℕ) (s : S) (xs ls : List L) :
    run step ⟨s, xs ++ ls⟩ (serial n xs.length ls.length) =
      ⟨(oneByOne step n s ls).1, xs ++ (oneByOne step n s ls).2⟩ := by
  induction ls generalizing s xs with
  | nil => rfl
  | cons l ls ih =>
    have hrest := ih (alone step n s l).1 (xs ++ [(alone step n s l).2])
    rw [List.length_append, List.length_singleton, List.append_assoc, List.singleton_append]
      at hrest
    rw [List.length_cons, serial, run, List.foldl_append]
    change run step (run step _ _) _ = _
    rw [run_replicate, hrest, oneByOne, List.append_assoc, List.singleton_append]

end Pool
