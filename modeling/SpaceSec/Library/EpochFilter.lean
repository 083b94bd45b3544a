import SpaceSec.Library.OnceFilter
import Mathlib.Algebra.GroupWithZero.Nat

namespace OnceFilter

variable {ι α κ β : Type} [DecidableEq κ]

inductive EpochInput (ι α : Type)
  | renew (epoch : ι)
  | offer (x : α)

structure Epoch (ι κ : Type) where
  current : ι
  seen : Finset κ := ∅

namespace Epoch

variable (check : ι → α → Option (κ × β))

def step (e : Epoch ι κ) : EpochInput ι α → Option (κ × β) × Epoch ι κ
  | .renew epoch => (none, ⟨epoch, ∅⟩)
  | .offer x =>
    ((OnceFilter.step (check e.current) e.seen x).1,
      ⟨e.current, (OnceFilter.step (check e.current) e.seen x).2⟩)

def after (e : Epoch ι κ) (inputs : List (EpochInput ι α)) : Epoch ι κ :=
  inputs.foldl (fun e i ↦ (e.step check i).2) e

/-- Everything accepted in a run, each with the epoch it was accepted in. -/
def log (e : Epoch ι κ) : List (EpochInput ι α) → List (ι × κ × β)
  | [] => []
  | i :: is => ((e.step check i).1.toList.map (e.current, ·)) ++ (e.step check i).2.log is

theorem log_append (e : Epoch ι κ) (is js : List (EpochInput ι α)) :
    e.log check (is ++ js) = e.log check is ++ (e.after check is).log check js := by
  induction is generalizing e with
  | nil => rfl
  | cons i is ih => simp only [List.cons_append, log, ih, after, List.foldl_cons, List.append_assoc]

theorem log_concat (e : Epoch ι κ) (is : List (EpochInput ι α)) (i : EpochInput ι α) :
    e.log check (is ++ [i]) = e.log check is ++
      ((e.after check is).step check i).1.toList.map ((e.after check is).current, ·) := by
  simp [log_append, log]

theorem after_concat (e : Epoch ι κ) (is : List (EpochInput ι α)) (i : EpochInput ι α) :
    e.after check (is ++ [i]) = ((e.after check is).step check i).2 := by
  simp [after]

def identity (a : ι × κ × β) : ι × κ := (a.1, a.2.1)

/-- What the memory knows about the log: it holds the identities of the current epoch, all of
them, and the log repeats no identity within an epoch. -/
structure Faithful (e : Epoch ι κ) (log : List (ι × κ × β)) : Prop where
  nodup : (log.map identity).Nodup
  mem_seen : ∀ k, k ∈ e.seen ↔ (e.current, k) ∈ log.map identity

omit [DecidableEq κ] in
theorem Faithful.renew {e : Epoch ι κ} {log : List (ι × κ × β)} (h : e.Faithful log) (epoch : ι)
    (hnew : ∀ a ∈ log, a.1 ≠ epoch) : Faithful ⟨epoch, ∅⟩ log where
  nodup := h.nodup
  mem_seen k := by
    simp only [Finset.notMem_empty, false_iff, List.mem_map, not_exists, not_and]
    intro a ha heq
    exact hnew a ha (congrArg Prod.fst heq)

theorem Faithful.offer {e : Epoch ι κ} {log : List (ι × κ × β)} (h : e.Faithful log) (x : α) :
    Faithful ⟨e.current, (OnceFilter.step (check e.current) e.seen x).2⟩
      (log ++ (OnceFilter.step (check e.current) e.seen x).1.toList.map (e.current, ·)) := by
  cases hs : (OnceFilter.step (check e.current) e.seen x).1 with
  | none => simpa [step_none _ hs] using h
  | some a =>
    have hnew := ((step_some _).mp hs).2
    refine ⟨?_, ?_⟩
    · simp only [Option.toList_some, List.map_cons, List.map_nil, List.map_append, identity,
        List.nodup_append, h.nodup, List.nodup_singleton, List.mem_singleton, true_and]
      rintro b hb c rfl rfl
      exact hnew ((h.mem_seen a.1).mpr hb)
    · intro k
      simp [mem_step, hs, h.mem_seen, identity, Prod.ext_iff, eq_comm]

/-- No identity is accepted twice in one epoch, provided that no epoch is renewed that already
accepted something. -/
theorem faithful_run (epoch : ι) (inputs : List (EpochInput ι α))
    (hrenew : ∀ pre epoch' post, inputs = pre ++ .renew epoch' :: post →
      ∀ a ∈ log check ⟨epoch, ∅⟩ pre, a.1 ≠ epoch') :
    (after check ⟨epoch, ∅⟩ inputs).Faithful (log check ⟨epoch, ∅⟩ inputs) := by
  induction inputs using List.reverseRecOn with
  | nil => exact ⟨List.nodup_nil, fun k ↦ by simp [after, log]⟩
  | append_singleton is i ih =>
    have h := ih fun pre epoch' post heq ↦ hrenew pre epoch' (post ++ [i]) (by simp [heq])
    rw [after_concat, log_concat]
    cases i with
    | renew epoch' => simpa [step] using h.renew epoch' (hrenew is epoch' [] rfl)
    | offer x => exact h.offer check x

def renews [DecidableEq ι] (epoch : ι) : EpochInput ι α → Bool
  | .renew epoch' => epoch' = epoch
  | .offer _ => false

/-- An identity is accepted at most once for each time that its epoch begins. -/
theorem count_log_le [DecidableEq ι] (e : Epoch ι κ) (inputs : List (EpochInput ι α)) (epoch : ι)
    (k : κ) : (e.log check inputs).countP (identity · = (epoch, k)) ≤
      (if e.current = epoch ∧ k ∉ e.seen then 1 else 0) + inputs.countP (renews epoch) := by
  induction inputs generalizing e with
  | nil => exact Nat.zero_le _
  | cons i is ih =>
    have hrest := ih (e.step check i).2
    rw [log, List.countP_append, List.countP_cons]
    cases i with
    | renew epoch' =>
      simp only [step, Finset.notMem_empty, not_false_eq_true, and_true, Option.toList_none,
        List.map_nil, List.countP_nil, renews, decide_eq_true_eq] at hrest ⊢
      omega
    | offer x =>
      simp only [renews, Bool.false_eq_true, if_false]
      cases hs : (OnceFilter.step (check e.current) e.seen x).1 with
      | none =>
        simp only [step, hs, step_none _ hs, Option.toList_none, List.map_nil,
          List.countP_nil] at hrest ⊢
        omega
      | some a =>
        have hnew := ((step_some _).mp hs).2
        simp only [step, hs, step_insert _ hs, Option.toList_some, List.map_cons, List.map_nil,
          List.countP_singleton, identity, Prod.mk.injEq, decide_eq_true_eq,
          Finset.mem_insert] at hrest ⊢
        -- either this is the acceptance that the bound counts, or it changes nothing for `k`
        by_cases hk : e.current = epoch ∧ a.1 = k
        · obtain ⟨rfl, rfl⟩ := hk
          simp only [true_or, not_true_eq_false, and_false, if_false] at hrest
          simp only [hnew, not_false_eq_true, and_self, if_true]
          omega
        · rw [if_neg hk]
          have hle : (if e.current = epoch ∧ ¬ (k = a.1 ∨ k ∈ e.seen) then 1 else 0) ≤
              if e.current = epoch ∧ k ∉ e.seen then 1 else 0 := by
            split_ifs with h h'
            · exact le_rfl
            · exact absurd ⟨h.1, fun hseen ↦ h.2 (Or.inr hseen)⟩ h'
            · exact Nat.zero_le _
            · exact le_rfl
          omega

end Epoch

/-- What is accepted is no more than its count over all that was issued. -/
theorem countP_le_sum_issued {accepted : List α} {issued : List κ} (key : α → κ) (p : α → Bool)
    (hissued : ∀ x ∈ accepted, p x → key x ∈ issued) :
    accepted.countP p ≤ (issued.map fun k ↦ accepted.countP (key · = k)).sum := by
  induction issued generalizing p with
  | nil =>
    refine Nat.le_of_eq (List.countP_eq_zero.mpr fun x hx hp ↦ ?_)
    exact absurd (hissued x hx hp) List.not_mem_nil
  | cons k issued ih =>
    have hrest := ih (fun x ↦ p x && !decide (key x = k)) fun x hx hp ↦ by
      obtain ⟨hpx, hk⟩ := Bool.and_eq_true_iff.mp hp
      exact List.mem_of_ne_of_mem (by simpa using hk) (hissued x hx hpx)
    have hsplit := List.countP_eq_countP_filter_add accepted p (key · = k)
    have hfirst : (accepted.filter (key · = k)).countP p ≤ accepted.countP (key · = k) :=
      List.countP_le_length.trans_eq List.countP_eq_length_filter.symm
    have hother : (accepted.filter fun x ↦ !decide (key x = k)).countP p =
        accepted.countP fun x ↦ p x && !decide (key x = k) := List.countP_filter
    rw [List.map_cons, List.sum_cons]
    omega

end OnceFilter
