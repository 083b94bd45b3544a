import Mathlib.Data.Set.Insert

/-- A counter that threads increment by reading it and writing later what they read plus one: its
value, the values that are read and not yet written back, and the number of writes. -/
structure RacyCounter where
  value : ℕ
  held : Set ℕ
  writes : ℕ

namespace RacyCounter

/-- What an action may do to the counter: read it, at most, or write it. -/
inductive Step (c c' : RacyCounter) : Prop
  | read (hvalue : c'.value = c.value) (hheld : c'.held ⊆ insert c.value c.held)
    (hwrites : c'.writes = c.writes)
  | write (v : ℕ) (hv : v ∈ c.held) (hvalue : c'.value = v + 1) (hheld : c'.held ⊆ c.held)
    (hwrites : c'.writes = c.writes + 1)

structure Bounded (c : RacyCounter) : Prop where
  value : c.value ≤ c.writes
  held : ∀ v ∈ c.held, v ≤ c.writes

/-- A write has been lost, and no thread holds what would make up for it. -/
structure Lost (c : RacyCounter) : Prop where
  value : c.value < c.writes
  held : ∀ v ∈ c.held, v < c.writes

/-- A write makes the counter one more than it is. -/
def Faithful (c c' : RacyCounter) : Prop := c'.writes = c.writes ∨ c'.value = c.value + 1

variable {c c' : RacyCounter}

theorem Bounded.step (hb : c.Bounded) (h : Step c c') : c'.Bounded := by
  cases h with
  | read hvalue hheld hwrites =>
    refine ⟨by rw [hvalue, hwrites]; exact hb.value, fun v hv ↦ ?_⟩
    rw [hwrites]
    rcases hheld hv with rfl | hv
    · exact hb.value
    · exact hb.held v hv
  | write v hv hvalue hheld hwrites =>
    refine ⟨by rw [hvalue, hwrites]; exact Nat.succ_le_succ (hb.held v hv), fun w hw ↦ ?_⟩
    rw [hwrites]
    exact (hb.held w (hheld hw)).trans (Nat.le_succ _)

/-- A reset takes nothing from the threads that hold a value. -/
theorem Bounded.reset (hb : c.Bounded) (hvalue : c'.value = 0) (hheld : c'.held ⊆ c.held)
    (hwrites : c'.writes = c.writes) : c'.Bounded :=
  ⟨by rw [hvalue]; exact Nat.zero_le _, fun v hv ↦ hwrites ▸ hb.held v (hheld hv)⟩

theorem Lost.step (hl : c.Lost) (h : Step c c') : c'.Lost := by
  cases h with
  | read hvalue hheld hwrites =>
    refine ⟨by rw [hvalue, hwrites]; exact hl.value, fun v hv ↦ ?_⟩
    rw [hwrites]
    rcases hheld hv with rfl | hv
    · exact hl.value
    · exact hl.held v hv
  | write v hv hvalue hheld hwrites =>
    refine ⟨by rw [hvalue, hwrites]; exact Nat.succ_lt_succ (hl.held v hv), fun w hw ↦ ?_⟩
    rw [hwrites]
    exact (hl.held w (hheld hw)).trans (Nat.lt_succ_self _)

theorem lost_of_not_faithful (hb : c.Bounded) (hexact : c.value = c.writes) (h : Step c c')
    (hf : ¬ Faithful c c') : c'.Lost := by
  obtain ⟨hwrites', hvalue'⟩ := not_or.mp hf
  cases h with
  | read hvalue hheld hwrites => exact absurd hwrites hwrites'
  | write v hv hvalue hheld hwrites =>
    have hle := hb.held v hv
    refine ⟨by omega, fun w hw ↦ ?_⟩
    have hw' := hb.held w (hheld hw)
    omega

theorem exact_of_faithful (hexact : c.value = c.writes) (h : Step c c') (hf : Faithful c c') :
    c'.value = c'.writes := by
  cases h with
  | read hvalue hheld hwrites => rw [hvalue, hwrites, hexact]
  | write v hv hvalue hheld hwrites =>
    rcases hf with hsame | hnext
    · omega
    · rw [hnext, hwrites, hexact]

/-- The counter counts its writes exactly when each of them was faithful: one that is lost is never
made up for. -/
theorem exact_iff {c : ℕ → RacyCounter} (hb : (c 0).Bounded) (hexact : (c 0).value = (c 0).writes)
    {k : ℕ} (hsteps : ∀ n < k, Step (c n) (c (n + 1))) :
    (c k).value = (c k).writes ↔ ∀ n < k, Faithful (c n) (c (n + 1)) := by
  have hall : (c k).Bounded ∧ (((∀ n < k, Faithful (c n) (c (n + 1))) ∧
      (c k).value = (c k).writes) ∨
      ((¬ ∀ n < k, Faithful (c n) (c (n + 1))) ∧ (c k).Lost)) := by
    induction k with
    | zero => exact ⟨hb, Or.inl ⟨nofun, hexact⟩⟩
    | succ k ih =>
      obtain ⟨hbounded, hcases⟩ := ih fun n hn ↦ hsteps n (hn.trans (Nat.lt_succ_self k))
      have hstep := hsteps k (Nat.lt_succ_self k)
      refine ⟨hbounded.step hstep, ?_⟩
      rw [Nat.forall_lt_succ_right]
      rcases hcases with ⟨hfaithful, hexact⟩ | ⟨hfaithful, hlost⟩
      · by_cases hlast : Faithful (c k) (c (k + 1))
        · exact Or.inl ⟨⟨hfaithful, hlast⟩, exact_of_faithful hexact hstep hlast⟩
        · exact Or.inr ⟨fun h ↦ hlast h.2, lost_of_not_faithful hbounded hexact hstep hlast⟩
      · exact Or.inr ⟨fun h ↦ hfaithful h.1, hlost.step hstep⟩
  rcases hall.2 with ⟨hfaithful, hexact⟩ | ⟨hfaithful, hlost⟩
  · exact iff_of_true hexact hfaithful
  · exact iff_of_false hlost.value.ne hfaithful

end RacyCounter
