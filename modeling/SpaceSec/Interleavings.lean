import SpaceSec.Library.RacyCounter
import SpaceSec.Threads

namespace SpaceSec.Dashboard

open Python

/-- Whether the event is one that the counter counts. -/
def Counter.counts : Counter → Dict → Bool
  | accepted, e => isAccepted e
  | rejected, e => !isAccepted e
  | n, e => isAccepted e && (latencyOf e).isSome

namespace Thread

/-- The event that the thread has stored. -/
def stored? : Thread → Option Dict
  | done (.stored e) => some e
  | _ => none

/-- Whether the thread has incremented the counter. -/
def hasCounted (x : Counter) : Thread → Bool
  | load .n _ | store .n _ _ | loadMs _ _ | storeMs _ _ | done (.overflowed _ _) => x = .accepted
  | append e | done (.stored e) => x.counts e
  | _ => false

/-- What the thread's next action writes to the counter. -/
def writes? (x : Counter) : Thread → Option ℕ
  | store y v _ => if y = x then some (v + 1) else none
  | zero y => if y = x then some 0 else none
  | _ => none

def isStore (x : Counter) : Thread → Bool
  | store y _ _ => y = x
  | _ => false

/-- The call is answered, and what it counted is stored. -/
def Settled (l : Thread) : Prop :=
  ∃ answer, l = done answer ∧ ∀ e ex, answer ≠ .overflowed e ex

/-- What is known of the event that a thread counts. -/
def Valid : Thread → Prop
  | load x e | store x _ e => x.counts e = true
  | loadMs _ e | storeMs _ e => Counter.n.counts e = true
  | _ => True

def Resets : Thread → Prop
  | clear | zero _ | zeroMs => True
  | _ => False

/-- Whether the thread is about to divide. -/
def Averages : Thread → Prop
  | loadSum _ _ | loadN _ _ _ => True
  | _ => False

/-- The events and the counts that the thread has read so far for a response. -/
def seen : Thread → List Dict × ℕ × ℕ
  | checkEvents recent | listWindow recent | checkN recent _ | loadSum recent _ | loadN recent _ _
  | loadAccepted recent _ _ => (recent, 0, 0)
  | loadRejected recent _ _ accepted => (recent, accepted, 0)
  | done (.shown response) => (response.recent, response.accepted, response.rejected)
  | _ => ([], 0, 0)

end Thread

namespace Server

def next (p : Server) (i : ℕ) : Server := p.turn Thread.step i

def stored (p : Server) : List Dict := p.threads.filterMap Thread.stored?

def counted (p : Server) (x : Counter) : ℕ := p.threads.countP (Thread.hasCounted x)

/-- The next action of the `i`-th thread overwrites the counter with another number than the next
one. -/
def Loses (x : Counter) (p : Server) (i : ℕ) : Prop :=
  ∃ v e, p.threads[i]? = some (.store x v e) ∧ v ≠ x.get p.shared

/-- The counter, as the threads share it. -/
def racy (x : Counter) (p : Server) : RacyCounter where
  value := x.get p.shared
  held := {v | ∃ e, .store x v e ∈ p.threads}
  writes := p.counted x

end Server

theorem withSeverity_ne_zeroDivisionError (e : Dict) :
    withSeverity e ≠ .error .zeroDivisionError := by
  rw [withSeverity, inValidSeverities]
  split_ifs
  · cases validSeverities.any (severityOf e).eqStr with
    | true => exact fun h ↦ by cases h
    | false =>
      change (severityOfReason ((Dict.get e (str "reason")).getD (.str []))).bind _ ≠ _
      rw [severityOfReason]
      split_ifs <;> exact fun h ↦ by cases h
  · exact fun h ↦ by cases h

theorem fillDefaults_ne_zeroDivisionError (nowMs : ℤ) (body : Option Value) :
    fillDefaults nowMs body ≠ .error .zeroDivisionError := by
  rw [fillDefaults_eq]
  cases bodyDict body with
  | none => exact fun h ↦ by cases h
  | some e => exact withSeverity_ne_zeroDivisionError _

@[simp] theorem Counter.get_set (x y : Counter) (v : ℕ) (s : State) :
    x.get (y.set v s) = if x = y then v else x.get s := by
  cases x <;> cases y <;> rfl

@[simp] theorem Counter.events_set (x : Counter) (v : ℕ) (s : State) :
    (x.set v s).events = s.events := by
  cases x <;> rfl

namespace Thread

variable {s : State} {l : Thread}

/-- A call that is not refused at once begins with one of three accesses. -/
theorem start_cases (call : Call) :
    (∃ ex, ex ≠ .zeroDivisionError ∧ start call = done (.raised ex)) ∨
      (∃ e, start call = load (if isAccepted e then .accepted else .rejected) e) ∨
      (call = .request .reset ∧ start call = clear) ∨
      (call = .state ∧ start call = listRecent) := by
  rcases call with ⟨nowMs, body⟩ | - | -
  · rw [start]
    cases hfill : fillDefaults nowMs body with
    | error ex =>
      refine Or.inl ⟨ex, ?_, rfl⟩
      rintro rfl
      exact fillDefaults_ne_zeroDivisionError nowMs body hfill
    | ok e =>
      simp only
      cases htype : Dict.getItem e (str "type") with
      | error ex =>
        refine Or.inl ⟨ex, ?_, rfl⟩
        rintro rfl
        rw [Dict.getItem] at htype
        split at htype <;> cases htype
      | ok type => exact Or.inr (Or.inl ⟨e, by simp only [eqStr_of_getItem htype]⟩)
  · exact Or.inr (Or.inr (Or.inl ⟨rfl, rfl⟩))
  · exact Or.inr (Or.inr (Or.inr ⟨rfl, rfl⟩))

theorem valid_load (e : Dict) :
    (load (if isAccepted e then .accepted else .rejected) e).Valid := by
  cases haccepted : isAccepted e <;> simp [Valid, Counter.counts, haccepted]

theorem valid_start (call : Call) : (start call).Valid := by
  rcases start_cases call with ⟨ex, -, hstart⟩ | ⟨e, hstart⟩ | ⟨-, hstart⟩ | ⟨-, hstart⟩
  · rw [hstart]
    exact trivial
  · rw [hstart]
    exact valid_load e
  · rw [hstart]
    exact trivial
  · rw [hstart]
    exact trivial

/-- At its start a thread has counted, stored and read nothing. -/
theorem start_fresh (call : Call) : (∀ x, (start call).hasCounted x = false) ∧
    (∀ x v e, start call ≠ store x v e) ∧ (start call).stored? = none ∧
      (start call).seen = ([], 0, 0) := by
  rcases start_cases call with ⟨ex, -, hstart⟩ | ⟨e, hstart⟩ | ⟨-, hstart⟩ | ⟨-, hstart⟩
  · rw [hstart]
    exact ⟨fun _ ↦ rfl, (fun x v e h ↦ by cases h), rfl, rfl⟩
  · rw [hstart]
    refine ⟨fun x ↦ ?_, (fun x v e h ↦ by cases h), rfl, rfl⟩
    cases isAccepted e <;> rfl
  · rw [hstart]
    exact ⟨fun _ ↦ rfl, (fun x v e h ↦ by cases h), rfl, rfl⟩
  · rw [hstart]
    exact ⟨fun _ ↦ rfl, (fun x v e h ↦ by cases h), rfl, rfl⟩

theorem get_step (l : Thread) (x : Counter) (s : State) :
    x.get (l.step s).1 = (l.writes? x).getD (x.get s) := by
  cases l with
  | store y v e =>
    simp only [step, writes?, Counter.get_set, eq_comm]
    split_ifs <;> rfl
  | zero y => cases y <;> cases x <;> rfl
  | loadMs lat e =>
    simp only [step]
    cases s.latencySum.ms.add lat <;> rfl
  | loadN recent link ms =>
    simp only [step]
    cases (ms.truediv (.int s.latencySum.n)).bind Number.round <;> rfl
  | storeMs | append | clear | zeroMs => cases x <;> rfl
  | _ => rfl

theorem hasCounted_step (hv : l.Valid) (x : Counter) (s : State) :
    (l.step s).2.hasCounted x = (l.hasCounted x || l.isStore x) := by
  cases l with
  | store y v e =>
    have hcounts : y.counts e = true := hv
    cases y with
    | accepted =>
      simp only [step]
      cases hlat : latencyOf e <;> cases x <;> simp_all [hasCounted, isStore, Counter.counts]
    | rejected | n => cases x <;> simp_all [step, hasCounted, isStore, Counter.counts]
  | load y e => cases y <;> exact (Bool.or_false _).symm
  | loadMs lat e =>
    simp only [step]
    cases s.latencySum.ms.add lat <;> exact (Bool.or_false _).symm
  | zero y => cases y <;> rfl
  | checkEvents recent =>
    simp only [step]
    split_ifs <;> rfl
  | checkN recent link =>
    simp only [step]
    split_ifs <;> rfl
  | loadN recent link ms =>
    simp only [step]
    cases (ms.truediv (.int s.latencySum.n)).bind Number.round <;> rfl
  | _ => exact (Bool.or_false _).symm

theorem hasCounted_of_isStore {x : Counter} (h : l.isStore x = true) :
    l.hasCounted x = false := by
  cases l with
  | store y v e =>
    obtain rfl := of_decide_eq_true h
    cases y <;> rfl
  | _ => cases h

/-- A thread that is about to write a counter has just read it. -/
theorem step_eq_store {x : Counter} {v : ℕ} {e : Dict} (h : (l.step s).2 = .store x v e) :
    l = .load x e ∧ v = x.get s := by
  cases l with
  | load y e' =>
    obtain ⟨rfl, rfl, rfl⟩ := store.inj h
    exact ⟨rfl, rfl⟩
  | store y w e' =>
    simp only [step] at h
    split at h <;> cases h
  | loadMs lat e' =>
    simp only [step] at h
    split at h <;> cases h
  | zero y => cases y <;> cases h
  | checkEvents recent =>
    simp only [step] at h
    split_ifs at h
  | checkN recent link =>
    simp only [step] at h
    split_ifs at h
  | loadN recent link ms =>
    simp only [step] at h
    split at h <;> cases h
  | _ => cases h

theorem Valid.step (hv : l.Valid) (s : State) : (l.step s).2.Valid := by
  cases l with
  | load x e => exact hv
  | store x v e =>
    cases x with
    | accepted =>
      have hcounts : isAccepted e = true := hv
      simp only [Thread.step]
      cases hlat : latencyOf e with
      | none => exact trivial
      | some lat => simp [Valid, Counter.counts, hcounts, hlat]
    | rejected => exact trivial
    | n => exact trivial
  | loadMs lat e =>
    simp only [Thread.step]
    cases s.latencySum.ms.add lat with
    | error ex => exact trivial
    | ok ms => exact hv
  | storeMs ms e => exact hv
  | zero x => cases x <;> exact trivial
  | checkEvents recent =>
    simp only [Thread.step]
    split_ifs <;> exact trivial
  | checkN recent link =>
    simp only [Thread.step]
    split_ifs <;> exact trivial
  | loadN recent link ms =>
    simp only [Thread.step]
    cases (ms.truediv (.int s.latencySum.n)).bind Number.round <;> exact trivial
  | _ => exact trivial

theorem writes_cases (l : Thread) (x : Counter) :
    (∃ v e, l = .store x v e) ∨ l = .zero x ∨ (l.isStore x = false ∧ l.writes? x = none) := by
  cases l with
  | store y v e =>
    by_cases hy : y = x
    · exact Or.inl ⟨v, e, by rw [hy]⟩
    · exact Or.inr (Or.inr ⟨decide_eq_false hy, if_neg hy⟩)
  | zero y =>
    by_cases hy : y = x
    · exact Or.inr (Or.inl (by rw [hy]))
    · exact Or.inr (Or.inr ⟨rfl, if_neg hy⟩)
  | _ => exact Or.inr (Or.inr ⟨rfl, rfl⟩)

/-- The events change where a thread stores its own, and at a reset. -/
theorem step_events (l : Thread) (s : State) : (∃ e, l = append e) ∨
    ((l.step s).2.stored? = l.stored? ∧ ((l.step s).1.events = s.events ∨
      (l.Resets ∧ (l.step s).1.events = []))) := by
  cases l with
  | append e => exact Or.inl ⟨e, rfl⟩
  | clear => exact Or.inr ⟨rfl, Or.inr ⟨trivial, rfl⟩⟩
  | store x v e =>
    refine Or.inr ⟨?_, Or.inl (Counter.events_set x _ s)⟩
    simp only [step]
    split <;> rfl
  | zero x => cases x <;> exact Or.inr ⟨rfl, Or.inl rfl⟩
  | loadMs lat e =>
    simp only [step]
    cases s.latencySum.ms.add lat <;> exact Or.inr ⟨rfl, Or.inl rfl⟩
  | checkEvents recent =>
    rw [step]
    split_ifs <;> exact Or.inr ⟨rfl, Or.inl rfl⟩
  | checkN recent link =>
    rw [step]
    split_ifs <;> exact Or.inr ⟨rfl, Or.inl rfl⟩
  | loadN recent link ms =>
    simp only [step]
    cases (ms.truediv (.int s.latencySum.n)).bind Number.round <;> exact Or.inr ⟨rfl, Or.inl rfl⟩
  | _ => exact Or.inr ⟨rfl, Or.inl rfl⟩

/-- What a thread sees it has seen before, or it is there. -/
theorem seen_step (l : Thread) (s : State) :
    ((l.step s).2.seen.1 ⊆ l.seen.1 ∨ (l.step s).2.seen.1 ⊆ s.events) ∧
      ((l.step s).2.seen.2.1 ≤ l.seen.2.1 ∨ (l.step s).2.seen.2.1 = s.totals.accepted) ∧
      ((l.step s).2.seen.2.2 ≤ l.seen.2.2 ∨ (l.step s).2.seen.2.2 = s.totals.rejected) := by
  have hsame : l.seen.1 ⊆ l.seen.1 := List.Subset.refl _
  cases l with
  | store x v e =>
    simp only [step]
    split <;> exact ⟨Or.inl hsame, Or.inl le_rfl, Or.inl le_rfl⟩
  | zero x => cases x <;> exact ⟨Or.inl hsame, Or.inl le_rfl, Or.inl le_rfl⟩
  | loadMs lat e =>
    simp only [step]
    cases s.latencySum.ms.add lat <;> exact ⟨Or.inl hsame, Or.inl le_rfl, Or.inl le_rfl⟩
  | listRecent => exact ⟨Or.inr (List.drop_subset _ _), Or.inl le_rfl, Or.inl le_rfl⟩
  | checkEvents recent =>
    simp only [step]
    split_ifs <;> exact ⟨Or.inl hsame, Or.inl le_rfl, Or.inl le_rfl⟩
  | checkN recent link =>
    simp only [step]
    split_ifs <;> exact ⟨Or.inl hsame, Or.inl le_rfl, Or.inl le_rfl⟩
  | loadN recent link ms =>
    simp only [step]
    cases (ms.truediv (.int s.latencySum.n)).bind Number.round with
    | error ex => exact ⟨Or.inl (List.nil_subset _), Or.inl le_rfl, Or.inl le_rfl⟩
    | ok avgLatencyMs => exact ⟨Or.inl hsame, Or.inl le_rfl, Or.inl le_rfl⟩
  | loadAccepted => exact ⟨Or.inl hsame, Or.inr rfl, Or.inl le_rfl⟩
  | loadRejected => exact ⟨Or.inl hsame, Or.inl le_rfl, Or.inr rfl⟩
  | _ => exact ⟨Or.inl hsame, Or.inl le_rfl, Or.inl le_rfl⟩

/-- What a thread relies on where nothing is reset. -/
structure Relies (s : State) (l : Thread) : Prop where
  noReset : ¬ l.Resets
  n : l.Averages → s.latencySum.n ≠ 0
  divides : l ≠ done (.raised .zeroDivisionError)

theorem Relies.inactive (hreset : ¬ l.Resets) (haverages : ¬ l.Averages)
    (hraised : ∀ ex, l ≠ done (.raised ex)) : Relies s l :=
  ⟨hreset, fun h ↦ absurd h haverages, hraised _⟩

theorem Relies.own (h : Relies s l) : Relies (l.step s).1 (l.step s).2 := by
  obtain ⟨hreset, hn, hdivides⟩ := h
  cases l with
  | store x v e =>
    simp only [step]
    split <;> exact inactive id id fun ex h ↦ by cases h
  | loadMs lat e =>
    simp only [step]
    cases hadd : s.latencySum.ms.add lat with
    | error ex => exact inactive id id fun ex h ↦ by cases h
    | ok ms => exact inactive id id fun ex h ↦ by cases h
  | clear | zero | zeroMs => exact absurd trivial hreset
  | checkEvents recent =>
    simp only [step]
    split_ifs <;> exact inactive id id fun ex h ↦ by cases h
  | checkN recent link =>
    simp only [step]
    split_ifs with hzero
    · exact ⟨id, fun _ ↦ hzero, fun h ↦ by cases h⟩
    · exact inactive id id fun ex h ↦ by cases h
  | loadSum recent link => exact ⟨id, fun _ ↦ hn trivial, fun h ↦ by cases h⟩
  | loadN recent link ms =>
    have hmean := Number.mean_ne_zeroDivisionError ms (Nat.pos_of_ne_zero (hn trivial))
    simp only [step]
    cases hround : (ms.truediv (.int s.latencySum.n)).bind Number.round with
    | error ex =>
      refine ⟨id, False.elim, ?_⟩
      intro heq
      obtain rfl := Answer.raised.inj (done.inj heq)
      exact hmean hround
    | ok avgLatencyMs => exact inactive id id fun ex h ↦ by cases h
  | done answer => exact ⟨hreset, False.elim, hdivides⟩
  | _ => exact inactive id id fun ex h ↦ by cases h

theorem Relies.other {m : Thread} (hl : Relies s l) (hm : Relies s m) :
    Relies (l.step s).1 m := by
  refine ⟨hm.noReset, fun haverages ↦ ?_, hm.divides⟩
  have hn := get_step l .n s
  change Counter.n.get (l.step s).1 ≠ 0
  rcases writes_cases l .n with ⟨v, e, rfl⟩ | rfl | ⟨-, hnone⟩
  · rw [hn, writes?, if_pos rfl]
    exact Nat.succ_ne_zero v
  · exact absurd trivial hl.noReset
  · rw [hn, hnone]
    exact hm.n haverages

theorem relies_start {call : Call} (h : call ≠ .request .reset) (s : State) :
    Relies s (start call) := by
  rcases start_cases call with ⟨ex, hex, hstart⟩ | ⟨e, hstart⟩ | ⟨hcall, -⟩ | ⟨-, hstart⟩
  · rw [hstart]
    exact ⟨id, False.elim, fun heq ↦ hex (Answer.raised.inj (done.inj heq))⟩
  · rw [hstart]
    exact .inactive id id fun ex heq ↦ by cases heq
  · exact absurd hcall h
  · rw [hstart]
    exact .inactive id id fun ex heq ↦ by cases heq

end Thread

namespace Server

variable {p : Server}

theorem valid_after (calls : List Call) (schedule : List ℕ) :
    ∀ l ∈ (after calls schedule).threads, l.Valid := by
  refine Pool.forall_run (Q := fun _ (l : Thread) ↦ l.Valid) (fun s l hl ↦ hl.step s)
    (fun _ _ _ _ hm ↦ hm) ?_ schedule
  intro l hl
  obtain ⟨call, -, rfl⟩ := List.mem_map.mp hl
  exact Thread.valid_start call

theorem next_none {i : ℕ} (h : p.threads[i]? = none) : p.next i = p := Pool.turn_none h

theorem next_some {i : ℕ} {l : Thread} (h : p.threads[i]? = some l) :
    ∃ xs ys, p.threads = xs ++ l :: ys ∧
      p.next i = ⟨(l.step p.shared).1, xs ++ (l.step p.shared).2 :: ys⟩ := Pool.turn_some h

section Next

variable {i : ℕ} {l : Thread} (hget : p.threads[i]? = some l)
include hget

theorem value_next (x : Counter) :
    (racy x (p.next i)).value = (l.writes? x).getD (racy x p).value := by
  obtain ⟨xs, ys, -, hturn⟩ := next_some hget
  rw [racy, hturn]
  exact Thread.get_step l x p.shared

/-- A value that is held afterwards was held before, or has just been read. -/
theorem held_next {x : Counter} {v : ℕ} (h : v ∈ (racy x (p.next i)).held) :
    v ∈ (racy x p).held ∨ (v = (racy x p).value ∧ ∃ e, l = .load x e) := by
  obtain ⟨xs, ys, hthreads, hturn⟩ := next_some hget
  obtain ⟨e, hmem⟩ := h
  rw [hturn] at hmem
  rcases List.mem_append.mp hmem with hxs | hrest
  · exact Or.inl ⟨e, hthreads ▸ List.mem_append_left _ hxs⟩
  · rcases List.mem_cons.mp hrest with heq | hys
    · obtain ⟨hload, hv⟩ := Thread.step_eq_store heq.symm
      exact Or.inr ⟨hv, e, hload⟩
    · exact Or.inl ⟨e, hthreads ▸ List.mem_append_right _ (List.mem_cons_of_mem _ hys)⟩

theorem writes_next (hv : l.Valid) (x : Counter) :
    (racy x (p.next i)).writes =
      (racy x p).writes + if l.isStore x then 1 else 0 := by
  obtain ⟨xs, ys, hthreads, hturn⟩ := next_some hget
  have hcounted := Thread.hasCounted_step hv x p.shared
  have hself : l.isStore x = true → l.hasCounted x = false := Thread.hasCounted_of_isStore
  simp only [racy, counted, hturn, hthreads, List.countP_append, List.countP_cons, hcounted]
  cases hstore : l.isStore x with
  | false => simp
  | true =>
    rw [hself hstore]
    simp
    omega

theorem stored_next : (∃ e, (p.next i).stored.Perm (p.stored ++ [e]) ∧
      (p.next i).shared.events = dequeAppend 500 p.shared.events e) ∨
    ((p.next i).stored = p.stored ∧
      ((p.next i).shared.events = p.shared.events ∨
        (l.Resets ∧ (p.next i).shared.events = []))) := by
  obtain ⟨xs, ys, hthreads, hturn⟩ := next_some hget
  rcases l.step_events p.shared with ⟨e, rfl⟩ | ⟨hstored, hevents⟩
  · refine Or.inl ⟨e, ?_, by rw [hturn]; rfl⟩
    have hmiddle : (p.next i).stored = xs.filterMap Thread.stored? ++
        e :: ys.filterMap Thread.stored? := by
      rw [hturn, stored, List.filterMap_append]
      rfl
    have hbefore : p.stored = xs.filterMap Thread.stored? ++ ys.filterMap Thread.stored? := by
      rw [stored, hthreads, List.filterMap_append]
      rfl
    rw [hmiddle, hbefore]
    exact List.perm_middle.trans (List.perm_append_singleton _ _).symm
  · refine Or.inr ⟨?_, by rwa [hturn]⟩
    rw [hturn, stored, stored, hthreads, List.filterMap_append, List.filterMap_append,
      List.filterMap_cons, List.filterMap_cons, hstored]

end Next

theorem stored_subset_next (p : Server) (i : ℕ) : p.stored ⊆ (p.next i).stored := by
  cases hget : p.threads[i]? with
  | none =>
    rw [next_none hget]
    exact List.Subset.refl _
  | some l =>
    rcases stored_next hget with ⟨e, hperm, -⟩ | ⟨hsame, -⟩
    · exact List.Subset.trans (List.subset_append_left _ _) hperm.symm.subset
    · rw [hsame]
      exact List.Subset.refl _

theorem relies_after {calls : List Call} (hreset : ∀ call ∈ calls, call ≠ .request .reset)
    (schedule : List ℕ) :
    ∀ l ∈ (after calls schedule).threads, Thread.Relies (after calls schedule).shared l := by
  refine Pool.forall_run (Q := Thread.Relies) (fun s l hl ↦ hl.own)
    (fun s l m hl hm ↦ hl.other hm) ?_ schedule
  intro l hl
  obtain ⟨call, hcall, rfl⟩ := List.mem_map.mp hl
  exact Thread.relies_start (hreset call hcall) _

/-- An action reads the counter, at most, or writes it, or is one of a reset. -/
theorem racy_next (hv : ∀ l ∈ p.threads, l.Valid) (x : Counter) (i : ℕ) :
    ((racy x p).Step (racy x (p.next i)) ∧
        ((racy x p).Faithful (racy x (p.next i)) ↔ ¬ Loses x p i)) ∨
      ((∃ l ∈ p.threads, l.Resets) ∧ (racy x (p.next i)).value = 0 ∧
        (racy x (p.next i)).held ⊆ (racy x p).held ∧
        (racy x (p.next i)).writes = (racy x p).writes) := by
  cases hget : p.threads[i]? with
  | none =>
    rw [next_none hget]
    refine Or.inl ⟨.read rfl (Set.subset_insert _ _) rfl, iff_of_true (Or.inl rfl) ?_⟩
    rintro ⟨v, e, hsome, -⟩
    cases hget.symm.trans hsome
  | some l =>
    have hl := List.mem_of_getElem? hget
    have hvalue := value_next hget x
    have hwrites := writes_next hget (hv l hl) x
    rcases Thread.writes_cases l x with ⟨v, e, rfl⟩ | rfl | ⟨hstore, hnone⟩
    · rw [Thread.writes?, if_pos rfl, Option.getD_some] at hvalue
      rw [Thread.isStore, decide_eq_true rfl, if_pos rfl] at hwrites
      refine Or.inl ⟨.write v ⟨e, hl⟩ hvalue (fun w hw ↦ ?_) hwrites, ?_⟩
      · rcases held_next hget hw with hw | ⟨-, e', hload⟩
        · exact hw
        · cases hload
      · rw [RacyCounter.Faithful, hvalue, hwrites, or_iff_right (Nat.succ_ne_self _),
          Nat.succ_inj]
        refine ⟨?_, ?_⟩
        · rintro hfaithful ⟨v', e', hsome, hne⟩
          obtain ⟨-, rfl, -⟩ := Thread.store.inj (Option.some_inj.mp (hget.symm.trans hsome))
          exact hne hfaithful
        · intro hkeeps
          by_contra hne
          exact hkeeps ⟨v, e, hget, hne⟩
    · rw [Thread.writes?, if_pos rfl, Option.getD_some] at hvalue
      refine Or.inr ⟨⟨_, hl, trivial⟩, hvalue, fun w hw ↦ ?_, hwrites⟩
      rcases held_next hget hw with hw | ⟨-, e', hload⟩
      · exact hw
      · cases hload
    · rw [hnone, Option.getD_none] at hvalue
      rw [hstore, if_neg Bool.false_ne_true] at hwrites
      refine Or.inl ⟨.read hvalue (fun w hw ↦ ?_) hwrites, iff_of_true (Or.inl hwrites) ?_⟩
      · rcases held_next hget hw with hw | ⟨rfl, -⟩
        · exact Set.mem_insert_of_mem _ hw
        · exact Set.mem_insert _ _
      · rintro ⟨v, e, hsome, -⟩
        obtain rfl := Option.some_inj.mp (hget.symm.trans hsome)
        rw [Thread.isStore, decide_eq_true rfl] at hstore
        cases hstore

theorem racy_start (calls : List Call) (x : Counter) : racy x (start calls) = ⟨0, ∅, 0⟩ := by
  have hvalue : x.get (start calls).shared = 0 := by cases x <;> rfl
  have hheld : {v | ∃ e, .store x v e ∈ (start calls).threads} = ∅ := by
    refine Set.eq_empty_of_forall_notMem fun v hv ↦ ?_
    obtain ⟨e, hmem⟩ := hv
    obtain ⟨call, -, hcall⟩ := List.mem_map.mp hmem
    exact (Thread.start_fresh call).2.1 x v e hcall
  have hcounted : (start calls).counted x = 0 := by
    refine List.countP_eq_zero.mpr fun l hl ↦ ?_
    obtain ⟨call, -, rfl⟩ := List.mem_map.mp hl
    rw [(Thread.start_fresh call).1 x]
    exact Bool.false_ne_true
  rw [racy, hvalue, hheld, hcounted]

theorem after_concat (calls : List Call) (schedule : List ℕ) (i : ℕ) :
    after calls (schedule ++ [i]) = (after calls schedule).next i := by
  rw [after, Pool.run, List.foldl_append]
  rfl

theorem bounded_after (calls : List Call) (schedule : List ℕ) (x : Counter) :
    (racy x (after calls schedule)).Bounded := by
  induction schedule using List.reverseRecOn with
  | nil =>
    rw [after, Pool.run, List.foldl_nil, racy_start]
    exact ⟨le_rfl, fun v hv ↦ absurd hv (Set.notMem_empty v)⟩
  | append_singleton schedule i ih =>
    rw [after_concat]
    rcases racy_next (valid_after calls schedule) x i with ⟨hstep, -⟩ | ⟨-, hvalue, hheld, hwrites⟩
    · exact ih.step hstep
    · exact ih.reset hvalue hheld hwrites

/-- Where nothing is reset, a counter counts what it should exactly as long as no thread overwrites
it with another number than the next one. -/
theorem exact_after_iff {calls : List Call} (hreset : ∀ call ∈ calls, call ≠ .request .reset)
    (schedule : List ℕ) (x : Counter) :
    x.get (after calls schedule).shared = (after calls schedule).counted x ↔
      ∀ n (hn : n < schedule.length),
        ¬ Loses x (after calls (schedule.take n)) schedule[n] := by
  have hturn : ∀ n (hn : n < schedule.length), after calls (schedule.take (n + 1)) =
      (after calls (schedule.take n)).next schedule[n] :=
    fun n hn ↦ Run.foldl_take_succ hn
  have hsteps : ∀ n (hn : n < schedule.length),
      (racy x (after calls (schedule.take n))).Step
          (racy x (after calls (schedule.take (n + 1)))) ∧
        ((racy x (after calls (schedule.take n))).Faithful
            (racy x (after calls (schedule.take (n + 1)))) ↔
          ¬ Loses x (after calls (schedule.take n)) schedule[n]) := by
    intro n hn
    rw [hturn n hn]
    refine (racy_next (valid_after calls _) x schedule[n]).resolve_right ?_
    rintro ⟨⟨l, hl, hresets⟩, -⟩
    exact (relies_after hreset _ l hl).noReset hresets
  have hexact := RacyCounter.exact_iff (c := fun n ↦ racy x (after calls (schedule.take n)))
    (bounded_after calls _ x) (by simp only [List.take_zero, after, Pool.run, List.foldl_nil,
      racy_start]) fun n hn ↦ (hsteps n hn).1
  simp only [List.take_length] at hexact
  exact hexact.trans (forall₂_congr fun n hn ↦ (hsteps n hn).2)

/-- The events kept are the last of those stored since the last reset, in the order in which their
threads stored them. -/
theorem listed_after (calls : List Call) (schedule : List ℕ) :
    ∃ order : List Dict, order.Subperm (after calls schedule).stored ∧
      (after calls schedule).shared.events = order.rtake 500 ∧
      ((∀ call ∈ calls, call ≠ .request .reset) → order.Perm (after calls schedule).stored) := by
  induction schedule using List.reverseRecOn with
  | nil =>
    have hstored : (after calls []).stored = [] := by
      refine List.filterMap_eq_nil_iff.mpr fun l hl ↦ ?_
      obtain ⟨call, -, rfl⟩ := List.mem_map.mp hl
      exact (Thread.start_fresh call).2.2.1
    rw [hstored]
    exact ⟨[], List.Subperm.refl [], (List.rtake_nil 500).symm, fun _ ↦ List.Perm.refl []⟩
  | append_singleton schedule i ih =>
    obtain ⟨order, hsub, hevents, hperm⟩ := ih
    rw [after_concat]
    cases hget : (after calls schedule).threads[i]? with
    | none =>
      rw [next_none hget]
      exact ⟨order, hsub, hevents, hperm⟩
    | some l =>
      rcases stored_next hget with ⟨e, hstored, hnext⟩ | ⟨hstored, hnext | ⟨hresets, hnext⟩⟩
      · refine ⟨order ++ [e], ?_, by rw [hnext, hevents, dequeAppend_rtake], fun hreset ↦ ?_⟩
        · exact (hsub.append (List.Subperm.refl [e])).trans hstored.symm.subperm
        · exact ((hperm hreset).append_right [e]).trans hstored.symm
      · rw [hstored, hnext]
        exact ⟨order, hsub, hevents, hperm⟩
      · refine ⟨[], List.nil_subperm, by rw [hnext, List.rtake_nil], fun hreset ↦ ?_⟩
        exact absurd hresets (relies_after hreset schedule l (List.mem_of_getElem? hget)).noReset

theorem events_subset_after (calls : List Call) (schedule : List ℕ) :
    (after calls schedule).shared.events ⊆ (after calls schedule).stored := by
  obtain ⟨order, hsub, hevents, -⟩ := listed_after calls schedule
  rw [hevents]
  exact List.Subset.trans (List.drop_subset _ _) hsub.subset

/-- A thread has seen stored events only, and no more of them counted than are. -/
structure Backs (p : Server) (l : Thread) : Prop where
  recent : l.seen.1 ⊆ p.stored
  accepted : l.seen.2.1 ≤ p.counted .accepted
  rejected : l.seen.2.2 ≤ p.counted .rejected

theorem Backs.mono {l : Thread} (h : p.Backs l) {p' : Server} (hstored : p.stored ⊆ p'.stored)
    (hcounted : ∀ x, p.counted x ≤ p'.counted x) : p'.Backs l :=
  ⟨List.Subset.trans h.recent hstored, h.accepted.trans (hcounted _),
    h.rejected.trans (hcounted _)⟩

theorem Backs.step {l : Thread} (h : p.Backs l) (hevents : p.shared.events ⊆ p.stored)
    (hbounded : ∀ x, x.get p.shared ≤ p.counted x) : p.Backs (l.step p.shared).2 := by
  obtain ⟨hrecent, haccepted, hrejected⟩ := l.seen_step p.shared
  refine ⟨?_, ?_, ?_⟩
  · rcases hrecent with hold | hnew
    · exact List.Subset.trans hold h.recent
    · exact List.Subset.trans hnew hevents
  · rcases haccepted with hold | hnew
    · exact hold.trans h.accepted
    · exact hnew.le.trans (hbounded .accepted)
  · rcases hrejected with hold | hnew
    · exact hold.trans h.rejected
    · exact hnew.le.trans (hbounded .rejected)

theorem backs_after (calls : List Call) (schedule : List ℕ) :
    ∀ l ∈ (after calls schedule).threads, (after calls schedule).Backs l := by
  induction schedule using List.reverseRecOn with
  | nil =>
    intro l hl
    obtain ⟨call, -, rfl⟩ := List.mem_map.mp hl
    have hseen := (Thread.start_fresh call).2.2.2
    exact ⟨by rw [hseen]; exact List.nil_subset _, by rw [hseen]; exact Nat.zero_le _,
      by rw [hseen]; exact Nat.zero_le _⟩
  | append_singleton schedule i ih =>
    rw [after_concat]
    cases hget : (after calls schedule).threads[i]? with
    | none =>
      rw [next_none hget]
      exact ih
    | some l =>
      have hmem := List.mem_of_getElem? hget
      have hnext := (ih l hmem).step (events_subset_after calls schedule)
        fun x ↦ (bounded_after calls schedule x).value
      obtain ⟨xs, ys, hthreads, hturn⟩ := next_some hget
      intro m hm
      have hbefore : (after calls schedule).Backs m := by
        rw [hturn] at hm
        rcases List.mem_append.mp hm with hxs | hrest
        · exact ih m (hthreads ▸ List.mem_append_left _ hxs)
        · rcases List.mem_cons.mp hrest with rfl | hys
          · exact hnext
          · exact ih m (hthreads ▸ List.mem_append_right _ (List.mem_cons_of_mem _ hys))
      exact hbefore.mono (stored_subset_next _ i) fun x ↦
        Nat.le.intro (writes_next hget (valid_after calls schedule l hmem) x).symm

theorem counted_of_settled (h : ∀ l ∈ p.threads, l.Settled) (x : Counter) :
    p.counted x = p.stored.countP x.counts := by
  rw [counted, stored, List.countP_filterMap]
  refine List.countP_congr fun l hl ↦ ?_
  obtain ⟨answer, rfl, hanswer⟩ := h l hl
  cases answer with
  | overflowed e ex => exact absurd rfl (hanswer e ex)
  | _ => rfl

/-- However the accesses of concurrent calls fall, no counter runs ahead of the threads that have
incremented it, which in the end are those of the stored events, no event is listed twice or
invented, and no response overstates. Unless a call resets, no event is missing, no response
divides by zero, and a counter falls behind exactly if a thread overwrites it with another number
than the next one. -/
theorem interleaved_calls (calls : List Call) (schedule : List ℕ) :
    let p := after calls schedule
    (∀ x, x.get p.shared ≤ p.counted x) ∧
      ((∀ l ∈ p.threads, l.Settled) → ∀ x, p.counted x = p.stored.countP x.counts) ∧
      (∃ order : List Dict, order.Subperm p.stored ∧ p.shared.events = order.rtake 500) ∧
      (∀ response, .done (.shown response) ∈ p.threads → response.recent ⊆ p.stored ∧
        response.accepted ≤ p.counted .accepted ∧ response.rejected ≤ p.counted .rejected) ∧
      ((∀ call ∈ calls, call ≠ .request .reset) →
        (∃ order : List Dict, order.Perm p.stored ∧ p.shared.events = order.rtake 500) ∧
          .done (.raised .zeroDivisionError) ∉ p.threads ∧
          ∀ x, x.get p.shared = p.counted x ↔ ∀ n (hn : n < schedule.length),
            ¬ Loses x (after calls (schedule.take n)) schedule[n]) := by
  intro p
  obtain ⟨order, hsub, hevents, hperm⟩ := listed_after calls schedule
  refine ⟨fun x ↦ (bounded_after calls schedule x).value, counted_of_settled,
    ⟨order, hsub, hevents⟩, ?_, ?_⟩
  · intro response hresponse
    have hbacks : p.Backs (.done (.shown response)) := backs_after calls schedule _ hresponse
    exact ⟨hbacks.recent, hbacks.accepted, hbacks.rejected⟩
  · intro hreset
    refine ⟨⟨order, hperm hreset, hevents⟩, fun hmem ↦ ?_, exact_after_iff hreset schedule⟩
    exact (relies_after hreset schedule _ hmem).divides rfl

/-- Two accepted events of which one is not counted. -/
example :
    let accepted : Call := .request (.event 0 (some (.dict [(str "type", .str (str "ACCEPTED"))])))
    let p := after [accepted, accepted] [0, 1, 0, 1, 0, 1]
    p.shared.totals.accepted = 1 ∧ p.counted .accepted = 2 ∧ p.stored.length = 2 := by
  decide +kernel

end Server

end SpaceSec.Dashboard
