import SpaceSec.Dashboard
import SpaceSec.Library.Run
import Mathlib.Algebra.Ring.Int.Defs

namespace SpaceSec.Dashboard

open Python

theorem ingestEvent_ok {nowMs : ℤ} {body : Option Value} {s s' : State} {e : Dict}
    (h : ingestEvent nowMs body s = (.ok e, s')) : Stores e s s' := by
  simp only [ingestEvent] at h
  split at h
  · cases h
  · rename_i e' _
    split at h
    · cases h
    · rename_i type htype
      have ht := eqStr_of_getItem htype
      rcases updateCounters_cases e' type s with ⟨c, hc, hevents, hacc, hrej, hn⟩ | ⟨ex, lat, hc, -⟩
      · rw [hc] at h
        obtain ⟨he, rfl⟩ := Prod.mk.inj h
        obtain rfl := Except.ok.inj he
        rw [ht] at hacc hrej hn
        exact ⟨by rw [hevents], hacc, hrej, hn⟩
      · rw [hc] at h
        cases h

theorem fillDefaults_of_stored {nowMs : ℤ} {body : Option Value} {s s' : State} {e : Dict}
    (h : ingestEvent nowMs body s = (.ok e, s')) : fillDefaults nowMs body = .ok e := by
  rw [ingestEvent] at h
  split at h
  · cases h
  · rename_i e' he'
    split at h
    · cases h
    · split at h
      · cases h
      · rw [he']
        exact (Prod.mk.inj h).1

theorem ingestEvent_error {nowMs : ℤ} {body : Option Value} {s s' : State} {ex : Exception}
    (h : ingestEvent nowMs body s = (.error ex, s')) :
    s' = s ∨ Overflows s (.event nowMs body) := by
  simp only [ingestEvent] at h
  split at h
  · exact Or.inl (Prod.mk.inj h).2.symm
  · rename_i e he
    split at h
    · exact Or.inl (Prod.mk.inj h).2.symm
    · rename_i type htype
      have ht := eqStr_of_getItem htype
      rcases updateCounters_cases e type s with ⟨c, hc, -⟩ | ⟨ex, lat, hc, hacc, hlat, hadd⟩
      · rw [hc] at h
        cases h
      · exact Or.inr ⟨e, lat, he, ht ▸ hacc, hlat, hadd⟩

theorem ingestEvent_overflows {nowMs : ℤ} {body : Option Value} {s : State}
    (h : Overflows s (.event nowMs body)) : ∃ ex, ingestEvent nowMs body s =
      (.error ex, { s with totals := { s.totals with accepted := s.totals.accepted + 1 } }) := by
  obtain ⟨e, lat, he, hacc, hlat, hadd⟩ := h
  obtain ⟨ex, hex⟩ := Number.add_eq_error.mpr hadd
  cases htype : Dict.getItem e (str "type") with
  | error ex' =>
    rw [isAccepted_of_getItem_error htype] at hacc
    cases hacc
  | ok type =>
    have ht := (eqStr_of_getItem htype).trans hacc
    refine ⟨ex, ?_⟩
    simp only [ingestEvent, he, htype, updateCounters, if_pos ht, hlat, hex]

structure History where
  state : State := {}
  stored : List Dict := []

def History.handle (h : History) : Request → History
  | .reset => ⟨reset h.state, []⟩
  | .event nowMs body =>
    match ingestEvent nowMs body h.state with
    | (.ok e, s) => ⟨s, h.stored ++ [e]⟩
    | (.error _, s) => ⟨s, h.stored⟩

def History.after (requests : List Request) : History := requests.foldl handle {}

structure Accounts (h : History) : Prop where
  events : h.state.events = h.stored.rtake 500
  accepted : h.state.totals.accepted = h.stored.countP isAccepted
  rejected : h.state.totals.rejected = h.stored.countP fun e ↦ !isAccepted e
  n : h.state.latencySum.n = h.stored.countP fun e ↦ isAccepted e && (latencyOf e).isSome

def Atomic (s : State) : Request → Prop
  | .event nowMs body => ∀ ex s', ingestEvent nowMs body s = (.error ex, s') → s' = s
  | .reset => True

theorem accounts_empty : Accounts ⟨{}, []⟩ where
  events := (List.rtake_nil 500).symm
  accepted := rfl
  rejected := rfl
  n := rfl

theorem Accounts.store {h : History} (ha : Accounts h) {e : Dict} {s' : State}
    (hs : Stores e h.state s') : Accounts ⟨s', h.stored ++ [e]⟩ where
  events := by rw [hs.events, ha.events, dequeAppend_rtake]
  accepted := by rw [hs.accepted, ha.accepted, List.countP_append, List.countP_singleton]
  rejected := by
    rw [hs.rejected, ha.rejected, List.countP_append, List.countP_singleton]
    cases isAccepted e <;> rfl
  n := by rw [hs.n, ha.n, List.countP_append, List.countP_singleton]

theorem Accounts.handle {h : History} (ha : Accounts h) {request : Request}
    (hr : ¬ Overflows h.state request) : Accounts (h.handle request) := by
  cases request with
  | reset => exact accounts_empty
  | event nowMs body =>
    simp only [History.handle]
    split
    · rename_i e s' hok
      exact ha.store (ingestEvent_ok hok)
    · rename_i ex s' herror
      obtain rfl := (ingestEvent_error herror).resolve_right hr
      exact ha

theorem atomic_iff {s : State} {request : Request} :
    Atomic s request ↔ ¬ Overflows s request := by
  cases request with
  | reset => simp [Atomic, Overflows]
  | event nowMs body =>
    refine ⟨?_, ?_⟩
    · intro hatomic hoverflows
      obtain ⟨ex, hex⟩ := ingestEvent_overflows hoverflows
      have hs := congrArg (fun s ↦ s.totals.accepted) (hatomic ex _ hex)
      simp at hs
    · intro hr ex s' hex
      exact (ingestEvent_error hex).resolve_right hr

theorem after_concat (requests : List Request) (request : Request) :
    History.after (requests ++ [request]) = (History.after requests).handle request := by
  simp [History.after]

/-- The accounts are right after every request, and every request that raises is without effect,
exactly in the runs in which no addition to the latency sum overflows. -/
theorem accounting (requests : List Request) :
    ((∀ n, Accounts (History.after (requests.take n))) ∧
      ∀ n (hn : n < requests.length),
        Atomic (History.after (requests.take n)).state requests[n]) ↔
      ∀ n (hn : n < requests.length),
        ¬ Overflows (History.after (requests.take n)).state requests[n] := by
  simp only [atomic_iff]
  refine ⟨And.right, fun h ↦ ⟨?_, h⟩⟩
  exact Run.foldl_take accounts_empty fun n hn ih ↦ ih.handle (h n hn)

theorem overflow_miscounts :
    let accepted (latencyMs : Value) : Request := .event 0 (some (.dict
      [(str "type", .str (str "ACCEPTED")), (str "latency_ms", latencyMs)]))
    let h := History.after [accepted (.float 0.5), accepted (.int (2 ^ 1024))]
    h.state.totals.accepted = 2 ∧ h.state.events.length = 1 ∧ h.stored.countP isAccepted = 1 := by
  decide +kernel

end SpaceSec.Dashboard
