import SpaceSec.DashboardState

namespace SpaceSec.Dashboard

open Python

/-- A stored event, with what its request added to the two totals. -/
structure Entry where
  event : Dict
  accepted : ℕ
  rejected : ℕ

structure Ledger where
  state : State := {}
  entries : List Entry := []

namespace Ledger

def handle (l : Ledger) : Request → Ledger
  | .reset => ⟨reset l.state, []⟩
  | .event nowMs body =>
    match ingestEvent nowMs body l.state with
    | (.ok event, s) => ⟨s, l.entries ++ [{
        event
        accepted := s.totals.accepted - l.state.totals.accepted
        rejected := s.totals.rejected - l.state.totals.rejected }]⟩
    | (.error _, s) => ⟨s, l.entries⟩

def after (requests : List Request) : Ledger := requests.foldl handle {}

def toHistory (l : Ledger) : History := ⟨l.state, l.entries.map Entry.event⟩

theorem toHistory_handle (l : Ledger) (request : Request) :
    (l.handle request).toHistory = l.toHistory.handle request := by
  cases request with
  | reset => rfl
  | event nowMs body =>
    simp only [handle, History.handle, toHistory]
    obtain ⟨answer, s⟩ := ingestEvent nowMs body l.state
    cases answer with
    | error ex => rfl
    | ok e => simp

end Ledger

def Stored (s : State) : Request → Prop
  | .event nowMs body => ∃ e s', ingestEvent nowMs body s = (.ok e, s')
  | .reset => True

/-- The event, with its defaults, has one of the two types that the link status counts. -/
def KnownType : Request → Prop
  | .event nowMs body => ∀ e, fillDefaults nowMs body = .ok e → isAccepted e = true ∨ isRejected e
  | .reset => True

/-- The link status classifies the last ten events as the totals did when the events came in. -/
structure Agrees (l : Ledger) : Prop where
  rejected : (l.state.events.rtake 10).countP isRejected =
    ((l.entries.rtake 10).map Entry.rejected).sum
  accepted : (l.state.events.rtake 10).countP isAccepted =
    ((l.entries.rtake 10).map Entry.accepted).sum
  linkStatus : 1 ≤ l.entries.length → l.entries.length ≤ 10 →
    ∀ response, state l.state = .ok response → response.linkStatus =
      if 0 < response.rejected ∧ response.accepted ≤ response.rejected then .degraded
      else .connected

structure Ledger.Valid (l : Ledger) : Prop where
  accounts : Accounts l.toHistory
  accepted : ∀ x ∈ l.entries, x.accepted = if isAccepted x.event then 1 else 0
  rejected : ∀ x ∈ l.entries, x.rejected = if isAccepted x.event then 0 else 1

theorem isAccepted_of_isRejected {e : Dict} (h : isRejected e = true) : isAccepted e = false := by
  rw [isRejected] at h
  rw [isAccepted]
  cases hget : Dict.get e (str "type") with
  | none => rfl
  | some type =>
    rw [hget] at h
    cases type with
    | str s =>
      obtain rfl : s = str "REJECTED" := by simpa [Value.eqStr] using h
      decide
    | _ => rfl

theorem not_overflows_of_stored {s : State} {request : Request} (h : Stored s request) :
    ¬ Overflows s request := by
  cases request with
  | reset => exact nofun
  | event nowMs body =>
    intro hoverflows
    obtain ⟨e, s', hok⟩ := h
    obtain ⟨ex, hex⟩ := ingestEvent_overflows hoverflows
    rw [hok] at hex
    cases hex

theorem Ledger.Valid.handle {l : Ledger} (hv : l.Valid) {request : Request}
    (hr : Stored l.state request) : (l.handle request).Valid := by
  have haccounts : Accounts (l.handle request).toHistory := by
    rw [toHistory_handle]
    exact hv.accounts.handle (not_overflows_of_stored hr)
  cases request with
  | reset => exact ⟨haccounts, nofun, nofun⟩
  | event nowMs body =>
    obtain ⟨e, s', hok⟩ := hr
    have hstores := ingestEvent_ok hok
    simp only [Ledger.handle, hok] at haccounts ⊢
    refine ⟨haccounts, ?_, ?_⟩
    · intro x hx
      rcases List.mem_append.mp hx with hx | hx
      · exact hv.accepted x hx
      · obtain rfl := List.mem_singleton.mp hx
        simp only [hstores.accepted, Nat.add_sub_cancel_left]
    · intro x hx
      rcases List.mem_append.mp hx with hx | hx
      · exact hv.rejected x hx
      · obtain rfl := List.mem_singleton.mp hx
        simp only [hstores.rejected, Nat.add_sub_cancel_left]

theorem sum_map_eq_countP {α : Type} {f : α → ℕ} {p : α → Bool} {xs : List α}
    (h : ∀ x ∈ xs, f x = if p x then 1 else 0) : (xs.map f).sum = xs.countP p := by
  induction xs with
  | nil => rfl
  | cons x xs ih =>
    rw [List.map_cons, List.sum_cons, List.countP_cons, h x List.mem_cons_self,
      ih fun y hy ↦ h y (List.mem_cons_of_mem x hy), Nat.add_comm]

section Window

variable {l : Ledger} (hv : l.Valid)
include hv

theorem Ledger.Valid.window :
    l.state.events.rtake 10 = (l.entries.rtake 10).map Entry.event := by
  have hevents : l.state.events = (l.entries.map Entry.event).rtake 500 := hv.accounts.events
  rw [hevents, rtake_rtake (by decide), List.rtake, List.rtake, List.map_drop, List.length_map]

theorem Ledger.Valid.window_accepted :
    ((l.entries.rtake 10).map Entry.accepted).sum =
      (l.entries.rtake 10).countP fun x ↦ isAccepted x.event :=
  sum_map_eq_countP fun x hx ↦ hv.accepted x (List.mem_of_mem_drop hx)

theorem Ledger.Valid.window_rejected :
    ((l.entries.rtake 10).map Entry.rejected).sum =
      (l.entries.rtake 10).countP fun x ↦ !isAccepted x.event := by
  apply sum_map_eq_countP
  intro x hx
  rw [hv.rejected x (List.mem_of_mem_drop hx)]
  cases isAccepted x.event with
  | false => rfl
  | true => rfl

end Window

/-- Where every stored event has a known type, the two classifications agree. -/
theorem Ledger.Valid.agrees {l : Ledger} (hv : l.Valid)
    (hknown : ∀ x ∈ l.entries, isAccepted x.event = true ∨ isRejected x.event) : Agrees l := by
  have hcomplement : ∀ x ∈ l.entries, isRejected x.event = !isAccepted x.event := by
    intro x hx
    cases hrej : isRejected x.event with
    | true =>
      rw [isAccepted_of_isRejected hrej]
      rfl
    | false =>
      rw [(hknown x hx).resolve_right (by rw [hrej]; exact Bool.false_ne_true)]
      rfl
  have hrejected : (l.state.events.rtake 10).countP isRejected =
      (l.entries.rtake 10).countP fun x ↦ !isAccepted x.event := by
    rw [hv.window, List.countP_map]
    apply List.countP_congr
    intro x hx
    rw [Function.comp_apply, hcomplement x (List.mem_of_mem_drop hx)]
  have haccepted : (l.state.events.rtake 10).countP isAccepted =
      (l.entries.rtake 10).countP fun x ↦ isAccepted x.event := by
    rw [hv.window, List.countP_map]
    rfl
  refine ⟨hrejected.trans hv.window_rejected.symm, haccepted.trans hv.window_accepted.symm, ?_⟩
  intro hsome hten response hresponse
  obtain ⟨hlink, hacc, hrej, -⟩ := state_fields hresponse
  have hall : l.entries.rtake 10 = l.entries := by
    rw [List.rtake, Nat.sub_eq_zero_of_le hten, List.drop_zero]
  have hnonempty : l.state.events.isEmpty = false := by
    have hwindow := congrArg List.length hv.window
    rw [hall, List.length_map] at hwindow
    cases hevents : l.state.events with
    | nil =>
      rw [hevents, List.rtake_nil, List.length_nil] at hwindow
      omega
    | cons => rfl
  have htotals : l.state.totals.accepted = (l.entries.map Entry.event).countP isAccepted ∧
      l.state.totals.rejected = (l.entries.map Entry.event).countP fun e ↦ !isAccepted e :=
    ⟨hv.accounts.accepted, hv.accounts.rejected⟩
  rw [List.countP_map, List.countP_map] at htotals
  rw [hall] at hrejected haccepted
  rw [hlink, linkStatus, hnonempty, hacc, hrej, htotals.1, htotals.2]
  simp only [hrejected, haccepted, Bool.false_eq_true, if_false, Nat.pos_iff_ne_zero]
  rfl

/-- The newest event, if its type is unknown, is one that only the totals count. -/
theorem Ledger.Valid.not_agrees {l : Ledger} (hv : l.Valid) {entries : List Entry} {x : Entry}
    (hentries : l.entries = entries ++ [x])
    (hunknown : ¬ (isAccepted x.event = true ∨ isRejected x.event)) : ¬ Agrees l := by
  intro hagrees
  obtain ⟨hnacc, hnrej⟩ := not_or.mp hunknown
  have hrejected := hagrees.rejected
  rw [hv.window_rejected, hv.window, List.countP_map, hentries, List.rtake_concat_succ,
    List.countP_append, List.countP_append, List.countP_singleton, List.countP_singleton,
    Function.comp_apply, if_neg hnrej, if_pos (by simpa using hnacc)] at hrejected
  have hle : (entries.rtake 9).countP (isRejected ∘ Entry.event) ≤
      (entries.rtake 9).countP fun y ↦ !isAccepted y.event := by
    apply List.countP_mono_left
    intro y _ hy
    rw [isAccepted_of_isRejected hy]
    rfl
  omega

theorem Ledger.known_handle {l : Ledger} {request : Request} (hr : KnownType request)
    (hknown : ∀ x ∈ l.entries, isAccepted x.event = true ∨ isRejected x.event) :
    ∀ x ∈ (l.handle request).entries, isAccepted x.event = true ∨ isRejected x.event := by
  cases request with
  | reset => exact nofun
  | event nowMs body =>
    rw [Ledger.handle]
    split
    · rename_i e s' hok
      intro x hx
      rcases List.mem_append.mp hx with hx | hx
      · exact hknown x hx
      · obtain rfl := List.mem_singleton.mp hx
        exact hr e (fillDefaults_of_stored hok)
    · exact hknown

variable {requests : List Request}
  (hstored : ∀ n (hn : n < requests.length),
    Stored (Ledger.after (requests.take n)).state requests[n])
include hstored

theorem ledger_valid (n : ℕ) : (Ledger.after (requests.take n)).Valid := by
  have hinitial : ({} : Ledger).Valid := ⟨accounts_empty, nofun, nofun⟩
  exact Run.foldl_take hinitial (fun n hn ih ↦ ih.handle (hstored n hn)) n

/-- Totals and link status agree throughout a run exactly when each of its events is of type
ACCEPTED or REJECTED, or of none and so gets the second. -/
theorem link_status_agrees_iff :
    (∀ n, Agrees (Ledger.after (requests.take n))) ↔ ∀ request ∈ requests, KnownType request := by
  refine ⟨?_, ?_⟩
  · intro hagrees request hrequest
    obtain ⟨n, hn, rfl⟩ := List.getElem_of_mem hrequest
    have hvalid := ledger_valid hstored (n + 1)
    have hnext := hagrees (n + 1)
    have hafter : Ledger.after (requests.take (n + 1)) =
        (Ledger.after (requests.take n)).handle requests[n] := Run.foldl_take_succ hn
    rw [hafter] at hvalid hnext
    have hs := hstored n hn
    generalize requests[n] = request at hs hvalid hnext ⊢
    cases request with
    | reset => exact trivial
    | event nowMs body =>
      obtain ⟨e, s', hok⟩ := hs
      intro e' he'
      obtain rfl := Except.ok.inj ((fillDefaults_of_stored hok).symm.trans he')
      by_contra hunknown
      simp only [Ledger.handle, hok] at hvalid hnext
      exact hvalid.not_agrees rfl hunknown hnext
  · intro hknown n
    apply (ledger_valid hstored n).agrees
    refine Run.foldl_take (P := fun l : Ledger ↦
      ∀ x ∈ l.entries, isAccepted x.event = true ∨ isRejected x.event) (s := {}) nofun ?_ n
    intro n hn ih
    exact Ledger.known_handle (hknown _ (List.getElem_mem hn)) ih

omit hstored

theorem unknown_type_counted_apart :
    let l := Ledger.after [.event 0 (some (.dict [(str "type", .str (str "FOO"))]))]
    l.entries.length = 1 ∧ (l.state.events.rtake 10).countP isRejected = 0 ∧
      ((l.entries.rtake 10).map Entry.rejected).sum = 1 ∧
      ∃ response, state l.state = .ok response ∧ response.accepted = 0 ∧
        response.rejected = 1 ∧ response.linkStatus = .connected :=
  ⟨rfl, rfl, rfl, _, rfl, rfl, rfl, rfl⟩

theorem link_status_agrees_default_type :
    let requests : List Request :=
      [.event 0 (some (.dict [(str "type", .str (str "ACCEPTED"))])), .reset, .event 7 none]
    ∀ n, Agrees (Ledger.after (requests.take n)) := by
  intro requests
  refine (link_status_agrees_iff ?_).mpr ?_
  · intro n hn
    match n, hn with
    | 0, _ => exact ⟨_, _, rfl⟩
    | 1, _ => exact trivial
    | 2, _ => exact ⟨_, _, rfl⟩
  · intro request hrequest
    rcases List.mem_cons.mp hrequest with rfl | hrequest
    · intro e he
      obtain rfl := Except.ok.inj he
      exact Or.inl rfl
    · rcases List.mem_cons.mp hrequest with rfl | hrequest
      · exact trivial
      · obtain rfl := List.mem_singleton.mp hrequest
        intro e he
        obtain rfl := Except.ok.inj he
        exact Or.inr rfl

end SpaceSec.Dashboard
