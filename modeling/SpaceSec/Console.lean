import SpaceSec.Alerts
import SpaceSec.Library.Rising

namespace SpaceSec.Browser

open Python Dashboard

/-- What the handler of the reset button does to the page once the dashboard has answered. -/
def Page.clear (page : Page) : Page := { page with chart := [], lastCriticalSeen := 0 }

/-- An answer of the dashboard to the page. -/
inductive Message
  | state (response : Response)
  | reset

/-- The dashboard, the page with its reset button, and the answers between them, oldest first. -/
structure Console where
  history : History := {}
  inbox : List Message := []
  page : Page := {}

namespace Console

/-- The dashboard stores an event, answers a tick, or carries out a reset that the page asked for;
the `i`-th answer comes to the page, or its `fetch` fails. -/
inductive Action
  | store (nowMs : ℤ) (body : Option Value)
  | respond
  | reset
  | receive (i : ℕ)
  | lose (i : ℕ)

variable (coerce : Value → Float)

def receive (page : Page) : Message → Page
  | .state response => if isJson response then tick coerce page response else page
  | .reset => page.clear

def step (c : Console) : Action → Console
  | .store nowMs body => { c with history := c.history.handle (.event nowMs body) }
  | .respond =>
    match Dashboard.state c.history.state with
    | .ok response => { c with inbox := c.inbox ++ [.state response] }
    | .error _ => c
  | .reset => { c with history := c.history.handle .reset, inbox := c.inbox ++ [.reset] }
  | .receive i =>
    match c.inbox[i]? with
    | some message => { c with inbox := c.inbox.eraseIdx i, page := receive coerce c.page message }
    | none => c
  | .lose i => { c with inbox := c.inbox.eraseIdx i }

def after (actions : List Action) : Console := actions.foldl (step coerce) {}

/-- Answers come in the order in which they were sent, and none to a reset is lost. -/
def InOrder (c : Console) : Action → Prop
  | .receive i => i = 0
  | .lose i => c.inbox[i]? ≠ some .reset
  | _ => True

end Console

def Message.point : Message → Option (ℕ × ℕ)
  | .state response => some (response.accepted, response.rejected)
  | .reset => none

namespace Console

def totals (c : Console) : ℕ × ℕ :=
  (c.history.state.totals.accepted, c.history.state.totals.rejected)

/-- All that the chart shows or may yet show, and the totals of the dashboard at its end. -/
def line (c : Console) : List (Option (ℕ × ℕ)) :=
  c.page.chart.map some ++ c.inbox.map Message.point ++ [some c.totals]

variable {coerce : Value → Float}

theorem rising_initial : Rising ({} : Console).line := List.isChain_singleton (some (0, 0))

theorem dequeAppend_suffix {α : Type} (maxlen : ℕ) (items : List α) (x : α) :
    dequeAppend maxlen items x <:+ items ++ [x] := by
  rw [dequeAppend]
  split_ifs
  · exact List.tail_suffix _
  · exact List.suffix_rfl

theorem rising_forget {c : Console} (h : Rising c.line) {i : ℕ} (hi : c.inbox[i]? ≠ some .reset) :
    Rising { c with inbox := c.inbox.eraseIdx i }.line := by
  cases hmessage : c.inbox[i]? with
  | none =>
    have hlength := List.getElem?_eq_none_iff.mp hmessage
    rwa [List.eraseIdx_of_length_le hlength]
  | some message =>
    cases message with
    | reset => exact absurd hmessage hi
    | state response =>
      obtain ⟨hlt, hget⟩ := List.getElem?_eq_some_iff.mp hmessage
      have hsplit : c.inbox = c.inbox.take i ++ .state response :: c.inbox.drop (i + 1) := by
        rw [← hget, List.cons_getElem_drop_succ, List.take_append_drop]
      rw [line, hsplit, List.map_append, List.map_cons] at h
      rw [line, List.eraseIdx_eq_take_drop_succ, List.map_append]
      simp only [List.append_assoc, List.cons_append] at h ⊢
      rw [← List.append_assoc] at h ⊢
      exact h.erase

theorem rising_step {c : Console} (h : Rising c.line) {action : Action}
    (hinOrder : c.InOrder action) : Rising (c.step coerce action).line := by
  cases action with
  | store nowMs body =>
    exact Rising.concat_of_le h (Prod.mk_le_mk.mpr (totals_le_handle c.history nowMs body))
  | respond =>
    simp only [step]
    cases hstate : Dashboard.state c.history.state with
    | error ex => exact h
    | ok response =>
      obtain ⟨-, haccepted, hrejected, -⟩ := state_fields hstate
      have hpoint : Message.point (.state response) = some c.totals := by
        rw [Message.point, haccepted, hrejected, totals]
      simp only [line, List.map_append, List.map_singleton, hpoint]
      rw [← List.append_assoc (c.page.chart.map some)]
      exact Rising.concat_self h
  | reset =>
    simp only [step, line, List.map_append, List.map_singleton, Message.point]
    rw [← List.append_assoc (c.page.chart.map some)]
    exact Rising.concat_break h _
  | receive i =>
    obtain rfl : i = 0 := hinOrder
    simp only [step]
    cases hinbox : c.inbox with
    | nil => exact h
    | cons message inbox =>
      simp only [List.getElem?_cons_zero, List.eraseIdx_cons_zero]
      rw [line, hinbox, List.map_cons] at h
      cases message with
      | reset =>
        exact h.suffix ⟨c.page.chart.map some ++ [none], by simp [line, receive, Page.clear, totals,
          Message.point]⟩
      | state response =>
        simp only [receive]
        split_ifs
        · -- the answer comes to the end of the chart, and its first point may go
          have hchart := (tick_fields coerce c.page response).2.2.1
          obtain ⟨dropped, hdropped⟩ :=
            dequeAppend_suffix 30 c.page.chart (response.accepted, response.rejected)
          refine h.suffix ⟨dropped.map some, ?_⟩
          have hmap := congrArg (List.map some) hdropped
          rw [List.map_append, List.map_append] at hmap
          rw [line, hchart, ← List.append_assoc, ← List.append_assoc, hmap]
          simp [totals, Message.point]
        · simp only [List.append_assoc, List.cons_append] at h
          have hrest := h.erase
          rwa [← List.append_assoc] at hrest
  | lose i => exact rising_forget h hinOrder

theorem exists_points {inbox : List Message} (h : ∀ message ∈ inbox, message ≠ .reset) :
    ∃ points : List (ℕ × ℕ), inbox.map Message.point = points.map some := by
  induction inbox with
  | nil => exact ⟨[], rfl⟩
  | cons message inbox ih =>
    obtain ⟨hmessage, hinbox⟩ := List.forall_mem_cons.mp h
    obtain ⟨points, hpoints⟩ := ih hinbox
    cases message with
    | reset => exact absurd rfl hmessage
    | state response =>
      exact ⟨(response.accepted, response.rejected) :: points, congrArg (_ :: ·) hpoints⟩

theorem length_chart_step {c : Console} (h : c.page.chart.length ≤ 30) (action : Action) :
    (c.step coerce action).page.chart.length ≤ 30 := by
  cases action with
  | store | reset | lose => exact h
  | respond =>
    simp only [step]
    cases Dashboard.state c.history.state <;> exact h
  | receive i =>
    simp only [step]
    cases c.inbox[i]? with
    | none => exact h
    | some message =>
      cases message with
      | reset => exact Nat.zero_le 30
      | state response =>
        simp only [receive]
        split_ifs
        · rw [(tick_fields coerce c.page response).2.2.1]
          exact length_dequeAppend_le _ h
        · exact h

variable (coerce)

/-- While answers come in order and none to a reset is lost, both lines of the chart rise for as
long as it shows them, and the chart shows no more than has been counted since the last reset once
the page has been told of it. -/
theorem chart_rises {actions : List Action} (hinOrder : ∀ n (hn : n < actions.length),
    (after coerce (actions.take n)).InOrder actions[n]) :
    let c := after coerce actions
    c.page.chart.Pairwise (· ≤ ·) ∧ c.page.chart.length ≤ 30 ∧
      ((∀ message ∈ c.inbox, message ≠ .reset) → ∀ point ∈ c.page.chart, point ≤ c.totals) := by
  intro c
  have hrun (n : ℕ) : Rising (after coerce (actions.take n)).line ∧
      (after coerce (actions.take n)).page.chart.length ≤ 30 := by
    refine Run.foldl_take (P := fun c : Console ↦ Rising c.line ∧ c.page.chart.length ≤ 30)
      ⟨rising_initial, Nat.zero_le 30⟩ ?_ n
    intro n hn ih
    exact ⟨rising_step ih.1 (hinOrder n hn), length_chart_step ih.2 _⟩
  obtain ⟨hrising, hlength⟩ := hrun actions.length
  rw [List.take_length] at hrising hlength
  have hchart : Rising (c.page.chart.map some) :=
    (List.isChain_append.mp (List.isChain_append.mp hrising).1).1
  refine ⟨hchart.pairwise, hlength, ?_⟩
  intro htold point hpoint
  obtain ⟨points, hpoints⟩ := exists_points htold
  rw [line, hpoints, ← List.map_append, ← List.map_singleton, ← List.map_append] at hrising
  have hpairwise := List.pairwise_append.mp hrising.pairwise
  exact hpairwise.2.2 point (List.mem_append_left _ hpoint) _ (List.mem_singleton_self _)

theorem chart_rises_over_reset :
    let forged : Action := .store 5 none
    let c := after (fun _ ↦ 0) [forged, .respond, .receive 0, forged, .respond, .reset, .receive 0,
      .receive 0, forged, .respond, .receive 0]
    c.page.chart = [(0, 1)] ∧ ∀ point ∈ c.page.chart, point ≤ c.totals := by
  intro forged c
  have hinbox : c.inbox.isEmpty = true := by decide +kernel
  refine ⟨by decide +kernel, (chart_rises (fun _ ↦ 0) ?_).2.2 ?_⟩
  · intro n hn
    match n, hn with
    | 0, _ | 1, _ | 3, _ | 4, _ | 5, _ | 8, _ | 9, _ => exact trivial
    | 2, _ | 6, _ | 7, _ | 10, _ => exact rfl
  · intro message hmessage
    rw [show (after (fun _ ↦ 0) _).inbox = [] from List.isEmpty_iff.mp hinbox] at hmessage
    cases hmessage

end Console

end SpaceSec.Browser
