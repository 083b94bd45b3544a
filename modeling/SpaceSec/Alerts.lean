import SpaceSec.CriticalAlerts
import SpaceSec.Feed
import SpaceSec.Library.ExactFloat

namespace SpaceSec.Browser

open Python Dashboard

variable (coerce : Value → Float)

theorem tick_fields (page : Page) (s : Response) :
    (tick coerce page s).accepted = s.accepted ∧ (tick coerce page s).rejected = s.rejected ∧
      (tick coerce page s).chart = dequeAppend 30 page.chart (s.accepted, s.rejected) ∧
      (tick coerce page s).feed = (alerts s.recent).takeWhile Alert.renders := by
  rw [tick]
  split_ifs
  · simp only
    split_ifs <;> exact ⟨rfl, rfl, rfl, rfl⟩
  · exact ⟨rfl, rfl, rfl, rfl⟩

theorem mem_alerts {recent : List Dict} {alert : Alert} (h : alert ∈ alerts recent) :
    ∃ e ∈ recent, isString e "type" "REJECTED" = true ∧ alert = .ofEvent e := by
  obtain ⟨e, he, rfl⟩ := List.mem_map.mp h
  obtain ⟨hmem, hrejected⟩ := List.mem_filter.mp (List.mem_reverse.mp he)
  exact ⟨e, hmem, hrejected, rfl⟩

theorem length_alerts_le (recent : List Dict) : (alerts recent).length ≤ recent.length := by
  rw [alerts, List.length_map, List.length_reverse]
  exact List.length_filter_le _ _

theorem length_dequeAppend_le {α : Type} {maxlen : ℕ} {items : List α} (x : α)
    (h : items.length ≤ maxlen) : (dequeAppend maxlen items x).length ≤ maxlen := by
  rw [dequeAppend]
  split_ifs with hlong
  · rw [List.length_tail, List.length_append, List.length_singleton]
    omega
  · exact not_lt.mp hlong

theorem totals_le_handle (h : History) (nowMs : ℤ) (body : Option Value) :
    h.state.totals.accepted ≤ (h.handle (.event nowMs body)).state.totals.accepted ∧
      h.state.totals.rejected ≤ (h.handle (.event nowMs body)).state.totals.rejected := by
  rw [handle_event_state]
  rcases hingest : ingestEvent nowMs body h.state with ⟨ex | e, s'⟩
  · rcases ingestEvent_error hingest with rfl | hoverflows
    · exact ⟨le_rfl, le_rfl⟩
    · obtain ⟨ex', hex⟩ := ingestEvent_overflows hoverflows
      obtain ⟨-, rfl⟩ := Prod.mk.inj (hingest.symm.trans hex)
      exact ⟨Nat.le_succ _, le_rfl⟩
  · have hstores := ingestEvent_ok hingest
    simp only [hstores.accepted, hstores.rejected]
    exact ⟨Nat.le_add_right _ _, Nat.le_add_right _ _⟩

/-- The page stands for nothing but stored events. -/
structure Page.Backed (page : Page) (h : History) : Prop where
  feed : ∀ alert ∈ page.feed, ∃ e ∈ h.stored,
    isString e "type" "REJECTED" = true ∧ alert = .ofEvent e
  length_feed : page.feed.length ≤ 30
  accepted : page.accepted ≤ h.state.totals.accepted
  rejected : page.rejected ≤ h.state.totals.rejected
  chart : ∀ point ∈ page.chart,
    point.1 ≤ h.state.totals.accepted ∧ point.2 ≤ h.state.totals.rejected
  length_chart : page.chart.length ≤ 30

structure BackedResponse (s : Response) (h : History) : Prop where
  recent : ∀ e ∈ s.recent, e ∈ h.stored
  length : s.recent.length ≤ 30
  accepted : s.accepted ≤ h.state.totals.accepted
  rejected : s.rejected ≤ h.state.totals.rejected

/-- The banner has flashed for these timestamps, the latest first, each of them later than the one
before. -/
structure Flashed (page : Page) (h : History) (stamps : List Float) : Prop where
  length : stamps.length = page.flashes
  last : (stamps ++ [0]).head? = some page.lastCriticalSeen
  rising : (stamps ++ [0]).Pairwise fun x y : Float ↦ y < x
  critical : ∀ x ∈ stamps, ∃ e ∈ h.stored, isCritical e = true ∧ timestamp coerce e = x

/-- What is backed stays so while events are stored. -/
structure Extends (h h' : History) : Prop where
  stored : h.stored ⊆ h'.stored
  accepted : h.state.totals.accepted ≤ h'.state.totals.accepted
  rejected : h.state.totals.rejected ≤ h'.state.totals.rejected

theorem extends_handle (h : History) (nowMs : ℤ) (body : Option Value) :
    Extends h (h.handle (.event nowMs body)) := by
  obtain ⟨haccepted, hrejected⟩ := totals_le_handle h nowMs body
  refine ⟨?_, haccepted, hrejected⟩
  rcases handle_event_cases h nowMs body with ⟨-, e, -, hstored, -⟩ | ⟨-, hstored, -⟩
  · rw [hstored]
    exact List.subset_append_left _ _
  · rw [hstored]
    exact List.Subset.refl _

section Extends

variable {coerce} {page : Page} {s : Response} {h h' : History} (hextends : Extends h h')
include hextends

theorem Page.Backed.extend (hp : page.Backed h) : page.Backed h' where
  feed alert halert := by
    obtain ⟨e, he, hrejected, heq⟩ := hp.feed alert halert
    exact ⟨e, hextends.stored he, hrejected, heq⟩
  length_feed := hp.length_feed
  accepted := hp.accepted.trans hextends.accepted
  rejected := hp.rejected.trans hextends.rejected
  chart point hpoint := ⟨(hp.chart point hpoint).1.trans hextends.accepted,
    (hp.chart point hpoint).2.trans hextends.rejected⟩
  length_chart := hp.length_chart

theorem BackedResponse.extend (hs : BackedResponse s h) : BackedResponse s h' where
  recent e he := hextends.stored (hs.recent e he)
  length := hs.length
  accepted := hs.accepted.trans hextends.accepted
  rejected := hs.rejected.trans hextends.rejected

theorem Flashed.extend {stamps : List Float} (hf : Flashed coerce page h stamps) :
    Flashed coerce page h' stamps where
  length := hf.length
  last := hf.last
  rising := hf.rising
  critical x hx := by
    obtain ⟨e, he, hcritical, hts⟩ := hf.critical x hx
    exact ⟨e, hextends.stored he, hcritical, hts⟩

end Extends

section Receive

variable {coerce} {page : Page} {s : Response} {h : History}

theorem Page.Backed.tick (hp : page.Backed h) (hs : BackedResponse s h) :
    (Browser.tick coerce page s).Backed h := by
  obtain ⟨haccepted, hrejected, hchart, hfeed⟩ := tick_fields coerce page s
  refine ⟨?_, ?_, by rw [haccepted]; exact hs.accepted, by rw [hrejected]; exact hs.rejected,
    ?_, ?_⟩
  · intro alert halert
    rw [hfeed] at halert
    obtain ⟨e, he, hstring, heq⟩ := mem_alerts (List.takeWhile_subset _ halert)
    exact ⟨e, hs.recent e he, hstring, heq⟩
  · rw [hfeed]
    exact (List.takeWhile_prefix _).length_le.trans ((length_alerts_le _).trans hs.length)
  · intro point hpoint
    rw [hchart] at hpoint
    rcases mem_dequeAppend hpoint with hpoint | rfl
    · exact hp.chart point hpoint
    · exact ⟨hs.accepted, hs.rejected⟩
  · rw [hchart]
    exact length_dequeAppend_le _ hp.length_chart

/-- A tick raises `lastCriticalSeen` to the timestamp of a stored critical event and flashes, or it
does neither. -/
theorem Flashed.next {stamps : List Float} (hf : Flashed coerce page h stamps)
    (hrecent : ∀ e ∈ s.recent, e ∈ h.stored)
    (hlt : page.lastCriticalSeen < newestCritical coerce s.recent) {page' : Page}
    (hflashes : page'.flashes = page.flashes + 1)
    (hlast : page'.lastCriticalSeen = newestCritical coerce s.recent) :
    Flashed coerce page' h (newestCritical coerce s.recent :: stamps) := by
  have hfirst : ∀ y ∈ stamps ++ [0], y < newestCritical coerce s.recent := by
    have hhead := hf.last
    have hrising := hf.rising
    intro y hy
    cases hchain : stamps ++ [0] with
    | nil =>
      rw [hchain] at hy
      cases hy
    | cons x xs =>
      rw [hchain] at hhead hrising hy
      obtain rfl := Option.some_inj.mp hhead
      rcases List.mem_cons.mp hy with rfl | hy
      · exact hlt
      · have hyx := List.rel_of_pairwise_cons hrising hy
        exact FloatOrder.lt_trans (FloatOrder.isNaN_of_lt hyx).1 (FloatOrder.isNaN_of_lt hyx).2
          (FloatOrder.isNaN_of_lt hlt).2 hyx hlt
  refine ⟨by rw [List.length_cons, hf.length, hflashes], by rw [hlast]; rfl,
    List.pairwise_cons.mpr ⟨hfirst, hf.rising⟩, ?_⟩
  intro x hx
  rcases List.mem_cons.mp hx with rfl | hx
  · rcases newestCritical_mem coerce s.recent with hzero | ⟨e, he, hcritical, hts⟩
    · have hpos := hfirst 0 (List.mem_append_right _ (List.mem_singleton_self 0))
      rw [hzero] at hpos
      exact absurd hpos (FloatOrder.not_lt_self rfl)
    · exact ⟨e, hrecent e he, hcritical, hts⟩
  · exact hf.critical x hx

end Receive

structure Monitor.Backed (m : Monitor) : Prop where
  events : m.history.state.events = m.history.stored.rtake 500
  replies : ∀ reply ∈ m.replies, BackedResponse reply.response m.history
  page : m.page.Backed m.history
  flashed : ∃ stamps, Flashed coerce m.page m.history stamps

variable {coerce}

theorem Monitor.Backed.forget {m : Monitor} (hb : m.Backed coerce) (i : ℕ) :
    Monitor.Backed coerce { m with replies := m.replies.eraseIdx i } :=
  ⟨hb.events, fun reply hreply ↦ hb.replies reply (List.mem_of_mem_eraseIdx hreply), hb.page,
    hb.flashed⟩

theorem Monitor.Backed.receive {m : Monitor} (hb : m.Backed coerce) {reply : Reply}
    (hreply : BackedResponse reply.response m.history) :
    (m.receive coerce reply).Backed coerce := by
  obtain ⟨stamps, hflashed⟩ := hb.flashed
  obtain ⟨hflashes, hlast⟩ := receive_page coerce m reply
  refine ⟨hb.events, hb.replies, ?_, ?_⟩
  · simp only [Monitor.receive]
    split_ifs
    · exact hb.page.tick hreply
    · exact hb.page
  · by_cases hflash : m.page.Flashes coerce reply.response
    · rw [if_pos hflash] at hflashes hlast
      exact ⟨_, hflashed.next hreply.recent hflash.2 hflashes hlast⟩
    · rw [if_neg hflash] at hflashes hlast
      refine ⟨stamps, ?_, ?_, hflashed.rising, hflashed.critical⟩
      · rw [hflashed.length, hflashes]
      · rw [hflashed.last, hlast]

theorem Monitor.Backed.step {m : Monitor} (hb : m.Backed coerce) (action : Action) :
    (m.step coerce action).Backed coerce := by
  cases action with
  | store nowMs body =>
    have hextends := extends_handle m.history nowMs body
    obtain ⟨stamps, hflashed⟩ := hb.flashed
    exact ⟨events_handle hb.events _, fun reply hreply ↦ (hb.replies reply hreply).extend hextends,
      hb.page.extend hextends, stamps, hflashed.extend hextends⟩
  | respond =>
    simp only [Monitor.step]
    cases hstate : state m.history.state with
    | error ex => exact hb
    | ok response =>
      obtain ⟨-, haccepted, hrejected, hrecent⟩ := state_fields hstate
      refine ⟨hb.events, ?_, hb.page, hb.flashed⟩
      intro reply hreply
      rcases List.mem_append.mp hreply with hreply | hreply
      · exact hb.replies reply hreply
      · obtain rfl := List.mem_singleton.mp hreply
        refine ⟨?_, ?_, haccepted.le, hrejected.le⟩
        · intro e he
          simp only [hrecent, hb.events] at he
          exact List.mem_of_mem_drop (List.mem_of_mem_drop he)
        · simp only [hrecent, List.rtake, List.length_drop]
          omega
  | receive i =>
    simp only [Monitor.step]
    cases hreply : m.replies[i]? with
    | none => exact hb
    | some reply =>
      exact (hb.forget i).receive (hb.replies reply (List.mem_of_getElem? hreply))
  | lose i => exact hb.forget i

variable (coerce)

theorem after_backed (actions : List Action) : (Monitor.after coerce actions).Backed coerce := by
  induction actions using List.reverseRecOn with
  | nil =>
    exact ⟨(List.rtake_nil 500).symm, nofun, ⟨nofun, Nat.zero_le _, le_rfl, le_rfl, nofun,
      Nat.zero_le _⟩, [], rfl, rfl, List.pairwise_singleton _ _, nofun⟩
  | append_singleton actions action ih =>
    rw [Monitor.after, List.foldl_append]
    exact ih.step action

theorem Flashed.flashes_le {page : Page} {h : History} {stamps : List Float}
    (hf : Flashed coerce page h stamps) : page.flashes ≤ h.stored.countP isCritical := by
  have hnodup : stamps.Nodup := by
    refine (List.pairwise_append.mp hf.rising).1.imp fun {x y} hyx ↦ ?_
    rintro rfl
    exact FloatOrder.not_lt_self (FloatOrder.isNaN_of_lt hyx).1 hyx
  have hsubset : stamps ⊆ (h.stored.filter isCritical).map (timestamp coerce) := by
    intro x hx
    obtain ⟨e, he, hcritical, hts⟩ := hf.critical x hx
    exact List.mem_map.mpr ⟨e, List.mem_filter.mpr ⟨he, hcritical⟩, hts⟩
  have hlength := (hnodup.subperm hsubset).length_le
  rwa [List.length_map, ← List.countP_eq_length_filter, hf.length] at hlength

/-- Whatever is posted and in whatever order responses come or are lost, the page shows alerts of
stored events only, at most 30 of them, counts no more than the dashboard has counted, and flashes
its banner no more often than critical events have been stored. -/
theorem page_never_overstates (actions : List Action) :
    let m := Monitor.after coerce actions
    m.page.flashes ≤ m.history.stored.countP isCritical ∧
      (∀ alert ∈ m.page.feed, ∃ e ∈ m.history.stored,
        isString e "type" "REJECTED" = true ∧ alert = .ofEvent e) ∧
      m.page.feed.length ≤ 30 ∧ m.page.chart.length ≤ 30 ∧
      m.page.accepted ≤ m.history.state.totals.accepted ∧
      m.page.rejected ≤ m.history.state.totals.rejected ∧
      ∀ point ∈ m.page.chart, point.1 ≤ m.history.state.totals.accepted ∧
        point.2 ≤ m.history.state.totals.rejected := by
  intro m
  have hb : m.Backed coerce := after_backed coerce actions
  obtain ⟨stamps, hflashed⟩ := hb.flashed
  exact ⟨hflashed.flashes_le, hb.page.feed, hb.page.length_feed, hb.page.length_chart,
    hb.page.accepted, hb.page.rejected, hb.page.chart⟩

end SpaceSec.Browser
