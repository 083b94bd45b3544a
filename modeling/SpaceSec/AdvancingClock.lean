import SpaceSec.AlertMarkup

namespace SpaceSec.Browser

open Python Dashboard DashboardClient

/-- What is stored is a report of the satellite, at a time that a float can hold. -/
def Reported : Action → Prop
  | .store nowMs body => 0 < nowMs ∧ nowMs < 2 ^ 53 ∧
    ∃ event, Feed.IsReport event ∧ body = some (.dict (eventDict event))
  | _ => True

/-- The time of a critical event. -/
def criticalClock : Action → Option ℤ
  | .store nowMs body =>
    ((fillDefaults nowMs body).toOption.filter isCritical).map fun _ ↦ nowMs
  | .respond | .receive _ | .lose _ => none

def stamp (e : Dict) : ℤ :=
  match Dict.get e (str "timestamp") with
  | some (.int n) => n
  | _ => 0

/-- An event as the dashboard stores a report. -/
structure Showable (e : Dict) : Prop where
  isJson : Value.isJsonItems e = true
  renders : (Alert.ofEvent e).renders = true
  timestamp : Dict.get e (str "timestamp") = some (.int (stamp e))
  pos : 0 < stamp e
  fits : stamp e < 2 ^ 53

theorem showable_entry {event : SecurityEvent} (h : Feed.IsReport event) {nowMs : ℤ}
    (hpos : 0 < nowMs) (hfits : nowMs < 2 ^ 53) : Showable (entry nowMs event) :=
  ⟨rfl, renders_entry h nowMs, rfl, hpos, hfits⟩

theorem Reported.fillDefaults_eq {nowMs : ℤ} {body : Option Value}
    (h : Reported (.store nowMs body)) {e : Dict} (he : fillDefaults nowMs body = .ok e) :
    Showable e ∧ stamp e = nowMs := by
  obtain ⟨hpos, hfits, event, hevent, rfl⟩ := h
  rw [fillDefaults_eventDict hevent.reportable] at he
  obtain rfl := Except.ok.inj he
  exact ⟨showable_entry hevent hpos hfits, rfl⟩

theorem Reported.numeric {action : Action} (h : Reported action) : NumericAction action := by
  cases action with
  | store nowMs body => exact fun e he ↦ ⟨_, (h.fillDefaults_eq he).1.timestamp, rfl⟩
  | _ => exact trivial

/-- Every event is stamped, the critical ones with the times given, and the page has been shown none
that was stored after the first `lastTick`. -/
structure Monitor.Stamped (m : Monitor) (clocks : List ℤ) : Prop where
  events : m.history.state.events = m.history.stored.rtake 500
  showable : ∀ e ∈ m.history.stored, Showable e
  clocks : ((m.history.stored.filter isCritical).map stamp).Sublist clocks
  replies : ∀ reply ∈ m.replies, reply.stored ≤ m.history.stored.length ∧
    reply.response.recent = (m.history.stored.take reply.stored).rtake 30
  lastTick : m.lastTick ≤ m.history.stored.length
  seen : ∀ s ∈ m.seen, ∀ e ∈ s.recent, e ∈ m.history.stored.take m.lastTick

theorem Monitor.Stamped.store {m : Monitor} {clocks : List ℤ} (hs : m.Stamped clocks) {nowMs : ℤ}
    {body : Option Value} (hreported : Reported (.store nowMs body)) :
    Monitor.Stamped { m with history := m.history.handle (.event nowMs body) }
      (clocks ++ (criticalClock (.store nowMs body)).toList) := by
  rcases handle_event_cases m.history nowMs body with ⟨-, e, he, hstored, -⟩ | ⟨-, hstored, -⟩
  · obtain ⟨hshowable, hstamp⟩ := hreported.fillDefaults_eq he
    have hclock : (criticalClock (.store nowMs body)).toList =
        ([e].filter isCritical).map stamp := by
      simp only [criticalClock, he, Except.toOption, Option.filter_some, List.filter_cons,
        List.filter_nil]
      split_ifs
      · simp [hstamp]
      · rfl
    refine ⟨events_handle hs.events _, ?_, ?_, ?_, ?_, ?_⟩
    · simp only [hstored]
      exact List.forall_mem_append.mpr ⟨hs.showable, List.forall_mem_singleton.mpr hshowable⟩
    · simp only [hstored, List.filter_append, List.map_append, hclock]
      exact hs.clocks.append (List.Sublist.refl _)
    · intro reply hreply
      obtain ⟨hle, hrecent⟩ := hs.replies reply hreply
      simp only [hstored, List.length_append, List.take_append_of_le_length hle]
      exact ⟨by omega, hrecent⟩
    · simp only [hstored, List.length_append]
      exact hs.lastTick.trans (Nat.le_add_right _ _)
    · simp only [hstored, List.take_append_of_le_length hs.lastTick]
      exact hs.seen
  · refine ⟨events_handle hs.events _, ?_, ?_, ?_, ?_, ?_⟩
    all_goals simp only [hstored]
    · exact hs.showable
    · exact hs.clocks.trans (List.sublist_append_left _ _)
    · exact hs.replies
    · exact hs.lastTick
    · exact hs.seen

theorem Monitor.Stamped.forget {m : Monitor} {clocks : List ℤ} (hs : m.Stamped clocks) (i : ℕ) :
    Monitor.Stamped { m with replies := m.replies.eraseIdx i } clocks :=
  ⟨hs.events, hs.showable, hs.clocks,
    fun reply hreply ↦ hs.replies reply (List.mem_of_mem_eraseIdx hreply), hs.lastTick, hs.seen⟩

variable {coerce : Value → Float}

theorem Monitor.Stamped.receive {m : Monitor} {clocks : List ℤ} (hs : m.Stamped clocks)
    {reply : Reply} (hstored : reply.stored ≤ m.history.stored.length)
    (hrecent : reply.response.recent = (m.history.stored.take reply.stored).rtake 30) :
    (m.receive coerce reply).Stamped clocks := by
  refine ⟨hs.events, hs.showable, hs.clocks, hs.replies, ?_, ?_⟩
  · simp only [Monitor.receive]
    split_ifs
    · exact max_le hs.lastTick hstored
    · exact hs.lastTick
  · simp only [Monitor.receive]
    split_ifs
    · intro s hmem e he
      rcases List.mem_append.mp hmem with hmem | hmem
      · exact List.take_subset_take_left _ (le_max_left _ _) (hs.seen s hmem e he)
      · obtain rfl := List.mem_singleton.mp hmem
        rw [hrecent] at he
        exact List.take_subset_take_left _ (le_max_right _ _) (List.mem_of_mem_drop he)
    · exact hs.seen

theorem Monitor.Stamped.step {m : Monitor} {clocks : List ℤ} (hs : m.Stamped clocks)
    {action : Action} (hreported : Reported action) :
    (m.step coerce action).Stamped (clocks ++ (criticalClock action).toList) := by
  cases action with
  | store nowMs body => exact hs.store hreported
  | respond =>
    rw [criticalClock, Option.toList_none, List.append_nil]
    simp only [Monitor.step]
    cases hstate : state m.history.state with
    | error ex => exact hs
    | ok response =>
      refine ⟨hs.events, hs.showable, hs.clocks, ?_, hs.lastTick, hs.seen⟩
      intro reply hreply
      rcases List.mem_append.mp hreply with hreply | hreply
      · exact hs.replies reply hreply
      · obtain rfl := List.mem_singleton.mp hreply
        refine ⟨le_rfl, ?_⟩
        simp only [(state_fields hstate).2.2.2, hs.events, List.take_length]
        exact rtake_rtake (by decide) _
  | receive i =>
    rw [criticalClock, Option.toList_none, List.append_nil]
    simp only [Monitor.step]
    cases hreply : m.replies[i]? with
    | none => exact hs
    | some reply =>
      obtain ⟨hstored, hrecent⟩ := hs.replies reply (List.mem_of_getElem? hreply)
      exact (hs.forget i).receive hstored hrecent
  | lose i =>
    rw [criticalClock, Option.toList_none, List.append_nil]
    exact hs.forget i

theorem after_stamped {actions : List Action} (hreported : ∀ action ∈ actions, Reported action) :
    (Monitor.after coerce actions).Stamped (actions.filterMap criticalClock) := by
  induction actions using List.reverseRecOn with
  | nil => exact ⟨(List.rtake_nil 500).symm, nofun, List.Sublist.refl [], nofun, le_rfl, nofun⟩
  | append_singleton actions action ih =>
    obtain ⟨hbefore, haction⟩ := List.forall_mem_append.mp hreported
    have hclock : [action].filterMap criticalClock = (criticalClock action).toList := by
      rw [List.filterMap_cons]
      cases criticalClock action <;> rfl
    rw [Monitor.after, List.foldl_append, List.filterMap_append, hclock]
    exact (ih hbefore).step (List.forall_mem_singleton.mp haction)

theorem timestamp_lt {e e' : Dict} (he : Showable e) (he' : Showable e') (h : stamp e < stamp e') :
    timestamp coerce e < timestamp coerce e' := by
  rw [timestamp, timestamp, he.timestamp, he'.timestamp]
  exact FloatOrder.ofInt_lt_ofInt he.pos.le h he'.fits

theorem timestamp_pos {e : Dict} (he : Showable e) : 0 < timestamp coerce e := by
  rw [timestamp, he.timestamp]
  change Float.ofInt 0 < Float.ofInt (stamp e)
  exact FloatOrder.ofInt_lt_ofInt le_rfl he.pos he.fits

theorem mem_drop_of_mem_rtake {α : Type} {xs : List α} {x : α} {n k m : ℕ} (hn : n ≤ xs.length)
    (h : x ∈ ((xs.take n).rtake m).rtake (n - k)) : x ∈ xs.drop k := by
  have hlength : (xs.take n).length = n := List.length_take_of_le hn
  rw [List.rtake, List.rtake, List.drop_drop, List.length_drop, hlength] at h
  have hle : min k n ≤ n - m + (n - (n - m) - (n - k)) := by omega
  have hmem := (List.drop_sublist_drop_left (xs.take n) hle).subset h
  rcases le_total k n with hk | hk
  · rw [min_eq_left hk, List.drop_take] at hmem
    exact List.mem_of_mem_take hmem
  · rw [min_eq_right hk, List.drop_take, Nat.sub_self] at hmem
    cases hmem

/-- New events of a response come from behind all those that the page has been shown. -/
theorem Monitor.Stamped.announced {m : Monitor} {clocks : List ℤ} (hs : m.Stamped clocks)
    (hclocks : clocks.Pairwise (· < ·)) (action : Action) : Announced coerce m action := by
  cases action with
  | receive i =>
    intro reply hreply hnew
    obtain ⟨hstored, hrecent⟩ := hs.replies reply (List.mem_of_getElem? hreply)
    have hmem : ∀ e ∈ reply.response.recent, e ∈ m.history.stored := by
      intro e he
      rw [hrecent] at he
      exact List.mem_of_mem_take (List.mem_of_mem_drop he)
    refine ⟨?_, ?_⟩
    · refine Bool.and_eq_true_iff.mpr ⟨List.all_eq_true.mpr fun e he ↦
        (hs.showable e (hmem e he)).isJson, List.all_eq_true.mpr fun alert halert ↦ ?_⟩
      obtain ⟨e, he, -, rfl⟩ := mem_alerts halert
      exact (hs.showable e (hmem e he)).renders
    · obtain ⟨e, he, hcritical⟩ := hnew
      have hafter : e ∈ m.history.stored.drop m.lastTick := by
        rw [hrecent] at he
        exact mem_drop_of_mem_rtake hstored he
      refine ⟨e, List.mem_of_mem_drop he, hcritical,
        timestamp_pos (hs.showable e (List.mem_of_mem_drop hafter)), ?_⟩
      intro s hseen e' he' hcritical'
      have hbefore := hs.seen s hseen e' he'
      apply timestamp_lt (hs.showable e' (List.mem_of_mem_take hbefore))
        (hs.showable e (List.mem_of_mem_drop hafter))
      have hsplit := hclocks.sublist hs.clocks
      rw [← List.take_append_drop m.lastTick m.history.stored, List.filter_append,
        List.map_append, List.pairwise_append] at hsplit
      exact hsplit.2.2 _ (List.mem_map_of_mem (List.mem_filter.mpr ⟨hbefore, hcritical'⟩)) _
        (List.mem_map_of_mem (List.mem_filter.mpr ⟨hafter, hcritical⟩))
  | _ => exact trivial

/-- No critical alert is missed on a dashboard that the satellite alone feeds, if its clock moves on
by a millisecond or more from one critical event to the next. -/
theorem no_alert_missed {actions : List Action} (hreported : ∀ action ∈ actions, Reported action)
    (hclock : (actions.filterMap criticalClock).Pairwise (· < ·)) (n : ℕ)
    (hn : n < actions.length) :
    Alerted coerce (Monitor.after coerce (actions.take n)) actions[n] := by
  have hbefore : ∀ action ∈ actions.take n, Reported action :=
    fun action haction ↦ hreported action (List.mem_of_mem_take haction)
  have hvalid := after_valid coerce (fun action haction ↦ (hbefore action haction).numeric) n
  rw [List.take_take, min_self] at hvalid
  refine (alerted_iff hvalid _).mpr ((after_stamped hbefore).announced ?_ _)
  exact hclock.sublist ((List.take_sublist n actions).filterMap _)

def forgeryAt (nowMs : ℤ) : Action :=
  .store nowMs (some (.dict (eventDict ⟨"REJECTED", "TAG_FAIL", 2026, 12, "CRITICAL"⟩)))

theorem no_alert_missed_of_two_forgeries :
    let actions := [forgeryAt 1000, .respond, .receive 0, forgeryAt 1001, .respond, .receive 0]
    Alerted (fun _ ↦ 0) (Monitor.after (fun _ ↦ 0) (actions.take 5)) (.receive 0) := by
  intro actions
  have hforgery (nowMs : ℤ) (hpos : 0 < nowMs) (hfits : nowMs < 2 ^ 53) :
      Reported (forgeryAt nowMs) :=
    ⟨hpos, hfits, _, ⟨.tagFail, { (default : SecurePacket) with sessionId := 2026 }, 12,
      List.mem_singleton_self _⟩, rfl⟩
  refine no_alert_missed ?_ ?_ 5 (by decide)
  · simp only [actions, List.forall_mem_cons]
    exact ⟨hforgery 1000 (by decide) (by decide), trivial, trivial,
      hforgery 1001 (by decide) (by decide), trivial, trivial, nofun⟩
  · exact show [(1000 : ℤ), 1001].Pairwise (· < ·) by decide

end SpaceSec.Browser
