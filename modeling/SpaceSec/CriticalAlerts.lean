import SpaceSec.Browser
import SpaceSec.Library.Run

namespace SpaceSec.Browser

open Python Dashboard

theorem isJson_of_get {key : Str} {value : Value} {e : Dict} (h : Value.isJsonItems e = true)
    (hget : Dict.get e key = some value) : value.isJson = true := by
  induction e with
  | nil => cases hget
  | cons item e ih =>
    obtain ⟨name, v⟩ := item
    simp only [Value.isJsonItems, Bool.and_eq_true] at h
    rw [Dict.get, List.lookup_cons] at hget
    split at hget
    · obtain rfl := Option.some_inj.mp hget
      exact h.1
    · exact ih h.2 hget

def NumericTimestamp (e : Dict) : Prop :=
  ∃ value, Dict.get e (str "timestamp") = some value ∧ value.number?.isSome

variable {coerce : Value → Float}

theorem timestamp_isNaN {e : Dict} (h : NumericTimestamp e) (hjson : Value.isJsonItems e = true) :
    (timestamp coerce e).isNaN = false := by
  obtain ⟨value, hget, hnumber⟩ := h
  have hvalue := isJson_of_get hjson hget
  rw [timestamp, hget]
  cases value with
  | bool b =>
    cases b with
    | false => exact Binary64.isNaN_ofInt 0
    | true => exact Binary64.isNaN_ofInt 1
  | int n => exact Binary64.isNaN_ofInt n
  | float x => exact Binary64.isNaN_of_isFinite hvalue
  | none | str | list | dict => cases hnumber

section Newest

variable {recent : List Dict} (hnumeric : ∀ e ∈ recent, NumericTimestamp e)
  (hjson : ∀ e ∈ recent, Value.isJsonItems e = true)
include hnumeric hjson

theorem criticals_isNaN : ∀ x ∈ (recent.filter isCritical).map (timestamp coerce),
    x.isNaN = false := by
  intro x hx
  obtain ⟨e, he, rfl⟩ := List.mem_map.mp hx
  have hmem := (List.mem_filter.mp he).1
  exact timestamp_isNaN (hnumeric e hmem) (hjson e hmem)

variable (coerce) in
theorem newestCritical_isNaN : (newestCritical coerce recent).isNaN = false :=
  FloatOrder.foldl_mathMax_isNaN (criticals_isNaN hnumeric hjson) rfl

theorem newestCritical_lt {x : Float} (hx : x.isNaN = false) :
    newestCritical coerce recent < x ↔
      0 < x ∧ ∀ e ∈ recent, isCritical e = true → timestamp coerce e < x := by
  rw [newestCritical, FloatOrder.foldl_mathMax_lt (criticals_isNaN hnumeric hjson) rfl hx]
  simp only [List.forall_mem_map, List.forall_mem_filter]

theorem lt_newestCritical {x : Float} (hx : x.isNaN = false) :
    x < newestCritical coerce recent ↔
      x < 0 ∨ ∃ e ∈ recent, isCritical e = true ∧ x < timestamp coerce e := by
  rw [newestCritical, FloatOrder.lt_foldl_mathMax (criticals_isNaN hnumeric hjson) rfl hx]
  refine or_congr_right ⟨?_, ?_⟩
  · intro h
    obtain ⟨y, hy, hxy⟩ := h
    obtain ⟨e, he, rfl⟩ := List.mem_map.mp hy
    exact ⟨e, (List.mem_filter.mp he).1, (List.mem_filter.mp he).2, hxy⟩
  · intro h
    obtain ⟨e, he, hcritical, hxe⟩ := h
    exact ⟨_, List.mem_map_of_mem (List.mem_filter.mpr ⟨he, hcritical⟩), hxe⟩

end Newest

variable (coerce) in
theorem newestCritical_mem (recent : List Dict) : newestCritical coerce recent = 0 ∨
    ∃ e ∈ recent, isCritical e = true ∧ timestamp coerce e = newestCritical coerce recent := by
  refine (FloatOrder.foldl_mathMax_mem 0 _).imp_right fun hmem ↦ ?_
  obtain ⟨e, he, hts⟩ := List.mem_map.mp hmem
  exact ⟨e, (List.mem_filter.mp he).1, (List.mem_filter.mp he).2, hts⟩

theorem mem_events_handle {h : History} {nowMs : ℤ} {body : Option Value} {e : Dict}
    (he : e ∈ (h.handle (.event nowMs body)).state.events) :
    e ∈ h.state.events ∨ fillDefaults nowMs body = .ok e := by
  rw [handle_event_state] at he
  rcases hs : ingestEvent nowMs body h.state with ⟨ex | e', s'⟩
  · rw [hs] at he
    rcases ingestEvent_error hs with rfl | hoverflows
    · exact Or.inl he
    · obtain ⟨ex', hex⟩ := ingestEvent_overflows hoverflows
      obtain ⟨-, rfl⟩ := Prod.mk.inj (hs.symm.trans hex)
      exact Or.inl he
  · rw [hs] at he
    simp only [(ingestEvent_ok hs).events] at he
    rcases mem_dequeAppend he with he | rfl
    · exact Or.inl he
    · exact Or.inr (fillDefaults_of_stored hs)

def NumericAction : Action → Prop
  | .store nowMs body => ∀ e, fillDefaults nowMs body = .ok e → NumericTimestamp e
  | _ => True

/-- The response holds a critical event that was stored after the response of the last successful
tick was made. -/
def Monitor.HasNewCritical (m : Monitor) (reply : Reply) : Prop :=
  ∃ e ∈ reply.response.recent.rtake (reply.stored - m.lastTick), isCritical e = true

instance (m : Monitor) (reply : Reply) : Decidable (m.HasNewCritical reply) :=
  inferInstanceAs (Decidable (∃ e ∈ _, _))

variable (coerce)

/-- A critical event of the response is later than every one that the page has been shown. -/
def Monitor.HasLaterCritical (m : Monitor) (s : Response) : Prop :=
  ∃ e ∈ s.recent, isCritical e = true ∧ 0 < timestamp coerce e ∧
    ∀ r ∈ m.seen, ∀ e' ∈ r.recent, isCritical e' = true →
      timestamp coerce e' < timestamp coerce e

instance (m : Monitor) (s : Response) : Decidable (m.HasLaterCritical coerce s) :=
  inferInstanceAs (Decidable (∃ e ∈ _, _ ∧ _ ∧ ∀ r ∈ _, ∀ e' ∈ _, _ → _))

/-- `lastCriticalSeen` stands for all critical events that the page has been shown. -/
structure Monitor.Valid (m : Monitor) : Prop where
  events : ∀ e ∈ m.history.state.events, NumericTimestamp e
  replies : ∀ reply ∈ m.replies, ∀ e ∈ reply.response.recent, NumericTimestamp e
  last_isNaN : m.page.lastCriticalSeen.isNaN = false
  last_lt : ∀ x : Float, x.isNaN = false → (m.page.lastCriticalSeen < x ↔
    0 < x ∧ ∀ r ∈ m.seen, ∀ e ∈ r.recent, isCritical e = true → timestamp coerce e < x)

theorem receive_seen (m : Monitor) (reply : Reply) : (m.receive coerce reply).seen =
    if completes reply.response then m.seen ++ [reply.response] else m.seen := rfl

/-- The tick comes to its end, and its newest critical event is later than `lastCriticalSeen`. -/
def Page.Flashes (page : Page) (s : Response) : Prop :=
  completes s = true ∧ page.lastCriticalSeen < newestCritical coerce s.recent

instance (page : Page) (s : Response) : Decidable (page.Flashes coerce s) :=
  inferInstanceAs (Decidable (_ ∧ _))

theorem receive_page (m : Monitor) (reply : Reply) :
    (m.receive coerce reply).page.flashes = (if m.page.Flashes coerce reply.response then
        m.page.flashes + 1 else m.page.flashes) ∧
      (m.receive coerce reply).page.lastCriticalSeen =
        if m.page.Flashes coerce reply.response then newestCritical coerce reply.response.recent
        else m.page.lastCriticalSeen := by
  by_cases hflash : m.page.Flashes coerce reply.response
  · rw [if_pos hflash, if_pos hflash]
    obtain ⟨hcompletes, hlt⟩ := hflash
    obtain ⟨hjson, hrenders⟩ := Bool.and_eq_true_iff.mp hcompletes
    simp only [Monitor.receive, tick, hjson, hrenders, hlt, if_true, and_self]
  · rw [if_neg hflash, if_neg hflash]
    by_cases hjson : isJson reply.response = true
    · by_cases hrenders : (alerts reply.response.recent).all Alert.renders = true
      · have hlt : ¬ m.page.lastCriticalSeen < newestCritical coerce reply.response.recent :=
          fun hlt ↦ hflash ⟨Bool.and_eq_true_iff.mpr ⟨hjson, hrenders⟩, hlt⟩
        simp only [Monitor.receive, tick, hjson, hrenders, hlt, if_true, if_false, and_self]
      · simp only [Monitor.receive, tick, hjson, hrenders, if_true, Bool.false_eq_true, if_false,
          and_self]
    · simp only [Monitor.receive, hjson, Bool.false_eq_true, if_false, and_self]

section Receive

variable {coerce} {m : Monitor} {reply : Reply} (hv : m.Valid coerce)
  (hnumeric : ∀ e ∈ reply.response.recent, NumericTimestamp e)
include hv hnumeric

/-- A response flashes the banner when its tick comes to its end and it has news for the page. -/
theorem receive_flashes_iff :
    (m.receive coerce reply).page.flashes = m.page.flashes + 1 ↔
      completes reply.response = true ∧ m.HasLaterCritical coerce reply.response := by
  rw [(receive_page coerce m reply).1]
  by_cases hcompletes : completes reply.response = true
  · have hjson : ∀ e ∈ reply.response.recent, Value.isJsonItems e = true :=
      List.all_eq_true.mp (Bool.and_eq_true_iff.mp hcompletes).1
    have hnewest := newestCritical_isNaN coerce hnumeric hjson
    have hflash : m.page.lastCriticalSeen < newestCritical coerce reply.response.recent ↔
        m.HasLaterCritical coerce reply.response := by
      refine ⟨?_, ?_⟩
      · intro hlt
        obtain ⟨hpos, hseen⟩ := (hv.last_lt _ hnewest).mp hlt
        rcases newestCritical_mem coerce reply.response.recent with hzero | ⟨e, he, hcritical, hts⟩
        · rw [hzero] at hpos
          exact absurd hpos (FloatOrder.not_lt_self rfl)
        · rw [← hts] at hpos hseen
          exact ⟨e, he, hcritical, hpos, hseen⟩
      · intro hlater
        obtain ⟨e, he, hcritical, hpos, hseen⟩ := hlater
        rw [lt_newestCritical hnumeric hjson hv.last_isNaN]
        refine Or.inr ⟨e, he, hcritical, ?_⟩
        exact (hv.last_lt _ (timestamp_isNaN (hnumeric e he) (hjson e he))).mpr ⟨hpos, hseen⟩
    rw [← hflash]
    split_ifs with hf
    · exact iff_of_true rfl hf
    · exact iff_of_false (Nat.ne_of_lt (Nat.lt_succ_self _)) hf
  · rw [if_neg fun hf ↦ hcompletes hf.1]
    exact iff_of_false (Nat.ne_of_lt (Nat.lt_succ_self _)) fun hf ↦ hcompletes hf.1

theorem Monitor.Valid.receive : (m.receive coerce reply).Valid coerce := by
  have hlast := (receive_page coerce m reply).2
  refine ⟨hv.events, hv.replies, ?_, ?_⟩
  · rw [hlast]
    split_ifs with hflash
    · exact newestCritical_isNaN coerce hnumeric
        (List.all_eq_true.mp (Bool.and_eq_true_iff.mp hflash.1).1)
    · exact hv.last_isNaN
  · intro x hx
    rw [hlast, receive_seen]
    by_cases hcompletes : completes reply.response = true
    · have hjson : ∀ e ∈ reply.response.recent, Value.isJsonItems e = true :=
        List.all_eq_true.mp (Bool.and_eq_true_iff.mp hcompletes).1
      have hnewest := newestCritical_isNaN coerce hnumeric hjson
      -- what remains is the later of the two
      have hboth : (if m.page.Flashes coerce reply.response then
          newestCritical coerce reply.response.recent else m.page.lastCriticalSeen) < x ↔
            m.page.lastCriticalSeen < x ∧ newestCritical coerce reply.response.recent < x := by
        split_ifs with hflash
        · exact (and_iff_right_of_imp
            (FloatOrder.lt_trans hv.last_isNaN hnewest hx hflash.2)).symm
        · refine (and_iff_left_of_imp fun hlastx ↦ ?_).symm
          exact (FloatOrder.lt_or_lt hv.last_isNaN hnewest hx hlastx).resolve_left
            fun hlt ↦ hflash ⟨hcompletes, hlt⟩
      rw [if_pos hcompletes, hboth, hv.last_lt x hx, newestCritical_lt hnumeric hjson hx,
        List.forall_mem_append, List.forall_mem_singleton, and_and_and_comm, and_self]
    · rw [if_neg hcompletes, if_neg fun hflash ↦ hcompletes hflash.1]
      exact hv.last_lt x hx

end Receive

theorem Monitor.Valid.forget {coerce : Value → Float} {m : Monitor} (hv : m.Valid coerce) (i : ℕ) :
    Monitor.Valid coerce { m with replies := m.replies.eraseIdx i } :=
  ⟨hv.events, fun reply hreply ↦ hv.replies reply (List.mem_of_mem_eraseIdx hreply), hv.last_isNaN,
    hv.last_lt⟩

theorem Monitor.Valid.step {coerce : Value → Float} {m : Monitor} (hv : m.Valid coerce)
    {action : Action} (ha : NumericAction action) : (m.step coerce action).Valid coerce := by
  cases action with
  | store nowMs body =>
    refine ⟨?_, hv.replies, hv.last_isNaN, hv.last_lt⟩
    intro e he
    exact (mem_events_handle he).elim (hv.events e) (ha e)
  | respond =>
    simp only [Monitor.step]
    cases hstate : state m.history.state with
    | error ex => exact hv
    | ok response =>
      refine ⟨hv.events, ?_, hv.last_isNaN, hv.last_lt⟩
      intro reply hreply e he
      rcases List.mem_append.mp hreply with hreply | hreply
      · exact hv.replies reply hreply e he
      · obtain rfl := List.mem_singleton.mp hreply
        simp only [(state_fields hstate).2.2.2] at he
        exact hv.events e (List.mem_of_mem_drop he)
  | receive i =>
    simp only [Monitor.step]
    cases hreply : m.replies[i]? with
    | none => exact hv
    | some reply =>
      exact (hv.forget i).receive (hv.replies reply (List.mem_of_getElem? hreply))
  | lose i => exact hv.forget i

theorem after_valid {actions : List Action} (hnumeric : ∀ action ∈ actions, NumericAction action)
    (n : ℕ) : (Monitor.after coerce (actions.take n)).Valid coerce := by
  refine Run.foldl_take (P := Monitor.Valid coerce) ?_ ?_ n
  · refine ⟨nofun, nofun, Binary64.isNaN_ofInt 0, ?_⟩
    intro x _
    exact (and_iff_left nofun).symm
  · intro n hn ih
    exact ih.step (hnumeric _ (List.getElem_mem hn))

/-- A tick that is shown a new critical event flashes the banner. -/
def Alerted (m : Monitor) : Action → Prop
  | .receive i => ∀ reply, m.replies[i]? = some reply → m.HasNewCritical reply →
    (m.step coerce (.receive i)).page.flashes = m.page.flashes + 1
  | _ => True

/-- A response that holds a new critical event can be parsed and shown, and one of its critical
events is later than all those of the responses before. -/
def Announced (m : Monitor) : Action → Prop
  | .receive i => ∀ reply, m.replies[i]? = some reply → m.HasNewCritical reply →
    completes reply.response = true ∧ m.HasLaterCritical coerce reply.response
  | _ => True

theorem alerted_iff {coerce : Value → Float} {m : Monitor} (hv : m.Valid coerce)
    (action : Action) : Alerted coerce m action ↔ Announced coerce m action := by
  cases action with
  | receive i =>
    refine forall_congr' fun reply ↦ forall_congr' fun hreply ↦ forall_congr' fun _ ↦ ?_
    have hstep : m.step coerce (.receive i) =
        { m with replies := m.replies.eraseIdx i }.receive coerce reply := by
      simp only [Monitor.step, hreply]
    rw [hstep]
    exact receive_flashes_iff (hv.forget i) (hv.replies reply (List.mem_of_getElem? hreply))
  | _ => exact Iff.rfl

theorem critical_alerts_iff {actions : List Action}
    (hnumeric : ∀ action ∈ actions, NumericAction action) :
    (∀ n (hn : n < actions.length),
        Alerted coerce (Monitor.after coerce (actions.take n)) actions[n]) ↔
      ∀ n (hn : n < actions.length),
        Announced coerce (Monitor.after coerce (actions.take n)) actions[n] :=
  forall_congr' fun n ↦ forall_congr' fun _ ↦ alerted_iff (after_valid coerce hnumeric n) _

def criticalAt (nowMs : ℤ) : Action :=
  .store nowMs (some (.dict [(str "type", .str (str "REJECTED")),
    (str "severity", .str (str "CRITICAL"))]))

theorem same_millisecond_missed :
    let before := [criticalAt 1000, .respond, .receive 0, criticalAt 1000, .respond]
    let m := Monitor.after (fun _ ↦ 0) before
    (∃ reply, m.replies[0]? = some reply ∧ m.HasNewCritical reply) ∧
      m.page.flashes = 1 ∧ (m.step (fun _ ↦ 0) (.receive 0)).page.flashes = 1 := by
  refine ⟨⟨_, rfl, ?_⟩, ?_, ?_⟩
  · decide +kernel
  · decide +kernel
  · decide +kernel

theorem critical_alerts_next_millisecond :
    let actions := [criticalAt 1000, .respond, .receive 0, criticalAt 1001, .respond, .receive 0]
    ∀ n (hn : n < actions.length),
      Alerted (fun _ ↦ 0) (Monitor.after (fun _ ↦ 0) (actions.take n)) actions[n] := by
  intro actions
  have hcritical (nowMs : ℤ) : NumericAction (criticalAt nowMs) := by
    intro e he
    obtain rfl := Except.ok.inj he
    exact ⟨_, rfl, rfl⟩
  refine (critical_alerts_iff _ ?_).mpr ?_
  · simp only [actions, List.forall_mem_cons]
    exact ⟨hcritical _, trivial, trivial, hcritical _, trivial, trivial, nofun⟩
  · intro n hn
    match n, hn with
    | 0, _ | 1, _ | 3, _ | 4, _ => exact trivial
    | 2, _ | 5, _ =>
      intro reply hreply _
      obtain rfl := Option.some_inj.mp hreply
      decide +kernel

end SpaceSec.Browser
