import SpaceSec.LinkStatus

namespace SpaceSec.Dashboard

open Python

/-- What a stored event can be relied on to hold. -/
structure WellFormed (e : Dict) : Prop where
  timestamp : (Dict.get e (str "timestamp")).isSome = true
  type : (Dict.get e (str "type")).isSome = true
  reason : (Dict.get e (str "reason")).isSome = true
  severity : ∃ severity ∈ validSeverities, Dict.get e (str "severity") = some (.str severity)

/-- The object that a body stands for; one that is falsy stands for an empty object. -/
def bodyDict (body : Option Value) : Option Dict :=
  match body.getD .none with
  | .dict e => some e
  | value => if value.truthy then none else some []

def severityOf (e : Dict) : Value := (Dict.get e (str "severity")).getD .none

def hasValidSeverity (e : Dict) : Bool := validSeverities.any (severityOf e).eqStr

/-- The body stands for an object with a valid severity, or for one whose severity and reason can be
looked up to find it another. -/
def Acceptable (body : Option Value) : Prop :=
  ∃ e, bodyDict body = some e ∧ (hasValidSeverity e = true ∨ (severityOf e).hashable = true ∧
    ((Dict.get e (str "reason")).getD (.str (str "OK"))).hashable = true)

def withDefaults (nowMs : ℤ) (e : Dict) : Dict :=
  Dict.setdefault (Dict.setdefault (Dict.setdefault e (str "timestamp") (.int nowMs))
    (str "type") (.str (str "REJECTED"))) (str "reason") (.str (str "OK"))

def withSeverity (e : Dict) : Except Exception Dict := do
  if ← inValidSeverities (severityOf e) then
    return e
  else
    let severity ← severityOfReason ((Dict.get e (str "reason")).getD (.str []))
    return Dict.setItem e (str "severity") (.str severity)

theorem fillDefaults_eq (nowMs : ℤ) (body : Option Value) : fillDefaults nowMs body =
    match bodyDict body with
    | some e => withSeverity (withDefaults nowMs e)
    | none => .error .attributeError := by
  rw [fillDefaults, bodyDict]
  cases hbody : body.getD .none with
  | dict e =>
    cases e with
    | nil => rfl
    | cons item e => rfl
  | none => rfl
  | bool b | int n | float x | str s | list values =>
    simp only
    split_ifs <;> rfl

theorem get_withDefaults_of_ne {key : Str} (h : key ≠ str "timestamp") (h' : key ≠ str "type")
    (h'' : key ≠ str "reason") (nowMs : ℤ) (e : Dict) :
    Dict.get (withDefaults nowMs e) key = Dict.get e key := by
  simp only [withDefaults, Dict.get_setdefault, if_neg h, if_neg h', if_neg h'', Option.or_none]

theorem severityOf_withDefaults (nowMs : ℤ) (e : Dict) :
    severityOf (withDefaults nowMs e) = severityOf e := by
  rw [severityOf, get_withDefaults_of_ne (by decide) (by decide) (by decide), severityOf]

theorem reason_withDefaults (nowMs : ℤ) (e : Dict) :
    Dict.get (withDefaults nowMs e) (str "reason") =
      some ((Dict.get e (str "reason")).getD (.str (str "OK"))) := by
  simp only [withDefaults, Dict.get_setdefault, if_neg (show str "reason" ≠ str "timestamp" by
    decide), if_neg (show str "reason" ≠ str "type" by decide), if_true, Option.or_none]
  cases Dict.get e (str "reason") <;> rfl

theorem isSome_withDefaults {key : Str} (h : key = str "timestamp" ∨ key = str "type" ∨
    key = str "reason") (nowMs : ℤ) (e : Dict) :
    (Dict.get (withDefaults nowMs e) key).isSome = true := by
  simp only [withDefaults, Dict.get_setdefault, Option.isSome_or]
  rcases h with rfl | rfl | rfl <;> simp

theorem eq_of_hasValidSeverity {e : Dict} (h : hasValidSeverity e = true) :
    ∃ severity ∈ validSeverities, Dict.get e (str "severity") = some (.str severity) := by
  obtain ⟨severity, hmem, heq⟩ := List.any_eq_true.mp h
  refine ⟨severity, hmem, ?_⟩
  rw [severityOf] at heq
  cases hget : Dict.get e (str "severity") with
  | none =>
    rw [hget] at heq
    cases heq
  | some value =>
    rw [hget, Option.getD_some] at heq
    cases value with
    | str s => rw [beq_iff_eq.mp heq]
    | _ => cases heq

theorem hasValidSeverity_of_eq {e : Dict} {severity : Str} (hmem : severity ∈ validSeverities)
    (h : Dict.get e (str "severity") = some (.str severity)) : hasValidSeverity e = true := by
  rw [hasValidSeverity, severityOf, h]
  exact List.any_eq_true.mpr ⟨severity, hmem, beq_self_eq_true severity⟩

theorem hashable_of_hasValidSeverity {e : Dict} (h : hasValidSeverity e = true) :
    (severityOf e).hashable = true := by
  obtain ⟨severity, -, hget⟩ := eq_of_hasValidSeverity h
  rw [severityOf, hget]
  rfl

theorem severityOfReason_mem {reason : Value} {severity : Str}
    (h : severityOfReason reason = .ok severity) : severity ∈ validSeverities := by
  rw [severityOfReason] at h
  split_ifs at h
  obtain rfl := Except.ok.inj h
  have hall : ∀ item ∈ reasonSeverity, item.2 ∈ validSeverities := by decide
  cases hfind : reasonSeverity.find? fun item ↦ reason.eqStr item.1 with
  | none => exact List.mem_cons_self
  | some item => exact hall item (List.mem_of_find?_eq_some hfind)

theorem withSeverity_cases (e : Dict) :
    (hasValidSeverity e = true ∧ withSeverity e = .ok e) ∨
      (hasValidSeverity e = false ∧ (severityOf e).hashable = true ∧
        ((Dict.get e (str "reason")).getD (.str [])).hashable = true ∧
        ∃ severity ∈ validSeverities,
          withSeverity e = .ok (Dict.setItem e (str "severity") (.str severity))) ∨
      ((hasValidSeverity e = false ∧ ¬ ((severityOf e).hashable = true ∧
          ((Dict.get e (str "reason")).getD (.str [])).hashable = true)) ∧
        ∃ ex, withSeverity e = .error ex) := by
  cases hvalid : hasValidSeverity e with
  | true =>
    refine Or.inl ⟨rfl, ?_⟩
    rw [withSeverity, inValidSeverities, if_pos (hashable_of_hasValidSeverity hvalid),
      ← hasValidSeverity, hvalid]
    rfl
  | false =>
    right
    by_cases hseverity : (severityOf e).hashable = true
    · have hwith : withSeverity e = (severityOfReason ((Dict.get e (str "reason")).getD
          (.str []))).map fun severity ↦ Dict.setItem e (str "severity") (.str severity) := by
        rw [withSeverity, inValidSeverities, if_pos hseverity, ← hasValidSeverity, hvalid]
        rfl
      by_cases hreason : ((Dict.get e (str "reason")).getD (.str [])).hashable = true
      · refine Or.inl ⟨rfl, hseverity, hreason, ?_⟩
        rw [hwith, severityOfReason, if_pos hreason]
        exact ⟨_, severityOfReason_mem (if_pos hreason), rfl⟩
      · refine Or.inr ⟨⟨rfl, fun h ↦ hreason h.2⟩, .typeError, ?_⟩
        rw [hwith, severityOfReason, if_neg hreason]
        rfl
    · refine Or.inr ⟨⟨rfl, fun h ↦ hseverity h.1⟩, .typeError, ?_⟩
      rw [withSeverity, inValidSeverities, if_neg hseverity]
      rfl

/-- The severity does not matter to any other entry. -/
theorem get_withSeverity {e e' : Dict} (h : withSeverity e = .ok e') {key : Str}
    (hkey : key ≠ str "severity") : Dict.get e' key = Dict.get e key := by
  rcases withSeverity_cases e with ⟨-, hok⟩ | ⟨-, -, -, severity, -, hok⟩ | ⟨-, ex, herror⟩
  · rw [Except.ok.inj (hok.symm.trans h)]
  · rw [← Except.ok.inj (hok.symm.trans h), Dict.get_setItem, if_neg hkey]
  · cases herror.symm.trans h

theorem fillDefaults_wellFormed {nowMs : ℤ} {body : Option Value} {e : Dict}
    (h : fillDefaults nowMs body = .ok e) : WellFormed e := by
  rw [fillDefaults_eq] at h
  cases hbody : bodyDict body with
  | none =>
    rw [hbody] at h
    cases h
  | some e₀ =>
    simp only [hbody] at h
    refine ⟨?_, ?_, ?_, ?_⟩
    · rw [get_withSeverity h (by decide)]
      exact isSome_withDefaults (Or.inl rfl) nowMs e₀
    · rw [get_withSeverity h (by decide)]
      exact isSome_withDefaults (Or.inr (Or.inl rfl)) nowMs e₀
    · rw [get_withSeverity h (by decide)]
      exact isSome_withDefaults (Or.inr (Or.inr rfl)) nowMs e₀
    · rcases withSeverity_cases (withDefaults nowMs e₀) with
        ⟨hvalid, hok⟩ | ⟨-, -, -, severity, hmem, hok⟩ | ⟨-, ex, herror⟩
      · rw [← Except.ok.inj (hok.symm.trans h)]
        exact eq_of_hasValidSeverity hvalid
      · rw [← Except.ok.inj (hok.symm.trans h)]
        exact ⟨severity, hmem, by rw [Dict.get_setItem, if_pos rfl]⟩
      · cases herror.symm.trans h

theorem fillDefaults_eq_ok {nowMs : ℤ} {body : Option Value} :
    (∃ e, fillDefaults nowMs body = .ok e) ↔ Acceptable body := by
  rw [fillDefaults_eq, Acceptable]
  cases hbody : bodyDict body with
  | none => exact iff_of_false (fun h ↦ nomatch h.choose_spec) (fun h ↦ nomatch h.choose_spec.1)
  | some e =>
    have hvalid : hasValidSeverity (withDefaults nowMs e) = hasValidSeverity e := by
      rw [hasValidSeverity, severityOf_withDefaults, hasValidSeverity]
    have hcases := withSeverity_cases (withDefaults nowMs e)
    rw [hvalid, severityOf_withDefaults, reason_withDefaults, Option.getD_some] at hcases
    simp only [Option.some_inj, exists_eq_left']
    rcases hcases with ⟨htrue, hok⟩ | ⟨-, hseverity, hreason, severity, -, hok⟩ |
      ⟨⟨hfalse, hunhashable⟩, ex, herror⟩
    · exact iff_of_true ⟨_, hok⟩ (Or.inl htrue)
    · exact iff_of_true ⟨_, hok⟩ (Or.inr ⟨hseverity, hreason⟩)
    · refine iff_of_false ?_ ?_
      · intro h
        obtain ⟨e', hok⟩ := h
        cases herror.symm.trans hok
      · rw [hfalse]
        exact not_or.mpr ⟨Bool.false_ne_true, hunhashable⟩

/-- Nothing is added to an event that has been stored before, and nothing is replaced. -/
theorem WellFormed.fillDefaults_eq_self {e : Dict} (h : WellFormed e) (nowMs : ℤ) :
    fillDefaults nowMs (some (.dict e)) = .ok e := by
  obtain ⟨severity, hmem, hget⟩ := h.severity
  have hdefaults : withDefaults nowMs e = e := by
    rw [withDefaults, Dict.setdefault_of_isSome h.timestamp, Dict.setdefault_of_isSome h.type,
      Dict.setdefault_of_isSome h.reason]
  have hvalid := hasValidSeverity_of_eq hmem hget
  rw [fillDefaults_eq, bodyDict]
  simp only [Option.getD_some, hdefaults]
  rcases withSeverity_cases e with ⟨-, hok⟩ | ⟨hfalse, -⟩ | ⟨⟨hfalse, -⟩, -⟩
  · exact hok
  · rw [hvalid] at hfalse
    cases hfalse
  · rw [hvalid] at hfalse
    cases hfalse

theorem stored_iff {s : State} {nowMs : ℤ} {body : Option Value} :
    Stored s (.event nowMs body) ↔ Acceptable body ∧ ¬ Overflows s (.event nowMs body) := by
  refine ⟨?_, ?_⟩
  · intro h
    have hoverflows := not_overflows_of_stored h
    obtain ⟨e, s', hok⟩ := h
    exact ⟨fillDefaults_eq_ok.mp ⟨e, fillDefaults_of_stored hok⟩, hoverflows⟩
  · intro h
    obtain ⟨hacceptable, hoverflows⟩ := h
    obtain ⟨e, he⟩ := fillDefaults_eq_ok.mpr hacceptable
    obtain ⟨type, htype⟩ := Option.isSome_iff_exists.mp (fillDefaults_wellFormed he).type
    have hitem : Dict.getItem e (str "type") = .ok type := by rw [Dict.getItem, htype]
    rw [Stored, ingestEvent, he]
    simp only [hitem]
    rcases updateCounters_cases e type s with ⟨s', hs', -⟩ | ⟨ex, lat, -, htrue, hlat, hadd⟩
    · rw [hs']
      exact ⟨e, _, rfl⟩
    · rw [eqStr_of_getItem hitem] at htrue
      exact absurd ⟨e, lat, he, htrue, hlat, hadd⟩ hoverflows

/-- A request is stored, with its defaults, or it leaves what is stored as it is. -/
theorem handle_event_cases (h : History) (nowMs : ℤ) (body : Option Value) :
    (Stored h.state (.event nowMs body) ∧ ∃ e, fillDefaults nowMs body = .ok e ∧
        (h.handle (.event nowMs body)).stored = h.stored ++ [e] ∧
        (h.handle (.event nowMs body)).state.events = dequeAppend 500 h.state.events e) ∨
      (¬ Stored h.state (.event nowMs body) ∧
        (h.handle (.event nowMs body)).stored = h.stored ∧
        (h.handle (.event nowMs body)).state.events = h.state.events) := by
  rw [Stored, History.handle]
  cases hingest : ingestEvent nowMs body h.state with
  | mk answer s' =>
    cases answer with
    | ok e =>
      exact Or.inl ⟨⟨e, s', rfl⟩, e, fillDefaults_of_stored hingest, rfl,
        (ingestEvent_ok hingest).events⟩
    | error ex =>
      refine Or.inr ⟨?_, rfl, ?_⟩
      · rintro ⟨e, s'', heq⟩
        cases heq
      simp only
      rcases ingestEvent_error hingest with rfl | hoverflows
      · rfl
      · obtain ⟨ex', hex⟩ := ingestEvent_overflows hoverflows
        rw [← (Prod.mk.inj (hex.symm.trans hingest)).2]

theorem events_handle {h : History} (hevents : h.state.events = h.stored.rtake 500)
    (request : Request) :
    (h.handle request).state.events = (h.handle request).stored.rtake 500 := by
  cases request with
  | reset => exact (List.rtake_nil 500).symm
  | event nowMs body =>
    rcases handle_event_cases h nowMs body with ⟨-, e, -, hstored, hnext⟩ | ⟨-, hstored, hnext⟩
    · rw [hnext, hstored, hevents, dequeAppend_rtake]
    · rw [hnext, hstored, hevents]

theorem wellFormed_handle {h : History} (hwf : ∀ e ∈ h.stored, WellFormed e) (request : Request) :
    ∀ e ∈ (h.handle request).stored, WellFormed e := by
  cases request with
  | reset => exact nofun
  | event nowMs body =>
    rcases handle_event_cases h nowMs body with ⟨-, e, he, hstored, -⟩ | ⟨-, hstored, -⟩
    · rw [hstored]
      exact List.forall_mem_append.mpr ⟨hwf,
        List.forall_mem_singleton.mpr (fillDefaults_wellFormed he)⟩
    · rwa [hstored]

theorem stored_after (requests : List Request) :
    (History.after requests).state.events = (History.after requests).stored.rtake 500 ∧
      ∀ e ∈ (History.after requests).stored, WellFormed e := by
  induction requests using List.reverseRecOn with
  | nil => exact ⟨(List.rtake_nil 500).symm, nofun⟩
  | append_singleton requests request ih =>
    rw [after_concat]
    exact ⟨events_handle ih.1 request, wellFormed_handle ih.2 request⟩

/-- In every run the events kept are the last of those stored, each of them has all that is relied
on, and what is stored is decided by the body and the latency sum alone. -/
theorem intake (requests : List Request) :
    let h := History.after requests
    h.state.events = h.stored.rtake 500 ∧ (∀ e ∈ h.stored, WellFormed e) ∧
      ∀ nowMs body, (Acceptable body ∧ ¬ Overflows h.state (.event nowMs body) ∧
          ∃ e, fillDefaults nowMs body = .ok e ∧
            (h.handle (.event nowMs body)).stored = h.stored ++ [e]) ∨
        (¬ (Acceptable body ∧ ¬ Overflows h.state (.event nowMs body)) ∧
          (h.handle (.event nowMs body)).stored = h.stored) := by
  intro h
  refine ⟨(stored_after requests).1, (stored_after requests).2, ?_⟩
  intro nowMs body
  rw [← and_assoc, ← stored_iff]
  rcases handle_event_cases (History.after requests) nowMs body with
    ⟨hs, e, he, hstored, -⟩ | ⟨hs, hstored, -⟩
  · exact Or.inl ⟨hs, e, he, hstored⟩
  · exact Or.inr ⟨hs, hstored⟩

/-- Events that are posted again, in their order, the `i`-th of them at `clock i`. -/
def reposted (clock : ℕ → ℤ) (events : List Dict) : List Request :=
  events.mapIdx fun i e ↦ .event (clock i) (some (.dict e))

theorem reposted_concat (clock : ℕ → ℤ) (events : List Dict) (e : Dict) :
    reposted clock (events ++ [e]) =
      reposted clock events ++ [.event (clock events.length) (some (.dict e))] := List.mapIdx_concat

theorem length_stored_reposted (clock : ℕ → ℤ) (events : List Dict) :
    (History.after (reposted clock events)).stored.length ≤ events.length := by
  induction events using List.reverseRecOn with
  | nil => exact Nat.zero_le 0
  | append_singleton events e ih =>
    rw [reposted_concat, after_concat, List.length_append, List.length_singleton]
    rcases handle_event_cases (History.after (reposted clock events)) (clock events.length)
      (some (.dict e)) with ⟨-, e', -, hstored, -⟩ | ⟨-, hstored, -⟩
    · rw [hstored, List.length_append, List.length_singleton]
      exact Nat.add_le_add_right ih 1
    · rw [hstored]
      exact ih.trans (Nat.le_succ _)

theorem stored_reposted_iff {events : List Dict} (hwf : ∀ e ∈ events, WellFormed e)
    (clock : ℕ → ℤ) :
    (History.after (reposted clock events)).stored = events ↔
      ∀ n (hn : n < (reposted clock events).length),
        ¬ Overflows (History.after ((reposted clock events).take n)).state
          (reposted clock events)[n] := by
  induction events using List.reverseRecOn with
  | nil => exact iff_of_true rfl (fun n hn ↦ absurd hn (Nat.not_lt_zero n))
  | append_singleton events e ih =>
    obtain ⟨hevents, he⟩ := List.forall_mem_append.mp hwf
    have hself := (List.forall_mem_singleton.mp he).fillDefaults_eq_self (clock events.length)
    have hacceptable : Acceptable (some (.dict e)) := fillDefaults_eq_ok.mp ⟨e, hself⟩
    have hcount := length_stored_reposted clock events
    rw [reposted_concat, Run.forall_take_concat (P := fun before request ↦
      ¬ Overflows (History.after before).state request), ← ih hevents, after_concat]
    rcases handle_event_cases (History.after (reposted clock events)) (clock events.length)
      (some (.dict e)) with ⟨hs, e', he', hstored, -⟩ | ⟨hs, hstored, -⟩
    · rw [hstored, ← Except.ok.inj (hself.symm.trans he'), List.append_left_inj]
      exact (and_iff_left (stored_iff.mp hs).2).symm
    · -- an event that is not stored is missing at the end
      have hoverflows : ¬ ¬ Overflows (History.after (reposted clock events)).state
          (.event (clock events.length) (some (.dict e))) :=
        fun h ↦ hs (stored_iff.mpr ⟨hacceptable, h⟩)
      rw [hstored]
      refine iff_of_false ?_ (fun h ↦ hoverflows h.2)
      intro h
      rw [h, List.length_append, List.length_singleton] at hcount
      omega

/-- What `/api/state` shows of a run can be posted to another dashboard, at any times: it takes the
events over as they are, with the same link status, unless a latency overflows its sum. -/
theorem reposted_iff {requests : List Request} {response : Response}
    (h : state (History.after requests).state = .ok response) (clock : ℕ → ℤ) :
    let reposted := reposted clock response.recent
    let copy := History.after reposted
    (copy.stored = response.recent ↔ ∀ n (hn : n < reposted.length),
        ¬ Overflows (History.after (reposted.take n)).state reposted[n]) ∧
      (copy.stored = response.recent → copy.state.events = response.recent ∧
        linkStatus copy.state.events = response.linkStatus) := by
  intro reposted copy
  obtain ⟨hevents, hwf⟩ := stored_after requests
  obtain ⟨hlink, -, -, hrecent⟩ := state_fields h
  have hwf' : ∀ e ∈ response.recent, WellFormed e := by
    intro e he
    rw [hrecent, hevents] at he
    exact hwf e (List.mem_of_mem_drop (List.mem_of_mem_drop he))
  refine ⟨stored_reposted_iff hwf' clock, ?_⟩
  intro hcopy
  have hlength : response.recent.length ≤ 30 := by
    rw [hrecent, List.rtake, List.length_drop]
    omega
  have hkept : copy.state.events = response.recent := by
    have hcopyEvents : copy.state.events = copy.stored.rtake 500 := (stored_after reposted).1
    rw [hcopyEvents, hcopy, List.rtake, Nat.sub_eq_zero_of_le (by omega), List.drop_zero]
  refine ⟨hkept, ?_⟩
  rw [hkept, hlink, linkStatus, linkStatus, hrecent, rtake_rtake (by decide)]
  have hempty : ((History.after requests).state.events.rtake 30).isEmpty =
      (History.after requests).state.events.isEmpty := by
    rw [Bool.eq_iff_iff, List.isEmpty_iff, List.isEmpty_iff, ← List.length_eq_zero_iff,
      ← List.length_eq_zero_iff, List.rtake, List.length_drop]
    omega
  rw [hempty]

theorem reposted_of_two_events :
    let requests : List Request :=
      [.event 5 (some (.dict [(str "type", .str (str "ACCEPTED"))])), .event 6 none]
    let response : Response := ⟨.degraded, 1, 1, 0, (History.after requests).stored⟩
    let copy := History.after (reposted (fun _ ↦ 99) response.recent)
    copy.state.events = response.recent ∧ linkStatus copy.state.events = .degraded := by
  intro requests response copy
  have hstate : state (History.after requests).state = .ok response := rfl
  exact (reposted_iff hstate fun _ ↦ 99).2 rfl

end SpaceSec.Dashboard
