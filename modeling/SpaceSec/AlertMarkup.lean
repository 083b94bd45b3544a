import SpaceSec.Alerts

namespace SpaceSec.Browser

open Python Dashboard DashboardClient

/-- The text that a value has in a template string; `text` makes it of what is no string. -/
def jsText (text : Value → Str) : Value → Str
  | .str s => s
  | value => text value

/-- What an alert's entry in the feed is parsed from; `time` makes the time of day of its
timestamp. -/
def Alert.innerHTML (text : Value → Str) (time : Option Value → Str) (alert : Alert) : Str :=
  str "<span class=\"badge\">" ++ jsText text alert.sev ++ str "</span>" ++
    str "<span class=\"reason\">" ++ alert.reason.elim (str "undefined") (jsText text) ++
    str "</span>" ++ str "<span>session " ++ jsText text alert.session ++ str "</span>" ++
    str "<span class=\"meta\">" ++ time alert.timestamp ++ str "</span>"

/-- The alert of a report, shown at the dashboard's time. -/
def Alert.ofReport (nowMs : ℤ) (event : SecurityEvent) : Alert where
  sev := .str (str event.severity)
  reason := some (.str (str event.reason))
  session := .str ((sessionText event.sessionId).map Char.toNat)
  timestamp := some (.int nowMs)

theorem orElse_eq {e : Dict} {name : String} {s : Str}
    (h : Dict.get e (str name) = some (.str s)) (hs : s ≠ []) (value : String) :
    orElse e name value = .str s := by
  have htruthy : jsTruthy (.str s) = true := by
    cases s with
    | nil => exact absurd rfl hs
    | cons c s => rfl
  rw [orElse, h, Option.filter_some, if_pos htruthy, Option.getD_some]

theorem report_texts {event : SecurityEvent} (h : Feed.IsReport event) :
    event.severity ∈ ["LOW", "MEDIUM", "CRITICAL"] ∧
      event.reason ∈ ["OK", "BAD_FORMAT", "REPLAY_TS", "DUP_NONCE", "TAG_FAIL"] := by
  obtain ⟨d, packet, latency, hmem⟩ := h
  cases d with
  | fault => cases hmem
  | accepted | badFormat | expired | duplicate | tagFail =>
    obtain rfl := List.mem_singleton.mp hmem
    exact ⟨by simp, by simp⟩

theorem ofEvent_entry {event : SecurityEvent} (h : Feed.IsReport event) (nowMs : ℤ) :
    Alert.ofEvent (entry nowMs event) = .ofReport nowMs event := by
  have hseverities : ∀ s ∈ ["LOW", "MEDIUM", "CRITICAL"], str s ≠ [] := by decide
  have hsession : (sessionText event.sessionId).map Char.toNat ≠ [] := List.cons_ne_nil _ _
  have hget : Dict.get (entry nowMs event) (str "severity") = some (.str (str event.severity)) :=
    rfl
  have hget' : Dict.get (entry nowMs event) (str "session_id") =
      some (.str ((sessionText event.sessionId).map Char.toNat)) := rfl
  rw [Alert.ofEvent, Alert.ofReport, orElse_eq hget (hseverities _ (report_texts h).1),
    orElse_eq hget' hsession]
  rfl

theorem renders_entry {event : SecurityEvent} (h : Feed.IsReport event) (nowMs : ℤ) :
    (Alert.ofEvent (entry nowMs event)).renders = true := by
  rw [ofEvent_entry h]
  rfl

/-- The code point of `<`. -/
abbrev markup : ℕ := 0x3C

theorem count_innerHTML {text : Value → Str} {time : Option Value → Str} {alert : Alert}
    (hsev : markup ∉ jsText text alert.sev)
    (hreason : markup ∉ alert.reason.elim (str "undefined") (jsText text))
    (hsession : markup ∉ jsText text alert.session) (htime : markup ∉ time alert.timestamp) :
    (alert.innerHTML text time).count markup = 8 := by
  have hopen : ∀ tag ∈ [str "<span class=\"badge\">", str "</span>", str "<span class=\"reason\">",
      str "<span>session ", str "<span class=\"meta\">"], tag.count markup = 1 := by decide
  simp only [List.forall_mem_cons] at hopen
  obtain ⟨hbadge, hclose, hreasonTag, hsessionTag, hmeta, -⟩ := hopen
  simp only [Alert.innerHTML, List.count_append, hbadge, hclose, hreasonTag, hsessionTag, hmeta,
    List.count_eq_zero_of_not_mem hsev, List.count_eq_zero_of_not_mem hreason,
    List.count_eq_zero_of_not_mem hsession, List.count_eq_zero_of_not_mem htime]

theorem markup_notMem_sessionText (id : UInt32) :
    markup ∉ (sessionText id).map Char.toNat := by
  have key : ∀ i : Fin 16, (upperHexDigit i).toNat ≠ markup := by decide
  intro h
  obtain ⟨c, hc, hmarkup⟩ := List.mem_map.mp h
  obtain ⟨d, hd, rfl⟩ := List.mem_map.mp hc
  refine key ⟨d, ?_⟩ hmarkup
  simp only [List.mem_cons, List.not_mem_nil, or_false] at hd
  omega

/-- The tags of a report's alert are those of the page. -/
theorem count_ofReport {event : SecurityEvent} (h : Feed.IsReport event) (nowMs : ℤ)
    (text : Value → Str) {time : Option Value → Str}
    (htime : ∀ timestamp, markup ∉ time timestamp) :
    ((Alert.ofReport nowMs event).innerHTML text time).count markup = 8 := by
  have htexts : ∀ s ∈ ["OK", "BAD_FORMAT", "REPLAY_TS", "DUP_NONCE", "TAG_FAIL", "LOW", "MEDIUM",
      "CRITICAL"], markup ∉ str s := by decide
  obtain ⟨hseverity, hreason⟩ := report_texts h
  exact count_innerHTML (htexts _ (List.mem_append_right ["OK", "BAD_FORMAT", "REPLAY_TS",
    "DUP_NONCE", "TAG_FAIL"] hseverity)) (htexts _ (List.mem_append_left ["LOW", "MEDIUM",
    "CRITICAL"] hreason)) (markup_notMem_sessionText event.sessionId) (htime _)

variable (coerce : Value → Float)

theorem tick_linkStatus (page : Page) (s : Response) :
    (tick coerce page s).linkStatus = some s.linkStatus := by
  rw [tick]
  split_ifs
  · simp only
    split_ifs <;> rfl
  · rfl

section Reports

variable {shown : List (ℤ × SecurityEvent)} (hreports : ∀ x ∈ shown, Feed.IsReport x.2)
include hreports

theorem alerts_reports : alerts (shown.map fun x ↦ entry x.1 x.2) =
    ((shown.filter fun x ↦ !isAcceptance x.2).reverse).map fun x ↦ Alert.ofReport x.1 x.2 := by
  have hfilter : shown.filter ((isString · "type" "REJECTED") ∘ fun x ↦ entry x.1 x.2) =
      shown.filter fun x ↦ !isAcceptance x.2 :=
    List.filter_congr fun x hx ↦ (hreports x hx).isRejected_entry x.1
  rw [alerts, List.filter_map, hfilter, ← List.map_reverse, List.map_map]
  apply List.map_congr_left
  intro x hx
  exact ofEvent_entry (hreports x (List.mem_filter.mp (List.mem_reverse.mp hx)).1) x.1

theorem completes_reports {s : Response} (h : s.recent = shown.map fun x ↦ entry x.1 x.2) :
    completes s = true := by
  refine Bool.and_eq_true_iff.mpr ⟨List.all_eq_true.mpr ?_, List.all_eq_true.mpr ?_⟩
  · intro e he
    rw [h] at he
    obtain ⟨x, -, rfl⟩ := List.mem_map.mp he
    rfl
  · intro alert halert
    obtain ⟨e, he, -, rfl⟩ := mem_alerts halert
    rw [h] at he
    obtain ⟨x, hx, rfl⟩ := List.mem_map.mp he
    exact renders_entry (hreports x hx) x.1

end Reports

theorem tick_shows {shown : List (ℤ × SecurityEvent)} {h : History} (hs : Feed.Shows shown h)
    (page : Page) :
    ∃ response, Dashboard.state h.state = .ok response ∧ completes response = true ∧
      (tick coerce page response).linkStatus = some (reportStatus (shown.map Prod.snd)) ∧
      (tick coerce page response).accepted = (shown.map Prod.snd).countP isAcceptance ∧
      (tick coerce page response).rejected =
        ((shown.map Prod.snd).countP fun event ↦ !isAcceptance event) ∧
      (tick coerce page response).feed =
        (((shown.rtake 30).filter fun x ↦ !isAcceptance x.2).reverse).map
          fun x ↦ Alert.ofReport x.1 x.2 := by
  obtain ⟨response, hresponse, hlink, haccepted, hrejected, hrecent⟩ := hs.response
  have hreports : ∀ x ∈ shown.rtake 30, Feed.IsReport x.2 :=
    fun x hx ↦ hs.isReport x (List.mem_of_mem_drop hx)
  have hrecent' : response.recent = (shown.rtake 30).map fun x ↦ entry x.1 x.2 := by
    rw [hrecent, List.rtake, List.rtake, List.map_drop, List.length_map]
  have hcompletes := completes_reports hreports hrecent'
  obtain ⟨htickAccepted, htickRejected, -, hfeed⟩ := tick_fields coerce page response
  rw [List.takeWhile_eq_self_iff.mpr (List.all_eq_true.mp (Bool.and_eq_true_iff.mp hcompletes).2),
    hrecent', alerts_reports hreports] at hfeed
  exact ⟨response, hresponse, hcompletes, by rw [tick_linkStatus, hlink],
    htickAccepted.trans haccepted, htickRejected.trans hrejected, hfeed⟩

variable {Key : Type} (pkey : Pkey Key) (evp : Evp) (satelliteKeypair : Key)

/-- What the page shows after a tick, over any run of the satellite, whatever reports are lost and
whenever the dashboard is reset: the rejections among the last thirty reports, the newest first,
with no tag but its own. -/
theorem page_shows_reports (actions : List Feed.Action) (page : Page) :
    let f := Feed.after pkey evp satelliteKeypair actions
    let reports := f.shown.map Prod.snd
    ∃ response, Dashboard.state f.history.state = .ok response ∧ completes response = true ∧
      let page' := tick coerce page response
      page'.linkStatus = some (reportStatus reports) ∧
        page'.accepted = reports.countP isAcceptance ∧
        page'.rejected = (reports.countP fun event ↦ !isAcceptance event) ∧
        page'.feed = (((f.shown.rtake 30).filter fun x ↦ !isAcceptance x.2).reverse).map
          (fun x ↦ Alert.ofReport x.1 x.2) ∧
        ∀ text time, (∀ timestamp, markup ∉ time timestamp) → ∀ alert ∈ page'.feed,
          (alert.innerHTML text time).count markup = 8 := by
  intro f reports
  have hshows := (Feed.valid_after pkey evp satelliteKeypair actions).shows
  obtain ⟨response, hresponse, hcompletes, hlink, haccepted, hrejected, hfeed⟩ :=
    tick_shows coerce hshows page
  refine ⟨response, hresponse, hcompletes, hlink, haccepted, hrejected, hfeed, ?_⟩
  intro text time htime alert halert
  rw [hfeed] at halert
  obtain ⟨x, hx, rfl⟩ := List.mem_map.mp halert
  have hmem := List.mem_of_mem_drop (List.mem_filter.mp (List.mem_reverse.mp hx)).1
  exact count_ofReport (hshows.isReport x hmem) x.1 text htime

/-- A rejection that anyone may post, with a reason of his own. -/
def rejection (reason : Str) : Dict :=
  [(str "type", .str (str "REJECTED")), (str "reason", .str reason),
    (str "severity", .str (str "LOW"))]

/-- Whatever has been posted before, one more post puts any text, as it is, into what the newest
alert is parsed from. -/
theorem post_reaches_markup {requests : List Request} {before : Response}
    (h : Dashboard.state (History.after requests).state = .ok before) (hjson : isJson before = true)
    (nowMs : ℤ) (reason : Str) (page : Page) :
    ∃ response, Dashboard.state ((History.after requests).handle
        (.event nowMs (some (.dict (rejection reason))))).state = .ok response ∧
      isJson response = true ∧
      ∃ alert, (tick coerce page response).feed.head? = some alert ∧
        ∀ text time, reason <:+: alert.innerHTML text time := by
  let e : Dict := rejection reason ++ [(str "timestamp", .int nowMs)]
  let s := (History.after requests).state
  have hevents := (stored_after requests).1
  have hingest : ingestEvent nowMs (some (.dict (rejection reason))) s = (.ok e, { s with
      totals := { s.totals with rejected := s.totals.rejected + 1 }
      events := dequeAppend 500 s.events e }) := rfl
  obtain ⟨mean, hmean⟩ : ∃ mean, avgLatency s.latencySum = .ok mean := by
    cases hmean : avgLatency s.latencySum with
    | ok mean => exact ⟨mean, rfl⟩
    | error ex =>
      rw [Dashboard.state, hmean] at h
      cases h
  have hrecent : (dequeAppend 500 s.events e).rtake 30 =
      (History.after requests).stored.rtake 29 ++ [e] := by
    rw [show s.events = _ from hevents, dequeAppend_rtake, rtake_rtake (by decide),
      List.rtake_concat_succ]
  rw [handle_event_state, hingest, Dashboard.state]
  simp only [hmean]
  refine ⟨_, rfl, ?_, .ofEvent e, ?_, ?_⟩
  · -- the older events were shown before
    have hbefore : before.recent.rtake 29 = (History.after requests).stored.rtake 29 := by
      rw [(state_fields h).2.2.2, hevents, rtake_rtake (by decide), rtake_rtake (by decide)]
    rw [isJson, hrecent, List.all_append, ← hbefore, Bool.and_eq_true]
    refine ⟨List.all_eq_true.mpr fun e he ↦ ?_, rfl⟩
    exact List.all_eq_true.mp hjson e (List.mem_of_mem_drop he)
  · have halerts : alerts ((History.after requests).stored.rtake 29 ++ [e]) =
        .ofEvent e :: alerts ((History.after requests).stored.rtake 29) := by
      rw [alerts, List.filter_append, List.reverse_append]
      rfl
    rw [(tick_fields coerce page _).2.2.2, hrecent, halerts]
    rfl
  · intro text time
    refine ⟨str "<span class=\"badge\">" ++ str "LOW" ++ str "</span>" ++
      str "<span class=\"reason\">", str "</span>" ++ str "<span>session " ++ str "?" ++
      str "</span>" ++ str "<span class=\"meta\">" ++ time (some (.int nowMs)) ++ str "</span>", ?_⟩
    have hfields : Alert.ofEvent e = ⟨.str (str "LOW"), some (.str reason), .str (str "?"),
        some (.int nowMs)⟩ := rfl
    rw [hfields, Alert.innerHTML]
    simp only [jsText, Option.elim_some, List.append_assoc]

theorem post_reaches_markup_of_busy_dashboard :
    let accepted : Dict := [(str "type", .str (str "ACCEPTED")), (str "latency_ms", .int 12)]
    let requests : List Request := [.event 3 (some (.dict accepted)),
      .event 5 (some (.dict (rejection (str "TAG_FAIL"))))]
    ∃ response, Dashboard.state ((History.after requests).handle
        (.event 7 (some (.dict (rejection (str "<script>")))))).state = .ok response ∧
      isJson response = true ∧
      ∃ alert, (tick (fun _ ↦ 0) {} response).feed.head? = some alert ∧
        ∀ text time, str "<script>" <:+: alert.innerHTML text time := by
  intro accepted requests
  have hanswers : ((Dashboard.state (History.after requests).state).toOption.map isJson) =
      some true := by decide +kernel
  cases hbefore : Dashboard.state (History.after requests).state with
  | error ex =>
    rw [hbefore] at hanswers
    cases hanswers
  | ok before =>
    rw [hbefore] at hanswers
    exact post_reaches_markup (fun _ ↦ 0) hbefore (Option.some_inj.mp hanswers) 7
      (str "<script>") {}

end SpaceSec.Browser
