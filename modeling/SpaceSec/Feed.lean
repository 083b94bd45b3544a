import SpaceSec.Ingest
import SpaceSec.LiveLoop
import Mathlib.Data.List.Perm.Subperm

namespace SpaceSec

open Python Dashboard DashboardClient

/-- The link status for reports that are all of type ACCEPTED or REJECTED. -/
def reportStatus (reports : List SecurityEvent) : LinkStatus :=
  if reports.isEmpty then .disconnected
  else
    let window := reports.rtake 10
    let rej := window.countP fun event ↦ !isAcceptance event
    let acc := window.countP isAcceptance
    if rej ≠ 0 ∧ acc ≤ rej then .degraded else .connected

/-- The satellite, the dashboard and the reports under way between them. `shown` holds the reports
that the dashboard has handled since the last reset, each with its clock. -/
structure Feed where
  node : Node := .listening
  underWay : List SecurityEvent := []
  history : History := {}
  shown : List (ℤ × SecurityEvent) := []

namespace Feed

/-- A datagram; a report under way is handled by the dashboard, however late and before which
others, or is lost; a reset of the dashboard. -/
inductive Action
  | arrive (a : Arrival)
  | handle (i : ℕ) (nowMs : ℤ)
  | lose (i : ℕ)
  | reset

def Action.arrival? : Action → Option Arrival
  | .arrive a => some a
  | _ => none

/-- No report overtakes another. -/
def Action.inOrder : Action → Bool
  | .handle i _ => i = 0
  | _ => true

/-- The dashboard reads the bytes that were written to it. -/
def deliver (nowMs : ℤ) (history : History) (data : Bytes) : History :=
  ((Http.readRequest data).bind (route nowMs)).elim history history.handle

section

variable {Key : Type} (pkey : Pkey Key) (evp : Evp) (satelliteKeypair : Key)

def step (f : Feed) : Action → Feed
  | .arrive a =>
    let (node, output) := f.node.step pkey evp satelliteKeypair a
    { f with node, underWay := f.underWay ++ output.events }
  | .handle i nowMs =>
    match f.underWay[i]? with
    | none => f
    | some event =>
      { f with
        underWay := f.underWay.eraseIdx i
        history := deliver nowMs f.history (written event)
        shown := f.shown ++ [(nowMs, event)] }
  | .lose i => { f with underWay := f.underWay.eraseIdx i }
  | .reset => { f with history := f.history.handle .reset, shown := [] }

def after (actions : List Action) : Feed := actions.foldl (step pkey evp satelliteKeypair) {}

end

def IsReport (event : SecurityEvent) : Prop :=
  ∃ (d : Decision) (packet : SecurePacket) (latency : Int64), event ∈ d.report packet latency

theorem IsReport.reportable {event : SecurityEvent} (h : IsReport event) : Reportable event := by
  obtain ⟨d, packet, latency, hmem⟩ := h
  exact Decision.reportable hmem

theorem IsReport.isRejected_entry {event : SecurityEvent} (h : IsReport event) (nowMs : ℤ) :
    isRejected (entry nowMs event) = !isAcceptance event := by
  have htype : Dict.get (entry nowMs event) (str "type") = some (.str (str event.type)) := rfl
  have htypes : event.type = "ACCEPTED" ∨ event.type = "REJECTED" := by
    obtain ⟨d, packet, latency, hmem⟩ := h
    cases d with
    | fault => cases hmem
    | accepted =>
      obtain rfl := List.mem_singleton.mp hmem
      exact Or.inl rfl
    | badFormat | expired | duplicate | tagFail =>
      obtain rfl := List.mem_singleton.mp hmem
      exact Or.inr rfl
  rw [isRejected, htype, Option.map_some, Option.getD_some, isAcceptance]
  refine (str_beq event.type "REJECTED").trans ?_
  rcases htypes with htype | htype
  · rw [htype]
    rfl
  · rw [htype]
    rfl

def clock (shown : List (ℤ × SecurityEvent)) (i : ℕ) : ℤ := ((shown.map Prod.fst)[i]?).getD 0

/-- The dashboard stands for the reports shown, and all of them are stored. -/
structure Shows (shown : List (ℤ × SecurityEvent)) (h : History) : Prop where
  isReport : ∀ x ∈ shown, IsReport x.2
  stored : h.stored = shown.map fun x ↦ entry x.1 x.2
  mirrors : Mirrors (clock shown) (shown.map Prod.snd) h.state

theorem shows_empty : Shows [] {} := ⟨nofun, rfl, rfl, rfl, rfl, (List.rtake_nil 500).symm⟩

theorem mirrors_congr {clock clock' : ℕ → ℤ} {events : List SecurityEvent} {s : State}
    (h : Mirrors clock events s) (hclock : ∀ i < events.length, clock i = clock' i) :
    Mirrors clock' events s := by
  refine ⟨h.accepted, h.rejected, h.latencySum, ?_⟩
  rw [h.events]
  congr 1
  apply List.ext_getElem
  · simp only [List.length_mapIdx]
  · intro i hi _
    rw [List.length_mapIdx] at hi
    rw [List.getElem_mapIdx, List.getElem_mapIdx, hclock i hi]

theorem Shows.deliver {shown : List (ℤ × SecurityEvent)} {h : History} (hs : Shows shown h)
    {event : SecurityEvent} (hevent : IsReport event) (nowMs : ℤ) :
    Shows (shown ++ [(nowMs, event)]) (Feed.deliver nowMs h (written event)) := by
  have hreportable := hevent.reportable
  have hsum : h.state.latencySum.ms = .int (latencies (shown.map Prod.snd)).sum := by
    rw [hs.mirrors.latencySum]
  have hdeliver : Feed.deliver nowMs h (written event) =
      h.handle (.event nowMs (some (.dict (eventDict event)))) := by
    rw [Feed.deliver, hreportable.readRequest, Option.bind_some,
      route_eventHttp hreportable.toCleanEvent, Option.elim_some]
  obtain ⟨s', hs'⟩ := ingestEvent_eventDict hreportable nowMs hsum
  have hlast : clock (shown ++ [(nowMs, event)]) (shown.map Prod.snd).length = nowMs := by
    simp [clock]
  rw [hdeliver]
  refine ⟨List.forall_mem_append.mpr ⟨hs.isReport, List.forall_mem_singleton.mpr hevent⟩, ?_, ?_⟩
  · simp only [History.handle, hs', hs.stored, List.map_append, List.map_singleton]
  · have hmirrors : Mirrors (clock (shown ++ [(nowMs, event)])) (shown.map Prod.snd) h.state := by
      apply mirrors_congr hs.mirrors
      intro i hi
      rw [List.length_map] at hi
      simp only [clock, List.map_append]
      rw [List.getElem?_append_left (by rwa [List.length_map])]
    have hnext := hmirrors.handle hreportable
    rw [hlast] at hnext
    rwa [List.map_append, List.map_singleton]

theorem Shows.events {shown : List (ℤ × SecurityEvent)} {h : History} (hs : Shows shown h) :
    h.state.events = (shown.map fun x ↦ entry x.1 x.2).rtake 500 := by
  have hentries : (shown.map Prod.snd).mapIdx (fun i event ↦ entry (clock shown i) event) =
      shown.map fun x ↦ entry x.1 x.2 := by
    apply List.ext_getElem
    · simp only [List.length_mapIdx, List.length_map]
    · intro i hi hi'
      rw [List.length_map] at hi'
      simp [clock, List.getElem?_eq_getElem hi']
  rw [hs.mirrors.events, hentries]

theorem averageable_latencies {events : List SecurityEvent} (h : latencies events ≠ []) :
    Number.Averageable (.int (latencies events).sum) (latencies events).length := by
  have hbound : ∀ x ∈ latencies events, 0 ≤ x ∧ x ≤ 2 ^ 63 := by
    intro x hx
    obtain ⟨hmem, hx0⟩ := List.mem_filter.mp hx
    obtain ⟨event, -, rfl⟩ := List.mem_map.mp hmem
    exact ⟨of_decide_eq_true hx0, event.latencyMs.toInt_lt.le⟩
  have hlow := List.sum_nonneg fun x hx ↦ (hbound x hx).1
  have hhigh := List.sum_le_card_nsmul (latencies events) (2 ^ 63) fun x hx ↦ (hbound x hx).2
  have hlength := List.length_pos_iff.mpr h
  have hover : 2 ^ 63 < Binary64.overflowBound := by
    have hpow := Nat.pow_lt_pow_right Nat.one_lt_two (show 63 < 970 by omega)
    rw [Binary64.overflowBound]
    omega
  have hlt := Nat.mul_lt_mul_of_pos_right hover hlength
  rw [nsmul_eq_mul] at hhigh
  rw [Number.Averageable]
  omega

theorem Shows.linkStatus {shown : List (ℤ × SecurityEvent)} {h : History} (hs : Shows shown h) :
    Dashboard.linkStatus h.state.events = reportStatus (shown.map Prod.snd) := by
  have hwindow : h.state.events.rtake 10 = (shown.rtake 10).map fun x ↦ entry x.1 x.2 := by
    rw [hs.events, rtake_rtake (by decide), List.rtake, List.rtake, List.map_drop,
      List.length_map]
  have hreports : (shown.map Prod.snd).rtake 10 = (shown.rtake 10).map Prod.snd := by
    rw [List.rtake, List.rtake, List.map_drop, List.length_map]
  have hrejected : (h.state.events.rtake 10).countP isRejected =
      ((shown.map Prod.snd).rtake 10).countP fun event ↦ !isAcceptance event := by
    rw [hwindow, hreports, List.countP_map, List.countP_map]
    apply List.countP_congr
    intro x hx
    rw [Function.comp_apply, Function.comp_apply,
      (hs.isReport x (List.mem_of_mem_drop hx)).isRejected_entry]
  have haccepted : (h.state.events.rtake 10).countP isAccepted =
      ((shown.map Prod.snd).rtake 10).countP isAcceptance := by
    rw [hwindow, hreports, List.countP_map, List.countP_map]
    apply List.countP_congr
    intro x _
    rw [Function.comp_apply, Function.comp_apply, isAccepted_entry]
  have hempty : h.state.events.isEmpty = (shown.map Prod.snd).isEmpty := by
    rw [hs.events, Bool.eq_iff_iff, List.isEmpty_iff, List.isEmpty_iff, ← List.length_eq_zero_iff,
      ← List.length_eq_zero_iff, List.rtake, List.length_drop, List.length_map, List.length_map]
    omega
  rw [Dashboard.linkStatus, reportStatus, hempty]
  simp only [hrejected, haccepted]

theorem Shows.response {shown : List (ℤ × SecurityEvent)} {h : History} (hs : Shows shown h) :
    ∃ response, state h.state = .ok response ∧
      response.linkStatus = reportStatus (shown.map Prod.snd) ∧
      response.accepted = (shown.map Prod.snd).countP isAcceptance ∧
      response.rejected = ((shown.map Prod.snd).countP fun event ↦ !isAcceptance event) ∧
      response.recent = (shown.map fun x ↦ entry x.1 x.2).rtake 30 := by
  have hok : ∃ response, state h.state = .ok response := by
    rw [state_eq_ok, hs.mirrors.latencySum]
    by_cases hnone : latencies (shown.map Prod.snd) = []
    · exact Or.inl (List.length_eq_zero_iff.mpr hnone)
    · exact Or.inr (averageable_latencies hnone)
  obtain ⟨response, hresponse⟩ := hok
  obtain ⟨hlink, haccepted, hrejected, hrecent⟩ := state_fields hresponse
  refine ⟨response, hresponse, hlink.trans hs.linkStatus, haccepted.trans hs.mirrors.accepted,
    hrejected.trans hs.mirrors.rejected, ?_⟩
  rw [hrecent, hs.events, rtake_rtake (by decide)]

section Run

variable {Key : Type} {pkey : Pkey Key} {evp : Evp} {satelliteKeypair : Key}

def arrivals (actions : List Action) : List Arrival := actions.filterMap Action.arrival?

/-- The reports handled since the last reset, and those under way. -/
def outstanding (f : Feed) : List SecurityEvent := f.shown.map Prod.snd ++ f.underWay

structure Valid (pkey : Pkey Key) (evp : Evp) (satelliteKeypair : Key) (f : Feed)
    (actions : List Action) : Prop where
  node : f.node = Node.after pkey evp satelliteKeypair .listening (arrivals actions)
  shows : Shows f.shown f.history
  underWay : ∀ event ∈ f.underWay, IsReport event
  subperm : f.outstanding.Subperm
    (Node.posted pkey evp satelliteKeypair .listening (arrivals actions))
  sublist : actions.all Action.inOrder = true → f.outstanding.Sublist
    (Node.posted pkey evp satelliteKeypair .listening (arrivals actions))

theorem arrivals_arrive (actions : List Action) (a : Arrival) :
    arrivals (actions ++ [.arrive a]) = arrivals actions ++ [a] := by
  simp [arrivals, Action.arrival?]

theorem arrivals_of_not_arrival {action : Action} (h : action.arrival? = none)
    (actions : List Action) : arrivals (actions ++ [action]) = arrivals actions := by
  simp [arrivals, h]

theorem isReport_of_mem_events {node : Node} {a : Arrival} {event : SecurityEvent}
    (h : event ∈ (node.step pkey evp satelliteKeypair a).2.events) : IsReport event := by
  rcases node.step_output a with ⟨-, hevents, -⟩ | ⟨d, -, hevents, -⟩
  · rw [hevents] at h
    cases h
  · rw [hevents] at h
    exact ⟨d, _, _, h⟩

section Step

variable {f : Feed} {actions : List Action}

theorem Valid.arrive (hv : f.Valid pkey evp satelliteKeypair actions) (a : Arrival) :
    (f.step pkey evp satelliteKeypair (.arrive a)).Valid pkey evp satelliteKeypair
      (actions ++ [.arrive a]) := by
  have hposted : Node.posted pkey evp satelliteKeypair .listening (arrivals actions ++ [a]) =
      Node.posted pkey evp satelliteKeypair .listening (arrivals actions) ++
        (f.node.step pkey evp satelliteKeypair a).2.events := by
    rw [Node.posted_concat, ← hv.node]
  have houtstanding : (f.step pkey evp satelliteKeypair (.arrive a)).outstanding =
      f.outstanding ++ (f.node.step pkey evp satelliteKeypair a).2.events :=
    (List.append_assoc _ _ _).symm
  refine ⟨?_, hv.shows, ?_, ?_, ?_⟩
  · rw [arrivals_arrive, Node.after_concat, ← hv.node]
    rfl
  · exact List.forall_mem_append.mpr ⟨hv.underWay, fun event ↦ isReport_of_mem_events⟩
  · rw [arrivals_arrive, hposted, houtstanding]
    exact hv.subperm.append (List.Subperm.refl _)
  · intro hall
    rw [List.all_append, Bool.and_eq_true] at hall
    rw [arrivals_arrive, hposted, houtstanding]
    exact (hv.sublist hall.1).append_right _

theorem Valid.handle (hv : f.Valid pkey evp satelliteKeypair actions) (i : ℕ) (nowMs : ℤ) :
    (f.step pkey evp satelliteKeypair (.handle i nowMs)).Valid pkey evp satelliteKeypair
      (actions ++ [.handle i nowMs]) := by
  have hinOrder (hall : (actions ++ [Action.handle i nowMs]).all Action.inOrder = true) :
      i = 0 ∧ f.outstanding.Sublist
        (Node.posted pkey evp satelliteKeypair .listening (arrivals actions)) := by
    rw [List.all_append, Bool.and_eq_true] at hall
    exact ⟨by simpa [Action.inOrder] using hall.2, hv.sublist hall.1⟩
  cases hevent : f.underWay[i]? with
  | none =>
    have hstep : f.step pkey evp satelliteKeypair (.handle i nowMs) = f := by
      simp only [step, hevent]
    rw [hstep]
    refine ⟨?_, hv.shows, hv.underWay, ?_, fun hall ↦ ?_⟩
    · rw [arrivals_of_not_arrival rfl, hv.node]
    · rw [arrivals_of_not_arrival rfl]
      exact hv.subperm
    · rw [arrivals_of_not_arrival rfl]
      exact (hinOrder hall).2
  | some event =>
    obtain ⟨hi, rfl⟩ := List.getElem?_eq_some_iff.mp hevent
    have hperm : ((f.shown ++ [(nowMs, f.underWay[i])]).map Prod.snd ++ f.underWay.eraseIdx i).Perm
        f.outstanding := by
      rw [List.map_append, List.append_assoc]
      exact (List.getElem_cons_eraseIdx_perm hi).append_left _
    simp only [step, hevent]
    refine ⟨?_, ?_, ?_, ?_, fun hall ↦ ?_⟩
    · rw [arrivals_of_not_arrival rfl, hv.node]
    · dsimp only
      exact hv.shows.deliver (hv.underWay _ (List.getElem_mem hi)) nowMs
    · exact fun event hmem ↦ hv.underWay event (List.mem_of_mem_eraseIdx hmem)
    · rw [arrivals_of_not_arrival rfl]
      exact hperm.subperm.trans hv.subperm
    · -- the oldest report under way moves to the end of those handled
      obtain ⟨rfl, hsublist⟩ := hinOrder hall
      have holdest : f.underWay[0] :: f.underWay.eraseIdx 0 = f.underWay := by
        rw [List.eraseIdx_zero, ← List.head_eq_getElem (List.ne_nil_of_length_pos hi),
          List.cons_head_tail]
      rw [arrivals_of_not_arrival rfl]
      rwa [outstanding, List.map_append, List.append_assoc, List.map_singleton,
        List.singleton_append, holdest]

theorem Valid.lose (hv : f.Valid pkey evp satelliteKeypair actions) (i : ℕ) :
    (f.step pkey evp satelliteKeypair (.lose i)).Valid pkey evp satelliteKeypair
      (actions ++ [.lose i]) := by
  have hlost : (f.step pkey evp satelliteKeypair (.lose i)).outstanding.Sublist f.outstanding :=
    (List.eraseIdx_sublist f.underWay i).append_left _
  refine ⟨?_, hv.shows, ?_, ?_, ?_⟩
  · rw [arrivals_of_not_arrival rfl, ← hv.node]
    rfl
  · exact fun event hmem ↦ hv.underWay event (List.mem_of_mem_eraseIdx hmem)
  · rw [arrivals_of_not_arrival rfl]
    exact hlost.subperm.trans hv.subperm
  · intro hall
    rw [List.all_append, Bool.and_eq_true] at hall
    rw [arrivals_of_not_arrival rfl]
    exact hlost.trans (hv.sublist hall.1)

theorem Valid.reset (hv : f.Valid pkey evp satelliteKeypair actions) :
    (f.step pkey evp satelliteKeypair .reset).Valid pkey evp satelliteKeypair
      (actions ++ [.reset]) := by
  have hforgotten : (f.step pkey evp satelliteKeypair .reset).outstanding.Sublist f.outstanding :=
    List.sublist_append_right _ _
  refine ⟨?_, shows_empty, hv.underWay, ?_, ?_⟩
  · rw [arrivals_of_not_arrival rfl, ← hv.node]
    rfl
  · rw [arrivals_of_not_arrival rfl]
    exact hforgotten.subperm.trans hv.subperm
  · intro hall
    rw [List.all_append, Bool.and_eq_true] at hall
    rw [arrivals_of_not_arrival rfl]
    exact hforgotten.trans (hv.sublist hall.1)

theorem Valid.step (hv : f.Valid pkey evp satelliteKeypair actions) (action : Action) :
    (f.step pkey evp satelliteKeypair action).Valid pkey evp satelliteKeypair
      (actions ++ [action]) := by
  cases action with
  | arrive a => exact hv.arrive a
  | handle i nowMs => exact hv.handle i nowMs
  | lose i => exact hv.lose i
  | reset => exact hv.reset

end Step

variable (pkey evp satelliteKeypair)

theorem valid_after (actions : List Action) :
    (after pkey evp satelliteKeypair actions).Valid pkey evp satelliteKeypair actions := by
  induction actions using List.reverseRecOn with
  | nil => exact ⟨rfl, shows_empty, nofun, List.Subperm.refl [], fun _ ↦ List.Sublist.refl []⟩
  | append_singleton actions action ih =>
    rw [after, List.foldl_append]
    exact ih.step action

section

variable {pkey evp satelliteKeypair} {f : Feed} {actions : List Action}

theorem Valid.reports_subperm (hv : f.Valid pkey evp satelliteKeypair actions) :
    (f.shown.map Prod.snd).Subperm
      (Node.posted pkey evp satelliteKeypair .listening (arrivals actions)) :=
  (List.sublist_append_left _ _).subperm.trans hv.subperm

theorem Valid.counts_le (hv : f.Valid pkey evp satelliteKeypair actions) :
    (f.shown.map Prod.snd).countP isAcceptance ≤
        (Node.executions pkey evp satelliteKeypair .listening (arrivals actions)).length ∧
      ((f.shown.map Prod.snd).countP fun event ↦ !isAcceptance event) ≤
        (Node.decided pkey evp satelliteKeypair .listening (arrivals actions)).rejected.length := by
  obtain ⟨hposted, -, hexecutions⟩ :=
    @Node.run_decided _ pkey evp satelliteKeypair .listening (arrivals actions)
  obtain ⟨haccepted, hrejected, -⟩ := Decided.counts_reports
    fun x (hx : x ∈ Node.decided pkey evp satelliteKeypair .listening (arrivals actions)) ↦
      Node.mem_decided hx
  rw [hexecutions, ← haccepted, ← hrejected, ← hposted]
  exact ⟨hv.reports_subperm.countP_le _, hv.reports_subperm.countP_le _⟩

end

/-- Whichever report under way the dashboard handles next, however late, whichever are lost and
whenever it is reset, it answers for the reports that it has handled since then: they are the
satellite's, none of them twice, and in its order if none overtakes another; and it never counts
more than the satellite has done. -/
theorem feed_shows_delivered (actions : List Action) :
    let f := after pkey evp satelliteKeypair actions
    let reports := f.shown.map Prod.snd
    let posted := Node.posted pkey evp satelliteKeypair .listening (arrivals actions)
    reports.Subperm posted ∧
      (actions.all Action.inOrder = true → reports.Sublist posted) ∧
      f.history.stored = f.shown.map (fun x ↦ entry x.1 x.2) ∧
      ∃ response, state f.history.state = .ok response ∧
        response.linkStatus = reportStatus reports ∧
        response.accepted = reports.countP isAcceptance ∧
        response.rejected = (reports.countP fun event ↦ !isAcceptance event) ∧
        response.recent = (f.shown.map fun x ↦ entry x.1 x.2).rtake 30 ∧
        response.accepted ≤
          (Node.executions pkey evp satelliteKeypair .listening (arrivals actions)).length ∧
        response.rejected ≤ (Node.decided pkey evp satelliteKeypair .listening
          (arrivals actions)).rejected.length := by
  intro f reports posted
  have hv := valid_after pkey evp satelliteKeypair actions
  obtain ⟨hacceptedLe, hrejectedLe⟩ := hv.counts_le
  obtain ⟨response, hresponse, hlink, haccepted, hrejected, hrecent⟩ := hv.shows.response
  exact ⟨hv.reports_subperm, fun hall ↦ (List.sublist_append_left _ _).trans (hv.sublist hall),
    hv.shows.stored, response, hresponse, hlink, haccepted, hrejected, hrecent,
    haccepted ▸ hacceptedLe, hrejected ▸ hrejectedLe⟩

end Run

end Feed

end SpaceSec
