import SpaceSec.Handshake
import Mathlib.Data.List.Induction
import Mathlib.Data.List.Nodup
import Mathlib.Data.List.TakeWhile

namespace SpaceSec.Phase2

/-- `recvfrom` into a buffer of 1024 zeros, the last of which it leaves, read as a C string. -/
def textOf (datagram : Bytes) : Bytes := (datagram.take 1023).takeWhile (· ≠ 0)

def command : Bytes := ascii "CMD: STATUS_CHECK"

def responseTo (text : Bytes) : Bytes := ascii "ACK: " ++ text

/-- The satellite, its ground senders, each with a socket of its own, and the network, which keeps
every datagram with the sender that it comes from or goes to. `received` holds what the satellite
prints, `senders` those who have sent, and `endings` the last line of each sender that is done: a
response, or none in time. -/
structure Link where
  toSatellite : List (ℕ × Bytes) := []
  toSender : List (ℕ × Bytes) := []
  received : List Bytes := []
  senders : List ℕ := []
  endings : List (ℕ × Option Bytes) := []

/-- A sender sends its command, once; anyone puts a datagram on the network; a datagram is
delivered, any number of times or never; a `recvfrom` of the satellite fails, or one of a sender
times out. -/
inductive Action
  | send (i : ℕ)
  | injectToSatellite (i : ℕ) (d : Bytes)
  | injectToSender (i : ℕ) (d : Bytes)
  | deliverToSatellite (k : ℕ)
  | deliverToSender (k : ℕ)
  | fail
  | timeout (i : ℕ)

namespace Link

/-- A sender waits from when it has sent until it is done; what comes later comes to a closed
socket. -/
def finish (l : Link) (i : ℕ) (ending : Option Bytes) : Link :=
  if i ∈ l.senders ∧ i ∉ l.endings.map Prod.fst then
    { l with endings := l.endings ++ [(i, ending)] }
  else l

def step (l : Link) : Action → Link
  | .send i =>
    if i ∈ l.senders then l
    else { l with senders := l.senders ++ [i], toSatellite := l.toSatellite ++ [(i, command)] }
  | .injectToSatellite i d => { l with toSatellite := l.toSatellite ++ [(i, d)] }
  | .injectToSender i d => { l with toSender := l.toSender ++ [(i, d)] }
  | .deliverToSatellite k =>
    match l.toSatellite[k]? with
    | none => l
    | some (i, d) =>
      let text := textOf d
      { l with
        received := l.received ++ [text]
        toSender := l.toSender ++ [(i, responseTo text)] }
  | .deliverToSender k =>
    match l.toSender[k]? with
    | none => l
    | some (i, d) => l.finish i (some (textOf d))
  | .fail => l
  | .timeout i => l.finish i none

def after (actions : List Action) : Link := actions.foldl step {}

end Link

theorem zero_notMem_textOf (d : Bytes) : 0 ∉ textOf d := fun h ↦ by
  simpa using List.mem_takeWhile_imp h

theorem length_textOf_le (d : Bytes) : (textOf d).length ≤ 1023 :=
  (List.takeWhile_prefix _).length_le.trans (List.length_take_le _ _)

theorem textOf_eq_self {text : Bytes} (hlength : text.length ≤ 1023) (hzero : 0 ∉ text) :
    textOf text = text := by
  rw [textOf, List.take_of_length_le hlength, List.takeWhile_eq_self_iff]
  intro b hb
  exact decide_eq_true (ne_of_mem_of_not_mem hb hzero)

/-- A long text loses its end on the way back, to the prefix that it got. -/
theorem textOf_responseTo (d : Bytes) :
    textOf (responseTo (textOf d)) = responseTo ((d.take 1018).takeWhile (· ≠ 0)) := by
  have hack : ∀ b ∈ ascii "ACK: ", decide (b ≠ 0) = true := by simp [ascii]
  have hlength : (ascii "ACK: ").length = 5 := rfl
  rw [textOf, responseTo, List.take_append, List.take_of_length_le (by rw [hlength]; omega),
    List.takeWhile_append_of_pos hack, hlength, textOf, List.take_takeWhile, List.take_take,
    responseTo, List.takeWhile_idem]
  rfl

namespace Link

/-- What is on the network was sent or put there, what is printed was on the network, and a sender
is done once, after it has sent. -/
structure Inv (l : Link) (actions : List Action) : Prop where
  toSatellite : ∀ m ∈ l.toSatellite,
    (m.1 ∈ l.senders ∧ m.2 = command) ∨ .injectToSatellite m.1 m.2 ∈ actions
  toSender : ∀ m ∈ l.toSender,
    (∃ d, (m.1, d) ∈ l.toSatellite ∧ m.2 = responseTo (textOf d)) ∨
      .injectToSender m.1 m.2 ∈ actions
  received : ∀ text ∈ l.received, ∃ m ∈ l.toSatellite, text = textOf m.2
  endings : ∀ x ∈ l.endings, ∀ text, x.2 = some text →
    ∃ m ∈ l.toSender, m.1 = x.1 ∧ text = textOf m.2
  sent : ∀ x ∈ l.endings, x.1 ∈ l.senders
  nodup : (l.endings.map Prod.fst).Nodup

variable {l : Link} {actions : List Action}

theorem Inv.later (h : l.Inv actions) (action : Action) : l.Inv (actions ++ [action]) where
  toSatellite m hm := (h.toSatellite m hm).imp_right (List.mem_append_left _)
  toSender m hm := (h.toSender m hm).imp_right (List.mem_append_left _)
  received := h.received
  endings := h.endings
  sent := h.sent
  nodup := h.nodup

theorem Inv.start (h : l.Inv actions) (i : ℕ) :
    Inv { l with senders := l.senders ++ [i] } actions where
  toSatellite m hm := (h.toSatellite m hm).imp_left fun hsent ↦
    ⟨List.mem_append_left _ hsent.1, hsent.2⟩
  toSender := h.toSender
  received := h.received
  endings := h.endings
  sent x hx := List.mem_append_left _ (h.sent x hx)
  nodup := h.nodup

theorem Inv.putToSatellite (h : l.Inv actions) {m : ℕ × Bytes}
    (hm : (m.1 ∈ l.senders ∧ m.2 = command) ∨ .injectToSatellite m.1 m.2 ∈ actions) :
    Inv { l with toSatellite := l.toSatellite ++ [m] } actions where
  toSatellite := List.forall_mem_append.mpr ⟨h.toSatellite, List.forall_mem_singleton.mpr hm⟩
  toSender m hm := by
    refine (h.toSender m hm).imp_left fun hanswer ↦ ?_
    obtain ⟨d, hd, heq⟩ := hanswer
    exact ⟨d, List.mem_append_left _ hd, heq⟩
  received text htext := by
    obtain ⟨m, hm, heq⟩ := h.received text htext
    exact ⟨m, List.mem_append_left _ hm, heq⟩
  endings := h.endings
  sent := h.sent
  nodup := h.nodup

theorem Inv.putToSender (h : l.Inv actions) {m : ℕ × Bytes}
    (hm : (∃ d, (m.1, d) ∈ l.toSatellite ∧ m.2 = responseTo (textOf d)) ∨
      .injectToSender m.1 m.2 ∈ actions) :
    Inv { l with toSender := l.toSender ++ [m] } actions where
  toSatellite := h.toSatellite
  toSender := List.forall_mem_append.mpr ⟨h.toSender, List.forall_mem_singleton.mpr hm⟩
  received := h.received
  endings x hx text htext := by
    obtain ⟨m, hm, heq⟩ := h.endings x hx text htext
    exact ⟨m, List.mem_append_left _ hm, heq⟩
  sent := h.sent
  nodup := h.nodup

theorem Inv.finish (h : l.Inv actions) {i : ℕ} {ending : Option Bytes}
    (hending : ∀ text, ending = some text → ∃ m ∈ l.toSender, m.1 = i ∧ text = textOf m.2) :
    (l.finish i ending).Inv actions := by
  rw [Link.finish]
  split_ifs with hwaits
  · refine ⟨h.toSatellite, h.toSender, h.received, List.forall_mem_append.mpr ⟨h.endings,
      List.forall_mem_singleton.mpr hending⟩, List.forall_mem_append.mpr ⟨h.sent,
      List.forall_mem_singleton.mpr hwaits.1⟩, ?_⟩
    rw [List.map_append, List.map_singleton, ← List.concat_eq_append]
    exact h.nodup.concat hwaits.2
  · exact h

theorem Inv.step (h : l.Inv actions) (action : Action) :
    (l.step action).Inv (actions ++ [action]) := by
  have hself : action ∈ actions ++ [action] :=
    List.mem_append_right _ (List.mem_singleton_self action)
  cases action with
  | send i =>
    rw [Link.step]
    split_ifs
    · exact h.later _
    · exact ((h.later _).start i).putToSatellite
        (Or.inl ⟨List.mem_append_right _ (List.mem_singleton_self i), rfl⟩)
  | injectToSatellite i d => exact (h.later _).putToSatellite (Or.inr hself)
  | injectToSender i d => exact (h.later _).putToSender (Or.inr hself)
  | deliverToSatellite k =>
    rw [Link.step]
    cases hget : l.toSatellite[k]? with
    | none => exact h.later _
    | some m =>
      obtain ⟨i, d⟩ := m
      have hmem := List.mem_of_getElem? hget
      have hanswer := (h.later (.deliverToSatellite k)).putToSender
        (m := (i, responseTo (textOf d))) (Or.inl ⟨d, hmem, rfl⟩)
      exact ⟨hanswer.toSatellite, hanswer.toSender, List.forall_mem_append.mpr ⟨h.received,
        List.forall_mem_singleton.mpr ⟨(i, d), hmem, rfl⟩⟩, hanswer.endings, h.sent, h.nodup⟩
  | deliverToSender k =>
    rw [Link.step]
    cases hget : l.toSender[k]? with
    | none => exact h.later _
    | some m =>
      obtain ⟨i, d⟩ := m
      refine (h.later _).finish fun text htext ↦ ⟨(i, d), List.mem_of_getElem? hget, rfl, ?_⟩
      exact (Option.some_inj.mp htext).symm
  | fail => exact h.later _
  | timeout i => exact (h.later _).finish fun text htext ↦ nomatch htext

theorem inv_after (actions : List Action) : (after actions).Inv actions := by
  induction actions using List.reverseRecOn with
  | nil => exact ⟨nofun, nofun, nofun, nofun, nofun, List.nodup_nil⟩
  | append_singleton actions action ih =>
    rw [after, List.foldl_append]
    exact ih.step action

theorem received_foldl (l : Link) (more : List Action) :
    ∃ ds : List Bytes, (more.foldl step l).received = l.received ++ ds.map textOf := by
  induction more generalizing l with
  | nil => exact ⟨[], (List.append_nil _).symm⟩
  | cons action more ih =>
    have hstep : ∃ ds : List Bytes, (l.step action).received = l.received ++ ds.map textOf := by
      cases action with
      | injectToSatellite | injectToSender | fail => exact ⟨[], (List.append_nil _).symm⟩
      | send i =>
        refine ⟨[], ?_⟩
        rw [step]
        split_ifs <;> exact (List.append_nil _).symm
      | deliverToSatellite k =>
        rw [step]
        cases l.toSatellite[k]? with
        | none => exact ⟨[], (List.append_nil _).symm⟩
        | some m => exact ⟨[m.2], rfl⟩
      | deliverToSender k =>
        rw [step]
        cases l.toSender[k]? with
        | none => exact ⟨[], (List.append_nil _).symm⟩
        | some m =>
          refine ⟨[], ?_⟩
          simp only [Link.finish]
          split_ifs <;> exact (List.append_nil _).symm
      | timeout i =>
        refine ⟨[], ?_⟩
        rw [step, Link.finish]
        split_ifs <;> exact (List.append_nil _).symm
    obtain ⟨ds, hds⟩ := hstep
    obtain ⟨ds', hds'⟩ := ih (l.step action)
    exact ⟨ds ++ ds', by rw [List.foldl_cons, hds', hds, List.map_append, List.append_assoc]⟩

/-- Nothing stands between the network and the command. -/
theorem exists_received (l : Link) {texts : List Bytes}
    (htexts : ∀ text ∈ texts, text.length ≤ 1023 ∧ 0 ∉ text) :
    ∃ more : List Action, (more.foldl step l).received = l.received ++ texts := by
  induction texts generalizing l with
  | nil => exact ⟨[], (List.append_nil _).symm⟩
  | cons text texts ih =>
    obtain ⟨⟨hlength, hzero⟩, hrest⟩ := List.forall_mem_cons.mp htexts
    let l' := [Action.injectToSatellite 0 text,
      .deliverToSatellite l.toSatellite.length].foldl step l
    have hl' : l'.received = l.received ++ [text] := by
      simp [l', step, textOf_eq_self hlength hzero]
    obtain ⟨more, hmore⟩ := ih l' hrest
    refine ⟨[.injectToSatellite 0 text, .deliverToSatellite l.toSatellite.length] ++ more, ?_⟩
    rw [List.foldl_append, hmore, hl', List.append_assoc, List.singleton_append]

end Link

/-- Nobody but the programs sends. -/
def Action.Honest : Action → Prop
  | .injectToSatellite _ _ | .injectToSender _ _ => False
  | _ => True

/-- The link before it was secured, whatever is lost, repeated, reordered or forged. Each sender
ends at most once, after it has sent. With nobody else on the network every text is the command or
the response to it. Otherwise the satellite can be brought to any texts that fit its buffer, from
any state. -/
theorem link_echoes (actions : List Action) :
    let l := Link.after actions
    (l.endings.map Prod.fst).Nodup ∧ (∀ x ∈ l.endings, x.1 ∈ l.senders) ∧
      (∀ text ∈ l.received, ∃ m ∈ l.toSatellite, text = textOf m.2) ∧
      (∀ x ∈ l.endings, ∀ text, x.2 = some text →
        (∃ d, (x.1, d) ∈ l.toSatellite ∧
          text = responseTo ((d.take 1018).takeWhile (· ≠ 0))) ∨
        ∃ d, .injectToSender x.1 d ∈ actions ∧ text = textOf d) ∧
      ((∀ action ∈ actions, action.Honest) → (∀ text ∈ l.received, text = command) ∧
        ∀ x ∈ l.endings, x.2 = none ∨ x.2 = some (responseTo command)) ∧
      ∀ texts, (∃ more : List Action, (more.foldl Link.step l).received = l.received ++ texts) ↔
        ∀ text ∈ texts, text.length ≤ 1023 ∧ 0 ∉ text := by
  intro l
  have h : l.Inv actions := Link.inv_after actions
  have hendings : ∀ x ∈ l.endings, ∀ text, x.2 = some text →
      (∃ d, (x.1, d) ∈ l.toSatellite ∧ text = responseTo ((d.take 1018).takeWhile (· ≠ 0))) ∨
        ∃ d, .injectToSender x.1 d ∈ actions ∧ text = textOf d := by
    intro x hx text htext
    obtain ⟨m, hm, hi, rfl⟩ := h.endings x hx text htext
    rw [← hi]
    refine (h.toSender m hm).imp (fun hanswer ↦ ?_) fun hforged ↦ ⟨m.2, hforged, rfl⟩
    obtain ⟨d, hd, heq⟩ := hanswer
    exact ⟨d, hd, by rw [heq, textOf_responseTo]⟩
  refine ⟨h.nodup, h.sent, h.received, hendings, ?_, ?_⟩
  · intro hhonest
    have hcommand : ∀ m ∈ l.toSatellite, m.2 = command :=
      fun m hm ↦ ((h.toSatellite m hm).resolve_right (hhonest _)).2
    refine ⟨?_, ?_⟩
    · intro text htext
      obtain ⟨m, hm, rfl⟩ := h.received text htext
      rw [hcommand m hm]
      rfl
    · intro x hx
      cases hending : x.2 with
      | none => exact Or.inl rfl
      | some text =>
        rcases hendings x hx text hending with ⟨d, hd, rfl⟩ | ⟨d, hforged, -⟩
        · obtain rfl : d = command := hcommand _ hd
          exact Or.inr rfl
        · exact (hhonest _ hforged).elim
  · intro texts
    refine ⟨?_, Link.exists_received l⟩
    intro hmore text htext
    obtain ⟨more, hmore⟩ := hmore
    obtain ⟨ds, hds⟩ := Link.received_foldl l more
    obtain rfl := List.append_cancel_left (hmore.symm.trans hds)
    obtain ⟨d, -, rfl⟩ := List.mem_map.mp htext
    exact ⟨length_textOf_le d, zero_notMem_textOf d⟩

end SpaceSec.Phase2
