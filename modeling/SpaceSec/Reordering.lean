import SpaceSec.AcceptanceRule
import SpaceSec.GroundStation
import SpaceSec.SatelliteNode

namespace SpaceSec

def Decision.command : Decision → Option Bytes
  | .accepted _ command => some command
  | _ => none

def executedCommands (decisions : List Decision) : List Bytes :=
  decisions.filterMap Decision.command

def Opens (evp : Evp) (sessionKey d : Bytes) : Prop :=
  40 ≤ d.length ∧ ((slicePacket d).aeadOpen evp sessionKey).isSome

instance (evp : Evp) (sessionKey d : Bytes) : Decidable (Opens evp sessionKey d) :=
  inferInstanceAs (Decidable (_ ∧ _))

/-- The datagrams that open are told apart by their session id and nonce. -/
def UniquelyNamed (evp : Evp) (sessionKey : Bytes) (datagrams : List Bytes) : Prop :=
  ∀ d ∈ datagrams, ∀ d' ∈ datagrams, Opens evp sessionKey d → Opens evp sessionKey d' →
    (slicePacket d).identity = (slicePacket d').identity → d = d'

instance (evp : Evp) (sessionKey : Bytes) (datagrams : List Bytes) :
    Decidable (UniquelyNamed evp sessionKey datagrams) :=
  inferInstanceAs (Decidable (∀ d ∈ datagrams, ∀ d' ∈ datagrams, _))

/-- Two runs execute the same commands, as multisets, and leave guards that answer alike. -/
structure SameEffect (r r' : List Decision × AntiReplay) : Prop where
  commands : (executedCommands r.1).Perm (executedCommands r'.1)
  isDuplicate : ∀ s n, r.2.isDuplicate s n = r'.2.isDuplicate s n

variable {evp : Evp} {sessionKey : Bytes} {window : UInt64}

theorem opens_of_acceptable {d : Bytes} {now : UInt64} {k : Identity} {packet : SecurePacket}
    {command : Bytes} (h : acceptable evp sessionKey window (d, now) = some (k, packet, command)) :
    Opens evp sessionKey d ∧ (slicePacket d).identity = k := by
  obtain ⟨rfl, rfl, hlen, -, hopen⟩ := acceptable_eq_some.mp h
  exact ⟨⟨hlen, Option.isSome_of_mem hopen⟩, rfl⟩

theorem executedCommands_eq (decisions : List Decision) :
    executedCommands decisions =
      (decisions.map Decision.acceptance).reduceOption.map fun a ↦ a.2.2 := by
  induction decisions with
  | nil => rfl
  | cons decision decisions ih =>
    cases decision with
    | accepted packet command => exact congrArg (command :: ·) ih
    | _ => exact ih

theorem executedCommands_decisions (inputs : List (Bytes × UInt64)) :
    executedCommands (Phase3.decisions evp sessionKey window inputs) =
      (OnceFilter.accepted (acceptable evp sessionKey window) ∅ inputs).map fun a ↦ a.2.2 := by
  rw [executedCommands_eq, Phase3.decisions,
    (Phase3.run_refines evp sessionKey (AntiReplay.tracks_new window) inputs).1]
  rfl

theorem isDuplicate_iff_accepted (inputs : List (Bytes × UInt64)) (s : UInt32) (n : Nonce) :
    (Phase3.finalGuard evp sessionKey window inputs).isDuplicate s n = true ↔
      ∃ b, ((s, n), b) ∈ OnceFilter.accepted (acceptable evp sessionKey window) ∅ inputs := by
  rw [Phase3.finalGuard,
    (Phase3.run_refines evp sessionKey (AntiReplay.tracks_new window) inputs).2.isDuplicate,
    OnceFilter.mem_seenAfter]
  simp only [Finset.notMem_empty, false_or, OnceFilter.mem_accepted]

section FixedClock

variable {L L' copies junk : List Bytes} (now : UInt64)

theorem acceptable_perm (hcopies : ∀ d ∈ copies, d ∈ L)
    (hjunk : ∀ d ∈ junk, ¬ Opens evp sessionKey d) (hperm : L'.Perm (L ++ copies ++ junk))
    (a : Identity × SecurePacket × Bytes) :
    (∃ x ∈ L.map (·, now), acceptable evp sessionKey window x = some a) ↔
      ∃ y ∈ L'.map (·, now), acceptable evp sessionKey window y = some a := by
  simp only [List.mem_map, exists_exists_and_eq_and, hperm.mem_iff, List.mem_append]
  refine ⟨?_, ?_⟩
  · intro h
    obtain ⟨d, hd, ha⟩ := h
    exact ⟨d, Or.inl (Or.inl hd), ha⟩
  · intro h
    obtain ⟨d, (hd | hd) | hd, ha⟩ := h
    · exact ⟨d, hd, ha⟩
    · exact ⟨d, hcopies d hd, ha⟩
    · exact absurd (opens_of_acceptable ha).1 (hjunk d hd)

variable (window) in
theorem accepted_reordered (hunique : UniquelyNamed evp sessionKey L)
    (hcopies : ∀ d ∈ copies, d ∈ L) (hjunk : ∀ d ∈ junk, ¬ Opens evp sessionKey d)
    (hperm : L'.Perm (L ++ copies ++ junk)) :
    (OnceFilter.accepted (acceptable evp sessionKey window) ∅ (L.map (·, now))).Perm
      (OnceFilter.accepted (acceptable evp sessionKey window) ∅ (L'.map (·, now))) := by
  refine OnceFilter.accepted_perm _ ?_ (acceptable_perm now hcopies hjunk hperm)
  intro x hx y hy k b b' hxb hyb
  obtain ⟨d, hd, rfl⟩ := List.mem_map.mp hx
  obtain ⟨d', hd', rfl⟩ := List.mem_map.mp hy
  obtain ⟨hopen, hk⟩ := opens_of_acceptable hxb
  obtain ⟨hopen', hk'⟩ := opens_of_acceptable hyb
  obtain rfl := hunique d hd d' hd' hopen hopen' (hk.trans hk'.symm)
  exact (Prod.mk.inj (Option.some_inj.mp (hxb.symm.trans hyb))).2

/-- Reordering, copies and datagrams that do not open change neither the multiset of the commands
executed nor the guard, in either version of the receiver. -/
theorem reordering_insensitive (hunique : UniquelyNamed evp sessionKey L)
    (hcopies : ∀ d ∈ copies, d ∈ L) (hjunk : ∀ d ∈ junk, ¬ Opens evp sessionKey d)
    (hperm : L'.Perm (L ++ copies ++ junk)) :
    SameEffect (Phase3.run evp sessionKey (.new window) (L'.map (·, now)))
        (Phase3.run evp sessionKey (.new window) (L.map (·, now))) ∧
      SameEffect (Phase5.decideAll evp sessionKey (.new window) (L'.map (·, now, now)))
        (Phase5.decideAll evp sessionKey (.new window) (L.map (·, now, now))) := by
  have hphase3 : SameEffect (Phase3.run evp sessionKey (.new window) (L'.map (·, now)))
      (Phase3.run evp sessionKey (.new window) (L.map (·, now))) := by
    have haccepted := accepted_reordered window now hunique hcopies hjunk hperm
    refine ⟨?_, ?_⟩
    · have h := (haccepted.map fun a ↦ a.2.2).symm
      rwa [← executedCommands_decisions, ← executedCommands_decisions] at h
    · intro s n
      apply Bool.eq_iff_iff.mpr
      calc _ ↔ ∃ b, ((s, n), b) ∈
            OnceFilter.accepted (acceptable evp sessionKey window) ∅ (L'.map (·, now)) :=
              isDuplicate_iff_accepted _ s n
        _ ↔ ∃ b, ((s, n), b) ∈
            OnceFilter.accepted (acceptable evp sessionKey window) ∅ (L.map (·, now)) :=
              exists_congr fun b ↦ haccepted.symm.mem_iff
        _ ↔ _ := (isDuplicate_iff_accepted _ s n).symm
  refine ⟨hphase3, ?_⟩
  simpa only [Phase5.decideAll_eq_phase3, List.map_map, Function.comp_def] using hphase3

end FixedClock

theorem reordering_insensitive_forged_first :
    let call := validPacketCall 60000
    let key : Bytes := List.replicate 32 7
    let evp := Evp.ofTable [call.sealed key (List.replicate 17 1) (Vector.replicate tagSize 9)]
    let packet := call.datagram evp key
    let forged := packet.set 11 0
    forged ≠ packet ∧ (slicePacket forged).identity = call.identity ∧
      SameEffect (Phase3.run evp key (.new 30000) ([forged, packet, packet].map (·, 60100)))
        (Phase3.run evp key (.new 30000) ([packet].map (·, 60100))) := by
  intro call key evp packet forged
  have hunique : UniquelyNamed evp key [packet] := by decide +kernel
  have hjunk : ∀ d ∈ [forged], ¬ Opens evp key d := by decide +kernel
  have hperm : [forged, packet, packet].Perm ([packet] ++ [packet] ++ [forged]) := by decide +kernel
  exact ⟨by decide +kernel, by decide +kernel,
    (reordering_insensitive 60100 hunique (fun _ hd ↦ hd) hjunk hperm).1⟩

end SpaceSec
