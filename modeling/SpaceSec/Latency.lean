import SpaceSec.GroundStation
import SpaceSec.SecurityReport
import Mathlib.Algebra.Order.Group.Abs

namespace SpaceSec

theorem toInt_toInt64 (x : UInt64) :
    x.toInt64.toInt = if x.toNat < 2 ^ 63 then (x.toNat : ℤ) else (x.toNat : ℤ) - 2 ^ 64 := by
  have h := BitVec.toInt_eq_toNat_cond x.toBitVec
  simp only [UInt64.toNat_toBitVec] at h
  change x.toBitVec.toInt = _
  rw [h]
  split_ifs <;> first | rfl | omega

/-- The exact difference of the two signed operands, which the subtraction may not be able to
represent. -/
def exactLatency (latencyClock timestampMs : UInt64) : ℤ :=
  latencyClock.toInt64.toInt - timestampMs.toInt64.toInt

def LatencyFits (latencyClock timestampMs : UInt64) : Prop :=
  -2 ^ 63 ≤ exactLatency latencyClock timestampMs ∧ exactLatency latencyClock timestampMs < 2 ^ 63

instance (latencyClock timestampMs : UInt64) : Decidable (LatencyFits latencyClock timestampMs) :=
  inferInstanceAs (Decidable (_ ∧ _))

theorem latencyFits_iff {clock timestamp : UInt64} (hclock : clock.toNat < 2 ^ 63) :
    LatencyFits clock timestamp ↔
      timestamp.toNat < 2 ^ 63 ∨ 2 ^ 63 + clock.toNat < timestamp.toNat := by
  have hlt := timestamp.toNat_lt
  rw [LatencyFits, exactLatency, toInt_toInt64, toInt_toInt64, if_pos hclock]
  split_ifs with h
  · omega
  · omega

theorem latencyMs_of_fits {clock timestamp : UInt64} (h : LatencyFits clock timestamp) :
    (latencyMs clock timestamp).toInt = exactLatency clock timestamp := by
  rw [LatencyFits, exactLatency] at h
  rw [latencyMs, Int64.toInt_sub, exactLatency]
  apply Int.bmod_eq_of_le <;> omega

theorem exactLatency_of_lt {clock timestamp : UInt64} (hclock : clock.toNat < 2 ^ 63)
    (h : timestamp.toNat < 2 ^ 63) :
    exactLatency clock timestamp = (clock.toNat : ℤ) - timestamp.toNat := by
  rw [exactLatency, toInt_toInt64, toInt_toInt64, if_pos hclock, if_pos h]

theorem exactLatency_of_le {clock timestamp : UInt64} (hclock : clock.toNat < 2 ^ 63)
    (h : 2 ^ 63 ≤ timestamp.toNat) :
    exactLatency clock timestamp = (clock.toNat : ℤ) - timestamp.toNat + 2 ^ 64 := by
  rw [exactLatency, toInt_toInt64, toInt_toInt64, if_pos hclock, if_neg (not_lt.mpr h)]
  omega

/-- The subtraction is defined, and the latency of an accepted packet is the exact one, bounded by
the freshness window. -/
structure LatencySafe (outcome : Phase5.Outcome) (latencyClock freshClock timestampMs : UInt64) :
    Prop where
  fits : LatencyFits latencyClock timestampMs
  exact : ∀ packet command, outcome.decision = .accepted packet command →
    ∃ event, outcome.events = [event] ∧
      event.latencyMs.toInt = (latencyClock.toNat : ℤ) - timestampMs.toNat ∧
      -30000 - ((freshClock.toNat : ℤ) - latencyClock.toNat) ≤ event.latencyMs.toInt ∧
      event.latencyMs.toInt ≤ 30000

namespace Phase5

variable {evp : Evp} {rawPacket sessionKey : Bytes} {seenNonces : Finset (List Char)}
  {latencyClock freshClock : UInt64}

variable (evp rawPacket sessionKey latencyClock freshClock) in
theorem accepted_iff_acceptable (replayGuard : AntiReplay) :
    (∃ packet command, (processSecurePacket evp rawPacket sessionKey replayGuard latencyClock
      freshClock).decision = .accepted packet command) ↔
      acceptable evp sessionKey replayGuard.windowMs (rawPacket, freshClock) ≠ none ∧
        replayGuard.isDuplicate (slicePacket rawPacket).sessionId (slicePacket rawPacket).nonce =
          false := by
  have hphase3 := congrArg Prod.fst (process_eq_phase3 evp rawPacket sessionKey replayGuard
    latencyClock freshClock)
  simp only at hphase3
  simp only [hphase3, Phase3.process_accepted_iff, ne_eq, Option.eq_none_iff_forall_ne_some,
    not_forall, not_not]
  refine ⟨?_, ?_⟩
  · intro h
    obtain ⟨packet, command, rfl, hlen, hfresh, hnew, hopen⟩ := h
    exact ⟨⟨_, acceptable_eq_some.mpr ⟨rfl, rfl, hlen, hfresh, hopen⟩⟩, hnew⟩
  · intro h
    obtain ⟨⟨⟨k, packet, command⟩, ha⟩, hnew⟩ := h
    obtain ⟨-, rfl, hlen, hfresh, hopen⟩ := acceptable_eq_some.mp ha
    exact ⟨_, command, rfl, hlen, hfresh, hnew, hopen⟩

theorem report_of_accepted {replayGuard : AntiReplay} {packet : SecurePacket} {command : Bytes}
    (h : (processSecurePacket evp rawPacket sessionKey replayGuard latencyClock
      freshClock).decision = .accepted packet command) :
    (processSecurePacket evp rawPacket sessionKey replayGuard latencyClock freshClock).events =
      [⟨"ACCEPTED", "OK", (slicePacket rawPacket).sessionId,
        latencyMs latencyClock (slicePacket rawPacket).timestampMs, "LOW"⟩] := by
  rw [(process_outcome evp rawPacket sessionKey replayGuard latencyClock freshClock).2.2, h]
  rfl

/-- The latency of a packet is safe for the timestamps that a signed integer can hold. A larger one
overflows the subtraction, unless it is so large that the difference wraps into range; then it must
not be accepted. -/
theorem latency_safe {packet : SecurePacket}
    (hpacket : deserializePacket rawPacket default = some (true, packet))
    (horder : latencyClock.toNat ≤ freshClock.toNat) (hclock : freshClock.toNat < 2 ^ 63) :
    LatencySafe (processSecurePacket evp rawPacket sessionKey ⟨seenNonces, 30000⟩ latencyClock
        freshClock) latencyClock freshClock packet.timestampMs ↔
      packet.timestampMs.toNat < 2 ^ 63 ∨
        2 ^ 63 + latencyClock.toNat < packet.timestampMs.toNat ∧
          (acceptable evp sessionKey 30000 (rawPacket, freshClock) = none ∨
            (AntiReplay.mk seenNonces 30000).isDuplicate packet.sessionId packet.nonce = true) := by
  have hlatency : latencyClock.toNat < 2 ^ 63 := by omega
  obtain ⟨hlen, rfl⟩ : 40 ≤ rawPacket.length ∧ slicePacket rawPacket = packet := by
    rw [deserializePacket_eq] at hpacket
    split_ifs at hpacket with hlen
    · exact ⟨hlen, by simpa using hpacket⟩
    · simp at hpacket
  have hacceptable := accepted_iff_acceptable evp rawPacket sessionKey latencyClock freshClock
    ⟨seenNonces, 30000⟩
  refine ⟨?_, ?_⟩
  · intro h
    rcases (latencyFits_iff hlatency).mp h.fits with hsmall | hlarge
    · exact Or.inl hsmall
    · refine Or.inr ⟨hlarge, ?_⟩
      by_contra hboth
      obtain ⟨ha, hnew⟩ := not_or.mp hboth
      obtain ⟨packet, command, hd⟩ := hacceptable.mpr ⟨ha, Bool.eq_false_iff.mpr hnew⟩
      obtain ⟨event, hevent, hexact, -⟩ := h.exact packet command hd
      rw [report_of_accepted hd] at hevent
      obtain rfl := List.singleton_inj.mp hevent
      rw [latencyMs_of_fits h.fits, exactLatency_of_le hlatency (by omega)] at hexact
      omega
  · intro h
    have hfits : LatencyFits latencyClock (slicePacket rawPacket).timestampMs :=
      (latencyFits_iff hlatency).mpr (h.imp_right And.left)
    refine ⟨hfits, ?_⟩
    intro packet command hd
    obtain ⟨ha, hnew⟩ := hacceptable.mp ⟨packet, command, hd⟩
    have hsmall : (slicePacket rawPacket).timestampMs.toNat < 2 ^ 63 := by
      refine h.resolve_right fun hlarge ↦ ?_
      rcases hlarge.2 with hnone | hdup
      · exact ha hnone
      · exact Bool.false_ne_true (hnew.symm.trans hdup)
    refine ⟨_, report_of_accepted hd, ?_⟩
    obtain ⟨⟨k, packet', command'⟩, hsome⟩ := Option.ne_none_iff_exists'.mp ha
    obtain ⟨-, rfl, -, hfresh, -⟩ := acceptable_eq_some.mp hsome
    rw [latencyMs_of_fits hfits, exactLatency_of_lt hlatency hsmall]
    have habs := abs_le.mp hfresh
    simp only [UInt64.reduceToNat] at habs
    omega

theorem far_timestamp_overflows :
    let packet : SecurePacket := { (default : SecurePacket) with timestampMs := 0x8000000000000000 }
    deserializePacket (serializePacket packet) default = some (true, packet) ∧
      ¬ LatencyFits 60000 packet.timestampMs ∧
      (processSecurePacket (.ofTable []) (serializePacket packet) [] (.new 30000) 60000
        60000).decision = .expired := by
  decide +kernel

theorem latency_safe_capture_image :
    let call := validPacketCall 60000
    let key : Bytes := List.replicate 32 7
    let packet := call.packet (List.replicate 17 1) (Vector.replicate tagSize 9)
    let evp := Evp.ofTable [call.sealed key packet.ciphertext packet.tag]
    let outcome := processSecurePacket evp (serializePacket packet) key (.new 30000) 60100 60200
    outcome.decision = .accepted packet call.command ∧ LatencySafe outcome 60100 60200 60000 := by
  intro call key packet evp outcome
  have hdecision : outcome.decision = .accepted packet call.command := by decide +kernel
  exact ⟨hdecision, (latency_safe (deserialize_serialize packet default) (by decide)
    (by decide)).mpr (Or.inl (by decide))⟩

end Phase5

end SpaceSec
