import SpaceSec.SatelliteNode

namespace SpaceSec

def latencyMs (latencyClock timestampMs : UInt64) : Int64 :=
  latencyClock.toInt64 - timestampMs.toInt64

/-- What a decision reports about a packet: type, reason, session, latency and severity. -/
def Decision.report (packet : SecurePacket) (latency : Int64) : Decision → List SecurityEvent
  | .fault => []
  | .badFormat => [⟨"REJECTED", "BAD_FORMAT", 0, 0, "MEDIUM"⟩]
  | .expired => [⟨"REJECTED", "REPLAY_TS", packet.sessionId, latency, "CRITICAL"⟩]
  | .duplicate => [⟨"REJECTED", "DUP_NONCE", packet.sessionId, latency, "CRITICAL"⟩]
  | .tagFail => [⟨"REJECTED", "TAG_FAIL", packet.sessionId, latency, "CRITICAL"⟩]
  | .accepted _ _ => [⟨"ACCEPTED", "OK", packet.sessionId, latency, "LOW"⟩]

def Decision.acks : Decision → List Bytes
  | .accepted _ _ => [ascii "ACK"]
  | _ => []

namespace Phase5

/-- Every call of the receiver ends in a decision, and its report and ACK are that decision's. -/
theorem process_outcome (evp : Evp) (rawPacket sessionKey : Bytes) (replayGuard : AntiReplay)
    (latencyClock freshClock : UInt64) :
    let outcome := processSecurePacket evp rawPacket sessionKey replayGuard latencyClock freshClock
    let packet := slicePacket rawPacket
    outcome.decision ≠ .fault ∧ outcome.sent = outcome.decision.acks ∧
      outcome.events =
        outcome.decision.report packet (latencyMs latencyClock packet.timestampMs) := by
  simp only [processSecurePacket, deserializePacket_eq]
  by_cases hlen : 40 ≤ rawPacket.length
  · simp only [if_pos hlen]
    split_ifs
    · exact ⟨Decision.noConfusion, rfl, rfl⟩
    · exact ⟨Decision.noConfusion, rfl, rfl⟩
    · generalize decryptChacha20Poly1305 evp sessionKey _ _ _ _ [] = answer
      obtain ⟨ok, plaintext⟩ := answer
      cases ok
      · exact ⟨Decision.noConfusion, rfl, rfl⟩
      · exact ⟨Decision.noConfusion, rfl, rfl⟩
  · simp only [if_neg hlen]
    exact ⟨Decision.noConfusion, rfl, rfl⟩

end Phase5

end SpaceSec
