import SpaceSec.Handshake
import SpaceSec.Receiver
import Mathlib.Data.List.DropRight

namespace SpaceSec

structure SecurityEvent where
  type : String
  reason : String
  sessionId : UInt32
  latencyMs : Int64
  severity : String
  deriving DecidableEq

namespace Phase5

/-- What one call of the Phase 5 receiver decides, leaves behind, reports and sends. -/
structure Outcome where
  decision : Decision
  replayGuard : AntiReplay
  events : List SecurityEvent := []
  sent : List Bytes := []
  deriving DecidableEq

/-- The two clock readings are made for the latency and for the freshness check. -/
def processSecurePacket (evp : Evp) (rawPacket sessionKey : Bytes) (replayGuard : AntiReplay)
    (latencyClock freshClock : UInt64) : Outcome :=
  match deserializePacket rawPacket default with
  | none => { decision := .fault, replayGuard }
  | some (false, _) =>
    { decision := .badFormat, replayGuard
      events := [⟨"REJECTED", "BAD_FORMAT", 0, 0, "MEDIUM"⟩] }
  | some (true, packet) =>
    let latencyMs := latencyClock.toInt64 - packet.timestampMs.toInt64
    if !replayGuard.isFresh packet.timestampMs freshClock then
      { decision := .expired, replayGuard
        events := [⟨"REJECTED", "REPLAY_TS", packet.sessionId, latencyMs, "CRITICAL"⟩] }
    else if replayGuard.isDuplicate packet.sessionId packet.nonce then
      { decision := .duplicate, replayGuard
        events := [⟨"REJECTED", "DUP_NONCE", packet.sessionId, latencyMs, "CRITICAL"⟩] }
    else
    let aad := buildAad packet
    let tag := packet.tag.toList
    match decryptChacha20Poly1305 evp sessionKey packet.nonce.toList packet.ciphertext aad
        tag [] with
    | (false, _) =>
      { decision := .tagFail, replayGuard
        events := [⟨"REJECTED", "TAG_FAIL", packet.sessionId, latencyMs, "CRITICAL"⟩] }
    | (true, plaintext) =>
      { decision := .accepted packet plaintext
        replayGuard := replayGuard.markSeen packet.sessionId packet.nonce
        events := [⟨"ACCEPTED", "OK", packet.sessionId, latencyMs, "LOW"⟩]
        sent := [ascii "ACK"] }

theorem process_eq_phase3 (evp : Evp) (rawPacket sessionKey : Bytes) (replayGuard : AntiReplay)
    (latencyClock freshClock : UInt64) :
    let outcome := processSecurePacket evp rawPacket sessionKey replayGuard latencyClock freshClock
    (outcome.decision, outcome.replayGuard) =
      Phase3.processSecurePacket evp rawPacket sessionKey replayGuard freshClock := by
  simp only [processSecurePacket, Phase3.processSecurePacket, deserializePacket_eq]
  by_cases hlen : 40 ≤ rawPacket.length
  · simp only [if_pos hlen]
    split_ifs
    · rfl
    · rfl
    · generalize decryptChacha20Poly1305 evp sessionKey _ _ _ _ [] = answer
      obtain ⟨ok, plaintext⟩ := answer
      cases ok <;> rfl
  · simp only [if_neg hlen]

theorem eq_ack_of_mem_sent {evp : Evp} {rawPacket sessionKey : Bytes} {replayGuard : AntiReplay}
    {latencyClock freshClock : UInt64} {d : Bytes}
    (h : d ∈
      (processSecurePacket evp rawPacket sessionKey replayGuard latencyClock freshClock).sent) :
    d = ascii "ACK" := by
  simp only [processSecurePacket] at h
  split at h
  · cases h
  · cases h
  · split_ifs at h
    · cases h
    · cases h
    · split at h
      · cases h
      · exact List.mem_singleton.mp h

def run (evp : Evp) (sessionKey : Bytes) :
    AntiReplay → List (Bytes × UInt64 × UInt64) → List Outcome × AntiReplay
  | replayGuard, [] => ([], replayGuard)
  | replayGuard, (rawPacket, latencyClock, freshClock) :: rest =>
    let outcome := processSecurePacket evp rawPacket sessionKey replayGuard latencyClock freshClock
    let (outcomes, replayGuard) := run evp sessionKey outcome.replayGuard rest
    (outcome :: outcomes, replayGuard)

def decideAll (evp : Evp) (sessionKey : Bytes) (replayGuard : AntiReplay)
    (inputs : List (Bytes × UInt64 × UInt64)) : List Decision × AntiReplay :=
  let (outcomes, replayGuard) := run evp sessionKey replayGuard inputs
  (outcomes.map Outcome.decision, replayGuard)

theorem decideAll_eq_phase3 (evp : Evp) (sessionKey : Bytes) (replayGuard : AntiReplay)
    (inputs : List (Bytes × UInt64 × UInt64)) :
    decideAll evp sessionKey replayGuard inputs =
      Phase3.run evp sessionKey replayGuard (inputs.map fun i ↦ (i.1, i.2.2)) := by
  induction inputs generalizing replayGuard with
  | nil => rfl
  | cons input inputs ih =>
    obtain ⟨rawPacket, latencyClock, freshClock⟩ := input
    simp only [List.map_cons, Phase3.run, ← ih, decideAll, run,
      ← process_eq_phase3 evp rawPacket sessionKey replayGuard latencyClock freshClock]

end Phase5

structure Session where
  sessionKey : Bytes
  replayGuard : AntiReplay
  deriving DecidableEq

/-- The satellite process: before its first datagram, in the receive loop, or ended. -/
inductive Node
  | listening
  | running (session : Session)
  | exited (code : ℕ)
  deriving DecidableEq

structure Arrival where
  datagram : Bytes
  latencyClock : UInt64
  freshClock : UInt64
  deriving DecidableEq

structure Output where
  sent : List Bytes := []
  events : List SecurityEvent := []
  decision : Option Decision := none
  deriving DecidableEq

/-- `recvfrom` into the loop's buffer of 2048 bytes drops the rest of the datagram. -/
def recvfrom (datagram : Bytes) : Bytes := datagram.take 2048

theorem recvfrom_of_length_le {d : Bytes} (h : d.length ≤ 2048) : recvfrom d = d :=
  List.take_of_length_le h

namespace Arrival

def received (a : Arrival) : Bytes := recvfrom a.datagram

theorem length_received_le (a : Arrival) : a.received.length ≤ 2048 :=
  List.length_take_le _ _

def keepsSession (a : Arrival) : Bool := a.received.length ≠ 32

def clocks (a : Arrival) : List UInt64 := [a.latencyClock, a.freshClock]

end Arrival

namespace Node

theorem running_ne_listening (s : Session) : running s ≠ listening := nofun

variable {Key : Type} (pkey : Pkey Key) (evp : Evp) (satelliteKeypair : Key)

/-- `main` up to the receive loop, on the first datagram. -/
def start (a : Arrival) : Node × Output :=
  if a.received.length ≠ 32 then (.exited 1, {}) else
  let groundPublic := a.received
  let satellitePublic := getRawPublicKey pkey satelliteKeypair
  let sessionKey := sessionKeyWith pkey satelliteKeypair groundPublic
  if sessionKey.length ≠ 32 then (.exited 1, { sent := [satellitePublic] }) else
  (.running ⟨sessionKey, .new 30000⟩, { sent := [satellitePublic] })

def loop (s : Session) (a : Arrival) : Session × Output :=
  if a.received.length = 0 then (s, {}) else
  if a.received.length = 32 then
    let newGroundPublic := a.received
    let satellitePublic := getRawPublicKey pkey satelliteKeypair
    let sessionKey := sessionKeyWith pkey satelliteKeypair newGroundPublic
    (⟨sessionKey, .new 30000⟩, { sent := [satellitePublic] })
  else
    let outcome := Phase5.processSecurePacket evp a.received s.sessionKey s.replayGuard
      a.latencyClock a.freshClock
    (⟨s.sessionKey, outcome.replayGuard⟩,
      { sent := outcome.sent, events := outcome.events, decision := some outcome.decision })

def step : Node → Arrival → Node × Output
  | .listening, a => start pkey satelliteKeypair a
  | .running s, a =>
    let (s, output) := loop pkey evp satelliteKeypair s a
    (.running s, output)
  | .exited code, _ => (.exited code, {})

def after (node : Node) (arrivals : List Arrival) : Node :=
  arrivals.foldl (fun node a ↦ (node.step pkey evp satelliteKeypair a).1) node

def sessionAfter (s : Session) (arrivals : List Arrival) : Session :=
  arrivals.foldl (fun s a ↦ (loop pkey evp satelliteKeypair s a).1) s

def outputs : Node → List Arrival → List Output
  | _, [] => []
  | node, a :: arrivals =>
    (node.step pkey evp satelliteKeypair a).2 ::
      outputs (node.step pkey evp satelliteKeypair a).1 arrivals

variable {pkey evp satelliteKeypair}

theorem after_append (node : Node) (xs ys : List Arrival) :
    node.after pkey evp satelliteKeypair (xs ++ ys) =
      (node.after pkey evp satelliteKeypair xs).after pkey evp satelliteKeypair ys :=
  List.foldl_append

theorem after_concat (node : Node) (arrivals : List Arrival) (a : Arrival) :
    node.after pkey evp satelliteKeypair (arrivals ++ [a]) =
      ((node.after pkey evp satelliteKeypair arrivals).step pkey evp satelliteKeypair a).1 :=
  after_append node arrivals [a]

theorem sessionAfter_append (s : Session) (xs ys : List Arrival) :
    sessionAfter pkey evp satelliteKeypair s (xs ++ ys) =
      sessionAfter pkey evp satelliteKeypair (sessionAfter pkey evp satelliteKeypair s xs) ys :=
  List.foldl_append

@[simp] theorem after_running (s : Session) (arrivals : List Arrival) :
    (Node.running s).after pkey evp satelliteKeypair arrivals =
      .running (sessionAfter pkey evp satelliteKeypair s arrivals) := by
  induction arrivals generalizing s with
  | nil => rfl
  | cons a arrivals ih => exact ih (loop pkey evp satelliteKeypair s a).1

@[simp] theorem after_exited (code : ℕ) (arrivals : List Arrival) :
    (Node.exited code).after pkey evp satelliteKeypair arrivals = .exited code := by
  induction arrivals with
  | nil => rfl
  | cons a arrivals ih => exact ih

theorem start_of_length_ne {a : Arrival} (h : a.received.length ≠ 32) :
    start pkey satelliteKeypair a = (.exited 1, {}) :=
  if_pos h

theorem start_of_length {a : Arrival} (h : a.received.length = 32) :
    (start pkey satelliteKeypair a).1 =
      if (sessionKeyWith pkey satelliteKeypair a.received).length = 32 then
        .running ⟨sessionKeyWith pkey satelliteKeypair a.received, .new 30000⟩
      else .exited 1 := by
  simp only [start, ne_eq, h, not_true_eq_false, if_false, ite_not]
  split_ifs <;> rfl

theorem start_running {a : Arrival} {s : Session}
    (h : (start pkey satelliteKeypair a).1 = .running s) :
    a.received.length = 32 ∧ s = ⟨sessionKeyWith pkey satelliteKeypair a.received, .new 30000⟩ ∧
      s.sessionKey.length = 32 := by
  by_cases hlen : a.received.length = 32
  · rw [start_of_length hlen] at h
    split_ifs at h with hkey
    obtain rfl := Node.running.inj h
    exact ⟨hlen, rfl, hkey⟩
  · rw [start_of_length_ne hlen] at h
    cases h

variable (pkey satelliteKeypair) in
theorem start_cases (a : Arrival) :
    (start pkey satelliteKeypair a).1 = .exited 1 ∨
      ∃ s, (start pkey satelliteKeypair a).1 = .running s := by
  by_cases hlen : a.received.length = 32
  · rw [start_of_length hlen]
    split_ifs with hkey
    · exact Or.inr ⟨_, rfl⟩
    · exact Or.inl rfl
  · exact Or.inl (congrArg Prod.fst (start_of_length_ne hlen))

theorem after_listening (a : Arrival) (arrivals : List Arrival) :
    after pkey evp satelliteKeypair .listening (a :: arrivals) =
      (start pkey satelliteKeypair a).1.after pkey evp satelliteKeypair arrivals := rfl

theorem started_of_running {arrivals : List Arrival} {s : Session}
    (h : after pkey evp satelliteKeypair .listening arrivals = .running s) :
    ∃ a rest s₀, arrivals = a :: rest ∧ (start pkey satelliteKeypair a).1 = .running s₀ ∧
      s = sessionAfter pkey evp satelliteKeypair s₀ rest := by
  cases arrivals with
  | nil => cases h
  | cons a rest =>
    rw [after_listening] at h
    rcases start_cases pkey satelliteKeypair a with hs | ⟨s₀, hs⟩
    · rw [hs, after_exited] at h
      cases h
    · rw [hs, after_running] at h
      exact ⟨a, rest, s₀, rfl, hs, (Node.running.inj h).symm⟩

theorem loop_handshake {s : Session} {a : Arrival} (h : a.received.length = 32) :
    loop pkey evp satelliteKeypair s a =
      (⟨sessionKeyWith pkey satelliteKeypair a.received, .new 30000⟩,
        { sent := [getRawPublicKey pkey satelliteKeypair] }) := by
  rw [loop, if_neg (by omega), if_pos h]

/-- An empty datagram, too, leaves what a call of the receiver would leave. -/
theorem loop_session {s : Session} {a : Arrival} (h : a.received.length ≠ 32) :
    (loop pkey evp satelliteKeypair s a).1 = ⟨s.sessionKey,
      (Phase3.processSecurePacket evp a.received s.sessionKey s.replayGuard a.freshClock).2⟩ := by
  by_cases hempty : a.received.length = 0
  · rw [loop, if_pos hempty, Phase3.processSecurePacket, deserializePacket_eq, if_neg (by omega)]
  · rw [loop, if_neg hempty, if_neg h, ← Phase5.process_eq_phase3 evp _ _ _ a.latencyClock]

theorem eq_ack_of_mem_sent {s : Session} {a : Arrival} (h : a.received.length ≠ 32) {d : Bytes}
    (hd : d ∈ (loop pkey evp satelliteKeypair s a).2.sent) : d = ascii "ACK" := by
  rw [loop, if_neg h] at hd
  split_ifs at hd
  · cases hd
  · exact Phase5.eq_ack_of_mem_sent hd

end Node

structure Execution where
  sessionKey : Bytes
  packet : SecurePacket
  command : Bytes
  deriving DecidableEq

namespace Execution

def identity (x : Execution) : Bytes × Identity := (x.sessionKey, x.packet.identity)

def of (sessionKey : Bytes) (decision : Decision) : Option Execution :=
  decision.acceptance.map fun a ↦ ⟨sessionKey, a.2.1, a.2.2⟩

theorem of_eq_some {sessionKey : Bytes} {decision : Decision} {x : Execution} :
    Execution.of sessionKey decision = some x ↔
      x.sessionKey = sessionKey ∧ decision = .accepted x.packet x.command := by
  obtain ⟨key, packet, command⟩ := x
  cases decision <;> simp [Execution.of, Decision.acceptance, eq_comm]

end Execution

namespace Node

variable {Key : Type} (pkey : Pkey Key) (evp : Evp) (satelliteKeypair : Key)

def execution (node : Node) (a : Arrival) : Option Execution :=
  match node with
  | .running s =>
    (loop pkey evp satelliteKeypair s a).2.decision.bind (Execution.of s.sessionKey)
  | _ => none

def executions : Node → List Arrival → List Execution
  | _, [] => []
  | node, a :: arrivals =>
    (node.execution pkey evp satelliteKeypair a).toList ++
      executions (node.step pkey evp satelliteKeypair a).1 arrivals

/-- The commands executed since the last handshake that a run received. -/
def sessionExecutions (arrivals : List Arrival) : List Execution :=
  (after pkey evp satelliteKeypair .listening
      (arrivals.rdropWhile Arrival.keepsSession)).executions pkey evp satelliteKeypair
    (arrivals.rtakeWhile Arrival.keepsSession)

variable {pkey evp satelliteKeypair}

theorem executions_append (node : Node) (xs ys : List Arrival) :
    node.executions pkey evp satelliteKeypair (xs ++ ys) =
      node.executions pkey evp satelliteKeypair xs ++
        (node.after pkey evp satelliteKeypair xs).executions pkey evp satelliteKeypair ys := by
  induction xs generalizing node with
  | nil => rfl
  | cons x xs ih =>
    simp only [List.cons_append, executions, ih, List.append_assoc]
    rfl

theorem executions_exited (code : ℕ) (arrivals : List Arrival) :
    (Node.exited code).executions pkey evp satelliteKeypair arrivals = [] := by
  induction arrivals with
  | nil => rfl
  | cons a arrivals ih => exact ih

theorem execution_handshake {s : Session} {a : Arrival} (h : a.received.length = 32) :
    (Node.running s).execution pkey evp satelliteKeypair a = none := by
  rw [execution, loop_handshake h]
  rfl

theorem execution_packet {s : Session} {a : Arrival} (h : a.received.length ≠ 32) :
    (Node.running s).execution pkey evp satelliteKeypair a = Execution.of s.sessionKey
      (Phase3.processSecurePacket evp a.received s.sessionKey s.replayGuard a.freshClock).1 := by
  by_cases hempty : a.received.length = 0
  · rw [execution, loop, if_pos hempty, Phase3.processSecurePacket, deserializePacket_eq,
      if_neg (by omega)]
    rfl
  · rw [execution, loop, if_neg hempty, if_neg h,
      ← Phase5.process_eq_phase3 evp _ _ _ a.latencyClock]
    rfl

theorem execution_iff_decision {s : Session} {a : Arrival} {x : Execution} :
    (Node.running s).execution pkey evp satelliteKeypair a = some x ↔ x.sessionKey = s.sessionKey ∧
      (loop pkey evp satelliteKeypair s a).2.decision = some (.accepted x.packet x.command) := by
  rw [execution, Option.bind_eq_some_iff]
  simp only [Execution.of_eq_some]
  refine ⟨?_, ?_⟩
  · intro h
    obtain ⟨decision, hdecision, hkey, rfl⟩ := h
    exact ⟨hkey, hdecision⟩
  · intro h
    obtain ⟨hkey, hdecision⟩ := h
    exact ⟨_, hdecision, hkey, rfl⟩

theorem execution_eq_some {s : Session} {a : Arrival} {x : Execution} :
    (Node.running s).execution pkey evp satelliteKeypair a = some x ↔
      a.received.length ≠ 32 ∧ x.sessionKey = s.sessionKey ∧ x.packet = slicePacket a.received ∧
        40 ≤ a.received.length ∧
        |(a.freshClock.toNat : ℤ) - x.packet.timestampMs.toNat| ≤ s.replayGuard.windowMs.toNat ∧
        s.replayGuard.isDuplicate x.packet.sessionId x.packet.nonce = false ∧
        x.packet.aeadOpen evp s.sessionKey = some x.command := by
  by_cases hlen : a.received.length = 32
  · simp [execution_handshake hlen, hlen]
  · rw [execution_packet hlen, Execution.of_eq_some, Phase3.process_accepted_iff]
    simp only [ne_eq, hlen, not_false_eq_true, true_and]

theorem mem_executions {s : Session} {arrivals : List Arrival} {x : Execution}
    (h : x ∈ (Node.running s).executions pkey evp satelliteKeypair arrivals) :
    ∃ a ∈ arrivals, 40 ≤ a.received.length ∧ x.packet = slicePacket a.received ∧
      x.packet.aeadOpen evp x.sessionKey = some x.command := by
  induction arrivals generalizing s with
  | nil => cases h
  | cons a arrivals ih =>
    rw [executions, List.mem_append, Option.mem_toList] at h
    rcases h with h | h
    · obtain ⟨-, hkey, hpacket, hlen, -, -, hopen⟩ := execution_eq_some.mp h
      exact ⟨a, List.mem_cons_self, hlen, hpacket, hkey ▸ hopen⟩
    · obtain ⟨a', ha', hx⟩ := ih h
      exact ⟨a', List.mem_cons_of_mem a ha', hx⟩

end Node

end SpaceSec
