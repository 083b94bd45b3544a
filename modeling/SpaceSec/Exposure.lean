import SpaceSec.AtMostOnce
import Mathlib.Algebra.Order.Group.Abs

namespace SpaceSec

open OnceFilter (Epoch)

namespace Node

variable {Key : Type} (pkey : Pkey Key) (evp : Evp) (satelliteKeypair : Key)

/-- The datagram is a handshake, and it gives this session key. -/
def establishes (sessionKey : Bytes) (a : Arrival) : Bool :=
  a.received.length = 32 ∧ sessionKeyWith pkey satelliteKeypair a.received = sessionKey

theorem renews_epochInput (sessionKey : Bytes) (a : Arrival) :
    Epoch.renews sessionKey (a.epochInput pkey satelliteKeypair) =
      establishes pkey satelliteKeypair sessionKey a := by
  rw [Arrival.epochInput, establishes]
  split_ifs with hlen
  · simp only [Epoch.renews, hlen, true_and]
  · simp only [Epoch.renews, hlen, false_and, decide_false]

theorem count_executions_running (sessionKey' : Bytes) (rest : List Arrival) (sessionKey : Bytes)
    (k : Identity) :
    ((Node.running ⟨sessionKey', .new 30000⟩).executions pkey evp satelliteKeypair rest).countP
        (Execution.identity · = (sessionKey, k)) ≤
      (if sessionKey' = sessionKey then 1 else 0) +
        rest.countP (establishes pkey satelliteKeypair sessionKey) := by
  have hlog := ((Session.represents_new sessionKey').run pkey evp satelliteKeypair rest).2
  have hcount := Epoch.count_log_le (sessionCheck evp) ⟨sessionKey', ∅⟩
    (rest.map (Arrival.epochInput pkey satelliteKeypair)) sessionKey k
  rw [← hlog, List.countP_map, List.countP_map] at hcount
  simp only [Finset.notMem_empty, not_false_eq_true, and_true] at hcount
  refine hcount.trans (Nat.add_le_add_left (List.countP_mono_left ?_) _)
  intro a _ ha
  rwa [Function.comp_apply, renews_epochInput] at ha

theorem count_executions_le (arrivals : List Arrival) (sessionKey : Bytes) (k : Identity) :
    (executions pkey evp satelliteKeypair .listening arrivals).countP
        (Execution.identity · = (sessionKey, k)) ≤
      arrivals.countP (establishes pkey satelliteKeypair sessionKey) := by
  cases arrivals with
  | nil => exact Nat.zero_le _
  | cons a rest =>
    rw [executions_listening, List.countP_cons]
    rcases start_cases pkey satelliteKeypair a with hs | ⟨s, hs⟩
    · rw [hs, executions_exited]
      exact Nat.zero_le _
    · obtain ⟨hlen, rfl, -⟩ := start_running hs
      have hcount := count_executions_running pkey evp satelliteKeypair
        (sessionKeyWith pkey satelliteKeypair a.received) rest sessionKey k
      rw [hs]
      refine hcount.trans (Nat.le_of_eq ?_)
      simp only [establishes, hlen, true_and, decide_eq_true_eq]
      exact Nat.add_comm _ _

/-- What is executed at the `i`-th datagram of a run. -/
def executionAt (arrivals : List Arrival) (i : ℕ) : Option Execution :=
  arrivals[i]?.bind fun a ↦
    (after pkey evp satelliteKeypair .listening (arrivals.take i)).execution pkey evp
      satelliteKeypair a

variable {pkey evp satelliteKeypair}

theorem executions_take_succ (arrivals : List Arrival) (i : ℕ) :
    executions pkey evp satelliteKeypair .listening (arrivals.take (i + 1)) =
      executions pkey evp satelliteKeypair .listening (arrivals.take i) ++
        (executionAt pkey evp satelliteKeypair arrivals i).toList := by
  rw [List.take_add_one, executions_append, executionAt]
  cases arrivals[i]? with
  | none => rfl
  | some a => simp only [Option.toList_some, executions, List.append_nil, Option.bind_some]

variable (pkey evp satelliteKeypair) in
theorem executions_take_mono (arrivals : List Arrival) {m n : ℕ} (h : m ≤ n) :
    executions pkey evp satelliteKeypair .listening (arrivals.take m) <+:
      executions pkey evp satelliteKeypair .listening (arrivals.take n) := by
  obtain ⟨rest, hrest⟩ := List.take_prefix_take_left h (l := arrivals)
  rw [← hrest, executions_append]
  exact List.prefix_append _ _

theorem two_le_countP_executions {arrivals : List Arrival} {i j : ℕ} {x y : Execution}
    (hij : i < j) (hx : executionAt pkey evp satelliteKeypair arrivals i = some x)
    (hy : executionAt pkey evp satelliteKeypair arrivals j = some y)
    (hsame : y.identity = x.identity) :
    2 ≤ (executions pkey evp satelliteKeypair .listening arrivals).countP
      (Execution.identity · = x.identity) := by
  have hone : 1 ≤ (executions pkey evp satelliteKeypair .listening (arrivals.take j)).countP
      (Execution.identity · = x.identity) := by
    refine List.countP_pos_iff.mpr ⟨x, ?_, decide_eq_true rfl⟩
    apply (executions_take_mono pkey evp satelliteKeypair arrivals hij).subset
    rw [executions_take_succ, hx]
    exact List.mem_append_right _ (List.mem_singleton_self x)
  have hprefix := executions_take_mono pkey evp satelliteKeypair arrivals
    (Nat.le_max_left (j + 1) arrivals.length)
  have htwo := hprefix.sublist.countP_le (p := (Execution.identity · = x.identity))
  rw [executions_take_succ, hy, List.countP_append, Option.toList_some, List.countP_singleton,
    if_pos (decide_eq_true hsame), List.take_of_length_le (Nat.le_max_right _ _)] at htwo
  omega

theorem fresh_of_execution {arrivals : List Arrival} {a : Arrival} {x : Execution}
    (h : (after pkey evp satelliteKeypair .listening arrivals).execution pkey evp satelliteKeypair
      a = some x) : |(a.freshClock.toNat : ℤ) - x.packet.timestampMs.toNat| ≤ 30000 := by
  cases hnode : after pkey evp satelliteKeypair .listening arrivals with
  | running s =>
    rw [hnode] at h
    obtain ⟨-, -, -, -, hfresh, -⟩ := execution_eq_some.mp h
    rwa [(guard_of_running hnode).1] at hfresh
  | listening | exited =>
    rw [hnode] at h
    cases h

/-- How far replays can go, whatever arrives. A packet is executed at most once for each handshake
that gives its session key, and all its executions lie within one minute of the satellite's
clock. -/
theorem replay_exposure (pkey : Pkey Key) (evp : Evp) (satelliteKeypair : Key)
    (arrivals : List Arrival) :
    (∀ sessionKey k,
      (executions pkey evp satelliteKeypair .listening arrivals).countP
          (Execution.identity · = (sessionKey, k)) ≤
        arrivals.countP (establishes pkey satelliteKeypair sessionKey)) ∧
    ∀ (i j : ℕ) (a b : Arrival) (x y : Execution),
      (after pkey evp satelliteKeypair .listening (arrivals.take i)).execution pkey evp
        satelliteKeypair a = some x →
      (after pkey evp satelliteKeypair .listening (arrivals.take j)).execution pkey evp
        satelliteKeypair b = some y →
      x.packet = y.packet → |(a.freshClock.toNat : ℤ) - b.freshClock.toNat| ≤ 60000 := by
  refine ⟨count_executions_le pkey evp satelliteKeypair arrivals, ?_⟩
  intro i j a b x y hx hy hpacket
  have hfresh := abs_le.mp (fresh_of_execution hx)
  have hfresh' := abs_le.mp (fresh_of_execution hy)
  rw [hpacket] at hfresh
  rw [abs_le]
  omega

theorem replay_exposure_captured_handshake :
    let key : Bytes := BigEndian.bytes 32 15
    let call := validPacketCall 60000
    let packet := call.packet (List.replicate 17 1) (Vector.replicate tagSize 9)
    let evp := Evp.ofTable [call.sealed key packet.ciphertext packet.tag]
    let handshake (now : UInt64) : Arrival := ⟨BigEndian.bytes 32 5, now, now⟩
    let command (now : UInt64) : Arrival := ⟨call.datagram evp key, now, now⟩
    let arrivals := [handshake 60000, command 60100, handshake 60200, command 89000]
    let x : Execution := ⟨key, packet, call.command⟩
    (executions .product evp 3 .listening arrivals).countP
        (Execution.identity · = (key, call.identity)) ≤ 2 ∧
      (after .product evp 3 .listening (arrivals.take 1)).execution .product evp 3
          (command 60100) = some x ∧
      |((command 60100).freshClock.toNat : ℤ) - (command 89000).freshClock.toNat| ≤ 60000 := by
  intro key call packet evp handshake command arrivals x
  obtain ⟨hcount, hwindow⟩ := replay_exposure .product evp 3 arrivals
  have htwice : arrivals.countP (establishes .product 3 key) = 2 := by decide +kernel
  have hfirst : (after .product evp 3 .listening (arrivals.take 1)).execution .product evp 3
      (command 60100) = some x := by decide +kernel
  have hsecond : (after .product evp 3 .listening (arrivals.take 3)).execution .product evp 3
      (command 89000) = some x := by decide +kernel
  exact ⟨htwice ▸ hcount key call.identity, hfirst, hwindow 1 3 _ _ x x hfirst hsecond rfl⟩

end Node

end SpaceSec
