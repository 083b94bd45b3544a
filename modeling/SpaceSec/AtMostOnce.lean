import SpaceSec.Sessions

namespace SpaceSec

open OnceFilter (EpochInput Epoch)

namespace Node

section Executions

variable {Key : Type} {pkey : Pkey Key} {evp : Evp} {satelliteKeypair : Key}

theorem executions_listening (a : Arrival) (arrivals : List Arrival) :
    executions pkey evp satelliteKeypair .listening (a :: arrivals) =
      (start pkey satelliteKeypair a).1.executions pkey evp satelliteKeypair arrivals := rfl

theorem started_of_executions {arrivals : List Arrival} {x : Execution}
    (h : x ∈ executions pkey evp satelliteKeypair .listening arrivals) :
    ∃ a rest s, arrivals = a :: rest ∧ (start pkey satelliteKeypair a).1 = .running s ∧
      x ∈ (Node.running s).executions pkey evp satelliteKeypair rest := by
  cases arrivals with
  | nil => cases h
  | cons a rest =>
    rw [executions_listening] at h
    rcases start_cases pkey satelliteKeypair a with hs | ⟨s, hs⟩
    · rw [hs, executions_exited] at h
      cases h
    · exact ⟨a, rest, s, rfl, hs, hs ▸ h⟩

end Executions

variable {Key : Type} (pkey : Pkey Key) (evp : Evp) (satelliteKeypair : Key)

/-- The arrival is no handshake that brings back a session key under which the run before it
executed a command. -/
def NewKey (before : List Arrival) (a : Arrival) : Prop :=
  a.received.length = 32 →
    ∀ x ∈ executions pkey evp satelliteKeypair .listening before,
      x.sessionKey ≠ sessionKeyWith pkey satelliteKeypair a.received

instance (before : List Arrival) (a : Arrival) :
    Decidable (NewKey pkey evp satelliteKeypair before a) :=
  inferInstanceAs (Decidable (_ → _))

variable {pkey evp satelliteKeypair}

theorem epochInput_eq_renew {a : Arrival} {key : Bytes}
    (h : a.epochInput pkey satelliteKeypair = .renew key) :
    a.received.length = 32 ∧ sessionKeyWith pkey satelliteKeypair a.received = key := by
  rw [Arrival.epochInput] at h
  split_ifs at h with hlen
  exact ⟨hlen, EpochInput.renew.inj h⟩

/-- No command is executed twice under one session key, in a run that never comes back to the key
of an earlier execution. -/
theorem at_most_once {arrivals : List Arrival}
    (h : ∀ i (hi : i < arrivals.length),
      NewKey pkey evp satelliteKeypair (arrivals.take i) arrivals[i]) :
    ((executions pkey evp satelliteKeypair .listening arrivals).map Execution.identity).Nodup := by
  cases arrivals with
  | nil => exact List.nodup_nil
  | cons a rest =>
    rw [executions_listening]
    rcases start_cases pkey satelliteKeypair a with hs | ⟨s, hs⟩
    · rw [hs, executions_exited]
      exact List.nodup_nil
    · obtain ⟨-, rfl, -⟩ := start_running hs
      have hlog (arrivals : List Arrival) := ((Session.represents_new
        (sessionKeyWith pkey satelliteKeypair a.received)).run pkey evp satelliteKeypair arrivals).2
      rw [hs, show Execution.identity = Epoch.identity ∘ Execution.entry from rfl,
        ← List.map_map, hlog]
      refine (Epoch.faithful_run _ _ _ fun pre key post heq ↦ ?_).nodup
      obtain ⟨before, l, rfl, rfl, hl⟩ := List.map_eq_append_iff.mp heq
      obtain ⟨b, after, rfl, hb, -⟩ := List.map_eq_cons_iff.mp hl
      obtain ⟨hlen, rfl⟩ := epochInput_eq_renew hb
      rw [← hlog]
      intro entry hentry
      obtain ⟨x, hx, rfl⟩ := List.mem_map.mp hentry
      have hb := h (before.length + 1) (by simp)
      simp only [List.take_succ_cons, List.take_left, List.getElem_cons_succ,
        List.getElem_append_right le_rfl, Nat.sub_self, List.getElem_cons_zero] at hb
      apply hb hlen x
      rw [executions_listening, hs]
      exact hx

/-- Once a handshake brings a session key back, a command executed under it is executed again for
as long as its timestamp is fresh. -/
theorem reexecuted {arrivals : List Arrival} {x : Execution} {a : Arrival} {now : UInt64}
    (hx : x ∈ executions pkey evp satelliteKeypair .listening arrivals)
    (hlen : a.received.length = 32)
    (hkey : sessionKeyWith pkey satelliteKeypair a.received = x.sessionKey)
    (hfresh : |(now.toNat : ℤ) - x.packet.timestampMs.toNat| ≤ 30000) :
    executions pkey evp satelliteKeypair .listening
        (arrivals ++ [a, ⟨serializePacket x.packet, now, now⟩]) =
      executions pkey evp satelliteKeypair .listening arrivals ++ [x] := by
  obtain ⟨first, rest, s, rfl, hs, hx⟩ := started_of_executions hx
  obtain ⟨b, -, hmin, hpacket, hopen⟩ := mem_executions hx
  have hreceived : Arrival.received ⟨serializePacket x.packet, now, now⟩ = b.received := by
    rw [Arrival.received, hpacket, serialize_slicePacket hmin,
      recvfrom_of_length_le b.length_received_le]
  have hagain : (Node.running ⟨x.sessionKey, .new 30000⟩).execution pkey evp satelliteKeypair
      ⟨serializePacket x.packet, now, now⟩ = some x := by
    rw [execution_eq_some, hreceived]
    exact ⟨by omega, rfl, hpacket, hmin, hfresh, AntiReplay.isDuplicate_new _ _ _, hopen⟩
  rw [executions_append, after_listening, hs, after_running]
  simp only [executions, execution_handshake hlen, step, loop_handshake hlen, hkey, hagain,
    Option.toList_none, Option.toList_some, List.nil_append, List.append_nil]

theorem captured_handshake_reexecutes :
    let key : Bytes := BigEndian.bytes 32 15
    let call := validPacketCall 60000
    let evp := Evp.ofTable [call.sealed key (List.replicate 17 1) (Vector.replicate tagSize 9)]
    let handshake (now : UInt64) : Arrival := ⟨BigEndian.bytes 32 5, now, now⟩
    let command (now : UInt64) : Arrival := ⟨call.datagram evp key, now, now⟩
    let arrivals := [handshake 60000, command 60100, handshake 60200, command 60300]
    (arrivals.flatMap Arrival.clocks).Pairwise (· ≤ ·) ∧
      ¬ ((executions .product evp 3 .listening arrivals).map Execution.identity).Nodup := by
  decide

theorem at_most_once_two_sessions :
    let call := validPacketCall 60000
    let evp := Evp.ofTable
      [call.sealed (BigEndian.bytes 32 15) (List.replicate 17 1) (Vector.replicate tagSize 9)]
    let handshake (n : ℕ) : Arrival := ⟨BigEndian.bytes 32 n, 60000, 60000⟩
    let command : Arrival := ⟨call.datagram evp (BigEndian.bytes 32 15), 60100, 60100⟩
    let arrivals := [handshake 5, command, command, handshake 7, command]
    (executions .product evp 3 .listening arrivals).length = 1 ∧
      ((executions .product evp 3 .listening arrivals).map Execution.identity).Nodup :=
  ⟨by decide +kernel, at_most_once (by decide +kernel)⟩

end Node

end SpaceSec
