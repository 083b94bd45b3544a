import SpaceSec.Delivery

namespace SpaceSec

namespace Node

variable {Key : Type} (pkey : Pkey Key) (evp : Evp) (satelliteKeypair : Key)

def StartUpFails (a : Arrival) : Prop :=
  a.received.length ≠ 32 ∨ (sessionKeyWith pkey satelliteKeypair a.received).length ≠ 32

instance (a : Arrival) : Decidable (StartUpFails pkey satelliteKeypair a) :=
  inferInstanceAs (Decidable (_ ∨ _))

variable {pkey evp satelliteKeypair}

theorem start_eq {a : Arrival} (h : ¬ StartUpFails pkey satelliteKeypair a) :
    start pkey satelliteKeypair a =
      (.running ⟨sessionKeyWith pkey satelliteKeypair a.received, .new 30000⟩,
        { sent := [getRawPublicKey pkey satelliteKeypair] }) := by
  obtain ⟨hlen, hkey⟩ := not_or.mp h
  rw [start, if_neg hlen, if_neg hkey]

theorem start_fails {a : Arrival} (h : StartUpFails pkey satelliteKeypair a) :
    (start pkey satelliteKeypair a).1 = .exited 1 := by
  rcases h with hlen | hkey
  · rw [start_of_length_ne hlen]
  · by_cases hlen : a.received.length = 32
    · rw [start_of_length hlen, if_neg hkey]
    · rw [start_of_length_ne hlen]

theorem exited_iff {arrivals : List Arrival} :
    (∃ code, after pkey evp satelliteKeypair .listening arrivals = .exited code) ↔
      ∃ a ∈ arrivals.head?, StartUpFails pkey satelliteKeypair a := by
  cases arrivals with
  | nil => simp [after]
  | cons a rest =>
    rw [after_listening]
    simp only [List.head?_cons, Option.mem_some_iff, exists_eq_left']
    refine ⟨?_, ?_⟩
    · intro h
      obtain ⟨code, hexit⟩ := h
      by_contra hstart
      rw [start_eq hstart, after_running] at hexit
      cases hexit
    · intro hfails
      exact ⟨1, by rw [start_fails hfails, after_exited]⟩

variable (evp) in
theorem step_handshake {node : Node} (hnode : ∀ code, node ≠ .exited code) {a : Arrival}
    (h : ¬ StartUpFails pkey satelliteKeypair a) :
    node.step pkey evp satelliteKeypair a =
      (.running ⟨sessionKeyWith pkey satelliteKeypair a.received, .new 30000⟩,
        { sent := [getRawPublicKey pkey satelliteKeypair] }) := by
  cases node with
  | listening => exact start_eq h
  | running s => rw [step, loop_handshake (not_ne_iff.mp (not_or.mp h).1)]
  | exited code => exact absurd rfl (hnode code)

/-- The process ends at its first datagram or never, and as long as it has not ended, an honest
handshake and the next command get through. -/
theorem recoverable (pkey : Pkey Key) (evp : Evp) (satelliteKeypair : Key)
    (arrivals : List Arrival) :
    ((∃ code, after pkey evp satelliteKeypair .listening arrivals = .exited code) ↔
      ∃ a ∈ arrivals.head?, StartUpFails pkey satelliteKeypair a) ∧
    ∀ (groundKeypair : Key) (key : Bytes) (call : CreateCall) (ciphertext : Bytes)
      (tag : Vector UInt8 tagSize) (latencyClock freshClock latencyClock' freshClock' : UInt64),
      (∀ a ∈ arrivals.head?, ¬ StartUpFails pkey satelliteKeypair a) →
      Honest pkey groundKeypair satelliteKeypair →
      groundHandshake pkey groundKeypair (getRawPublicKey pkey satelliteKeypair) = some key →
      Sealing evp key call ciphertext tag → call.command.length ≤ 2008 →
      |(freshClock'.toNat : ℤ) - call.timestampMs.toNat| ≤ 30000 →
      let node := after pkey evp satelliteKeypair .listening arrivals
      let handshake : Arrival := ⟨getRawPublicKey pkey groundKeypair, latencyClock, freshClock⟩
      let command : Arrival := ⟨call.datagram evp key, latencyClock', freshClock'⟩
      (node.step pkey evp satelliteKeypair handshake).2.sent =
          [getRawPublicKey pkey satelliteKeypair] ∧
        (after pkey evp satelliteKeypair .listening (arrivals ++ [handshake])).execution pkey evp
            satelliteKeypair command = some ⟨key, call.packet ciphertext tag, call.command⟩ := by
  refine ⟨exited_iff, ?_⟩
  intro groundKeypair key call ciphertext tag lat now lat' now' hstart hhonest hground hseal hlen
    hfresh node handshake command
  have hnode : ∀ code, node ≠ .exited code := fun code hexit ↦ by
    obtain ⟨a, ha, hfails⟩ := exited_iff.mp ⟨code, hexit⟩
    exact hstart a ha hfails
  have htake (d : Bytes) (hd : d.length = 32) : d.take 2048 = d := List.take_of_length_le (by omega)
  have hreceived : handshake.received = getRawPublicKey pkey groundKeypair :=
    htake _ hhonest.groundPublic
  rw [groundHandshake_eq_some, htake _ hhonest.satellitePublic, hhonest.sessionKey] at hground
  obtain ⟨-, rfl, hkey⟩ := hground
  have hok : ¬ StartUpFails pkey satelliteKeypair handshake := by
    rw [StartUpFails, hreceived]
    exact not_or.mpr ⟨not_not.mpr hhonest.groundPublic, not_not.mpr hkey⟩
  have hstep := step_handshake evp hnode hok
  rw [hreceived] at hstep
  refine ⟨by rw [hstep], ?_⟩
  rw [after_concat, hstep]
  exact execution_of_call pkey satelliteKeypair hseal hlen (AntiReplay.isDuplicate_new _ _ _) lat'
    hfresh

theorem stray_byte_exits :
    after .product (.ofTable []) 3 .listening [⟨[88], 0, 0⟩] = .exited 1 := by decide

theorem recoverable_after_junk :
    let call := validPacketCall 60000
    let key : Bytes := BigEndian.bytes 32 15
    let ciphertext : Bytes := List.replicate 17 1
    let tag := Vector.replicate tagSize 9
    let evp := Evp.ofTable [call.sealed key ciphertext tag]
    let arrivals : List Arrival :=
      [⟨BigEndian.bytes 32 7, 0, 0⟩, ⟨[88], 0, 0⟩, ⟨[], 0, 0⟩, ⟨BigEndian.bytes 32 0, 0, 0⟩]
    (after .product evp 3 .listening
        (arrivals ++ [⟨getRawPublicKey .product 5, 60000, 60000⟩])).execution .product evp 3
          ⟨call.datagram evp key, 60100, 60100⟩ =
      some ⟨key, call.packet ciphertext tag, call.command⟩ := by
  intro call key ciphertext tag evp arrivals
  have hstart : ∀ a ∈ arrivals.head?, ¬ StartUpFails .product 3 a := by decide +kernel
  have hhonest : Honest .product 5 3 := by decide +kernel
  have hground : groundHandshake .product 5 (getRawPublicKey .product 3) = some key := by
    decide +kernel
  have hlen : ciphertext.length = call.command.length := by decide +kernel
  have hseal : Sealing evp key call ciphertext tag := sealing_singleton call key ciphertext tag hlen
  have hfresh : |((60100 : UInt64).toNat : ℤ) - call.timestampMs.toNat| ≤ 30000 := by decide +kernel
  have h := (recoverable .product evp 3 arrivals).2 5 key call ciphertext tag
    60000 60000 60100 60100 hstart hhonest hground hseal (by decide +kernel) hfresh
  exact h.2

end Node

end SpaceSec
