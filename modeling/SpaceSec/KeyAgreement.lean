import SpaceSec.Recovery

namespace SpaceSec

/-- The ground station's process: not running, waiting for the satellite's public key, or past its
handshake. -/
inductive Ground
  | stopped
  | waiting
  | completed (sessionKey : Bytes)
  deriving DecidableEq

/-- The satellite, the latest ground station instance, and an unreliable network between them. The
network holds every datagram ever sent, with the ground instance whose socket it comes from or goes
to, and delivers any of them any number of times. -/
structure System where
  satellite : Node := .listening
  started : ℕ := 0
  ground : Ground := .stopped
  toSatellite : List (ℕ × Bytes) := []
  toGround : List (ℕ × Bytes) := []
  /-- The ground instance of the last handshake that the satellite handled; no step reads it. -/
  lastHandshake : Option ℕ := none
  deriving DecidableEq

inductive Action
  | restart
  | send (call : CreateCall) (tampered : Bool)
  | deliverToSatellite (i : ℕ) (latencyClock freshClock : UInt64)
  | deliverToGround (i : ℕ)

namespace System

variable {Key : Type} (pkey : Pkey Key) (evp : Evp) (satelliteKeypair : Key)
  (groundKeypair : ℕ → Key)

def handle (sys : System) (n : ℕ) (a : Arrival) : System :=
  let result := sys.satellite.step pkey evp satelliteKeypair a
  { sys with
    satellite := result.1
    toGround := sys.toGround ++ result.2.sent.map (n, ·)
    lastHandshake := if a.received.length = 32 then some n else sys.lastHandshake }

def step (sys : System) : Action → Option System
  | .restart =>
    some { sys with
      started := sys.started + 1
      ground := .waiting
      toSatellite := sys.toSatellite ++
        [(sys.started, getRawPublicKey pkey (groundKeypair sys.started))] }
  | .send call tampered =>
    match sys.ground with
    | .completed sessionKey =>
      let packet := call.datagram evp sessionKey
      let packet := if tampered then packet.modify headerSize (· ^^^ 0x01) else packet
      some { sys with toSatellite := sys.toSatellite ++ [(sys.started - 1, packet)] }
    | _ => none
  | .deliverToSatellite i latencyClock freshClock =>
    sys.toSatellite[i]?.map fun m ↦
      sys.handle pkey evp satelliteKeypair m.1 ⟨m.2, latencyClock, freshClock⟩
  | .deliverToGround i =>
    sys.toGround[i]?.bind fun m ↦
      if m.1 + 1 = sys.started ∧ sys.ground = .waiting then
        match groundHandshake pkey (groundKeypair m.1) m.2 with
        | some sessionKey => some { sys with ground := .completed sessionKey }
        | none => some { sys with ground := .stopped }
      else none

def run (sys : System) : List Action → Option System
  | [] => some sys
  | action :: actions =>
    (sys.step pkey evp satelliteKeypair groundKeypair action).bind fun sys ↦ sys.run actions

structure HonestKeys : Prop where
  honest : ∀ n, Honest pkey (groundKeypair n) satelliteKeypair
  length : ∀ n, (sessionKeyWith pkey satelliteKeypair
    (getRawPublicKey pkey (groundKeypair n))).length = 32

def FollowsHandshake (sys : System) : Prop :=
  ∃ s n, sys.satellite = .running s ∧ sys.lastHandshake = some n ∧ n < sys.started ∧
    s.sessionKey = sessionKeyWith pkey satelliteKeypair (getRawPublicKey pkey (groundKeypair n))

structure Inv (sys : System) : Prop where
  satellite : sys.satellite = .listening ∨ sys.FollowsHandshake pkey satelliteKeypair groundKeypair
  toSatellite : ∀ m ∈ sys.toSatellite, m.1 < sys.started ∧
    (m.2 = getRawPublicKey pkey (groundKeypair m.1) ∨
      (recvfrom m.2).length ≠ 32 ∧ sys.satellite ≠ .listening)
  toGround : ∀ m ∈ sys.toGround, sys.satellite ≠ .listening ∧
    (m.2 = getRawPublicKey pkey satelliteKeypair ∨ m.2.length ≠ 32)
  ground : ∀ key, sys.ground = .completed key → sys.satellite ≠ .listening ∧
    ∃ n, sys.started = n + 1 ∧
      key = sessionKeyWith pkey (groundKeypair n) (getRawPublicKey pkey satelliteKeypair)

variable {pkey evp satelliteKeypair groundKeypair}

theorem inv_initial : Inv pkey satelliteKeypair groundKeypair {} where
  satellite := Or.inl rfl
  toSatellite := by simp
  toGround := by simp
  ground := by simp

theorem length_datagram_ne (call : CreateCall) (key : Bytes) :
    (call.datagram evp key).length ≠ 32 := by
  cases hseal : evp.aeadSeal key call.nonce.toList call.command call.aad with
  | none => simp [CreateCall.datagram_of_not_seal hseal]
  | some sealed =>
    rw [CreateCall.datagram_of_seal hseal, length_serializePacket]
    omega

theorem Inv.restart {sys : System} (h : Inv pkey satelliteKeypair groundKeypair sys) :
    Inv pkey satelliteKeypair groundKeypair { sys with
      started := sys.started + 1
      ground := .waiting
      toSatellite := sys.toSatellite ++
        [(sys.started, getRawPublicKey pkey (groundKeypair sys.started))] } where
  satellite := h.satellite.imp_right fun ⟨s, n, hs, hl, hn, hk⟩ ↦
    ⟨s, n, hs, hl, Nat.lt_succ_of_lt hn, hk⟩
  toSatellite m hm := by
    rcases List.mem_append.mp hm with hm | hm
    · exact ⟨Nat.lt_succ_of_lt (h.toSatellite m hm).1, (h.toSatellite m hm).2⟩
    · obtain rfl := List.mem_singleton.mp hm
      exact ⟨Nat.lt_succ_self _, Or.inl rfl⟩
  toGround := h.toGround
  ground := nofun

theorem length_recvfrom_datagram_ne (call : CreateCall) (key : Bytes) (tampered : Bool) :
    (recvfrom (if tampered then (call.datagram evp key).modify headerSize (· ^^^ 0x01)
      else call.datagram evp key)).length ≠ 32 := by
  have h : (call.datagram evp key).length ≠ 32 := length_datagram_ne call key
  rw [recvfrom, List.length_take]
  split_ifs
  · rw [List.length_modify]
    omega
  · omega

theorem Inv.send {sys : System} (h : Inv pkey satelliteKeypair groundKeypair sys)
    {key packet : Bytes} (hground : sys.ground = .completed key)
    (hpacket : (recvfrom packet).length ≠ 32) :
    Inv pkey satelliteKeypair groundKeypair
      { sys with toSatellite := sys.toSatellite ++ [(sys.started - 1, packet)] } where
  satellite := h.satellite
  toSatellite m hm := by
    obtain ⟨hrunning, n, hstarted, -⟩ := h.ground key hground
    rcases List.mem_append.mp hm with hm | hm
    · exact h.toSatellite m hm
    · obtain rfl := List.mem_singleton.mp hm
      exact ⟨show sys.started - 1 < sys.started by omega, Or.inr ⟨hpacket, hrunning⟩⟩
  toGround := h.toGround
  ground := h.ground

theorem Inv.not_exited {sys : System} (h : Inv pkey satelliteKeypair groundKeypair sys) (code : ℕ) :
    sys.satellite ≠ .exited code := by
  rcases h.satellite with hs | ⟨s, -, hs, -⟩ <;> rw [hs] <;> nofun

theorem FollowsHandshake.not_listening {sys : System}
    (h : sys.FollowsHandshake pkey satelliteKeypair groundKeypair) :
    sys.satellite ≠ .listening := by
  obtain ⟨s, n, hs, -⟩ := h
  rw [hs]
  exact Node.running_ne_listening s

/-- After a datagram the satellite is in its loop, and has sent its public key or no key at all. -/
theorem Inv.handled {sys : System} (h : Inv pkey satelliteKeypair groundKeypair sys) (n : ℕ)
    {a : Arrival}
    (hfollows : (sys.handle pkey evp satelliteKeypair n a).FollowsHandshake pkey satelliteKeypair
      groundKeypair)
    (hsent : ∀ d ∈ (sys.satellite.step pkey evp satelliteKeypair a).2.sent,
      d = getRawPublicKey pkey satelliteKeypair ∨ d.length ≠ 32) :
    Inv pkey satelliteKeypair groundKeypair (sys.handle pkey evp satelliteKeypair n a) := by
  have hrunning := hfollows.not_listening
  constructor
  · exact Or.inr hfollows
  · intro m hm
    obtain ⟨hlt, hm⟩ := h.toSatellite m hm
    exact ⟨hlt, hm.imp_right fun hp ↦ ⟨hp.1, hrunning⟩⟩
  · intro m hm
    rcases List.mem_append.mp hm with hm | hm
    · exact ⟨hrunning, (h.toGround m hm).2⟩
    · obtain ⟨d, hd, rfl⟩ := List.mem_map.mp hm
      exact ⟨hrunning, hsent d hd⟩
  · intro key hkey
    exact ⟨hrunning, (h.ground key hkey).2⟩

theorem Inv.handshake {sys : System} (hkeys : HonestKeys pkey satelliteKeypair groundKeypair)
    (h : Inv pkey satelliteKeypair groundKeypair sys) {n : ℕ} (hn : n < sys.started)
    {a : Arrival} (ha : a.received = getRawPublicKey pkey (groundKeypair n)) :
    Inv pkey satelliteKeypair groundKeypair (sys.handle pkey evp satelliteKeypair n a) := by
  have hlen : a.received.length = 32 := ha ▸ (hkeys.honest n).groundPublic
  have hok : ¬ Node.StartUpFails pkey satelliteKeypair a := by
    rw [Node.StartUpFails, hlen, ha]
    exact not_or.mpr ⟨not_not.mpr rfl, not_not.mpr (hkeys.length n)⟩
  have hstep := Node.step_handshake evp h.not_exited hok
  apply h.handled n
  · rw [handle, hstep, if_pos hlen, ha]
    exact ⟨_, n, rfl, rfl, hn, rfl⟩
  · intro d hd
    rw [hstep] at hd
    exact Or.inl (List.mem_singleton.mp hd)

/-- Anything but a handshake reaches a satellite in its loop, and leaves its session key alone. -/
theorem Inv.packet {sys : System} (h : Inv pkey satelliteKeypair groundKeypair sys) (n : ℕ)
    {a : Arrival} (hrunning : sys.satellite ≠ .listening) (ha : a.received.length ≠ 32) :
    Inv pkey satelliteKeypair groundKeypair (sys.handle pkey evp satelliteKeypair n a) := by
  obtain ⟨s, j, hs, hl, hj, hk⟩ := h.satellite.resolve_left hrunning
  have hkey : (Node.loop pkey evp satelliteKeypair s a).1.sessionKey = s.sessionKey := by
    rw [Node.loop_session ha]
  apply h.handled n
  · rw [handle, if_neg ha, hs, Node.step]
    exact ⟨_, j, rfl, hl, hj, hkey.trans hk⟩
  · intro d hd
    rw [hs] at hd
    obtain rfl := Node.eq_ack_of_mem_sent ha hd
    exact Or.inr (show (ascii "ACK").length ≠ 32 by decide)

theorem Inv.groundHandshake {sys : System} (hkeys : HonestKeys pkey satelliteKeypair groundKeypair)
    (h : Inv pkey satelliteKeypair groundKeypair sys) {n : ℕ} {datagram : Bytes}
    (hm : (n, datagram) ∈ sys.toGround) (hn : n + 1 = sys.started) {key : Bytes}
    (hkey : groundHandshake pkey (groundKeypair n) datagram = some key) :
    Inv pkey satelliteKeypair groundKeypair { sys with ground := .completed key } where
  satellite := h.satellite
  toSatellite := h.toSatellite
  toGround := h.toGround
  ground key' hkey' := by
    obtain rfl := Ground.completed.inj hkey'
    obtain ⟨hrunning, hdatagram⟩ := h.toGround _ hm
    obtain ⟨hlen, hderived, -⟩ := groundHandshake_eq_some.mp hkey
    refine ⟨hrunning, n, hn.symm, ?_⟩
    have hshort := (hkeys.honest n).satellitePublic
    rcases hdatagram with rfl | hne
    · rwa [List.take_of_length_le (by omega)] at hderived
    · rw [List.length_take] at hlen
      exact absurd (show datagram.length = 32 by omega) hne

theorem inv_step {sys sys' : System} (hkeys : HonestKeys pkey satelliteKeypair groundKeypair)
    (h : Inv pkey satelliteKeypair groundKeypair sys) {action : Action}
    (hstep : sys.step pkey evp satelliteKeypair groundKeypair action = some sys') :
    Inv pkey satelliteKeypair groundKeypair sys' := by
  cases action with
  | restart =>
    obtain rfl := Option.some_inj.mp hstep
    exact h.restart
  | send call tampered =>
    simp only [step] at hstep
    split at hstep
    · rename_i key hground
      obtain rfl := Option.some_inj.mp hstep
      exact h.send hground (length_recvfrom_datagram_ne call key tampered)
    · cases hstep
  | deliverToSatellite i latencyClock freshClock =>
    obtain ⟨m, hm, rfl⟩ := Option.map_eq_some_iff.mp hstep
    obtain ⟨hn, hkey | ⟨hlen, hrunning⟩⟩ := h.toSatellite m (List.mem_of_getElem? hm)
    · have hshort := (hkeys.honest m.1).groundPublic
      have hle : m.2.length ≤ 2048 := by
        rw [hkey]
        omega
      exact h.handshake hkeys hn ((recvfrom_of_length_le hle).trans hkey)
    · exact h.packet m.1 hrunning hlen
  | deliverToGround i =>
    obtain ⟨m, hm, hstep⟩ := Option.bind_eq_some_iff.mp hstep
    split_ifs at hstep with hn
    split at hstep
    · rename_i key hkey
      obtain rfl := Option.some_inj.mp hstep
      exact h.groundHandshake hkeys (List.mem_of_getElem? hm) hn.1 hkey
    · obtain rfl := Option.some_inj.mp hstep
      exact ⟨h.satellite, h.toSatellite, h.toGround, nofun⟩

theorem inv_run {sys sys' : System} (hkeys : HonestKeys pkey satelliteKeypair groundKeypair)
    (h : Inv pkey satelliteKeypair groundKeypair sys) {actions : List Action}
    (hrun : sys.run pkey evp satelliteKeypair groundKeypair actions = some sys') :
    Inv pkey satelliteKeypair groundKeypair sys' := by
  induction actions generalizing sys with
  | nil => exact Option.some_inj.mp hrun ▸ h
  | cons action actions ih =>
    obtain ⟨next, hstep, hrest⟩ := Option.bind_eq_some_iff.mp hrun
    exact ih (inv_step hkeys h hstep) hrest

/-- The latest ground instance has completed its handshake, and the last handshake that the
satellite handled is that instance's. -/
structure Settled (sys : System) (key : Bytes) : Prop where
  ground : sys.ground = .completed key
  latest : ∃ n, sys.lastHandshake = some n ∧ n + 1 = sys.started

/-- The action neither restarts the ground station nor delivers a handshake of an earlier
instance. -/
def Undisturbing (sys : System) : Action → Prop
  | .restart => False
  | .deliverToSatellite i _ _ =>
    ∀ m, sys.toSatellite[i]? = some m → (recvfrom m.2).length = 32 → m.1 + 1 = sys.started
  | _ => True

variable (pkey evp satelliteKeypair groundKeypair) in
def Undisturbed : System → List Action → Prop
  | _, [] => True
  | sys, action :: actions => sys.Undisturbing action ∧ ∀ sys',
      sys.step pkey evp satelliteKeypair groundKeypair action = some sys' → sys'.Undisturbed actions

theorem Settled.step {sys sys' : System} {key : Bytes} (h : sys.Settled key) {action : Action}
    (haction : sys.Undisturbing action)
    (hstep : sys.step pkey evp satelliteKeypair groundKeypair action = some sys') :
    sys'.Settled key := by
  cases action with
  | restart => exact haction.elim
  | send call tampered =>
    simp only [System.step, h.ground] at hstep
    obtain rfl := Option.some_inj.mp hstep
    exact ⟨rfl, h.latest⟩
  | deliverToSatellite i latencyClock freshClock =>
    obtain ⟨m, hm, rfl⟩ := Option.map_eq_some_iff.mp hstep
    refine ⟨h.ground, ?_⟩
    rw [handle]
    split_ifs with hlen
    · exact ⟨m.1, rfl, haction m hm hlen⟩
    · exact h.latest
  | deliverToGround i =>
    obtain ⟨m, -, hstep⟩ := Option.bind_eq_some_iff.mp hstep
    rw [if_neg (by simp [h.ground])] at hstep
    cases hstep

theorem Settled.run {sys sys' : System} {key : Bytes} (h : sys.Settled key) {actions : List Action}
    (hactions : sys.Undisturbed pkey evp satelliteKeypair groundKeypair actions)
    (hrun : sys.run pkey evp satelliteKeypair groundKeypair actions = some sys') :
    sys'.Settled key := by
  induction actions generalizing sys with
  | nil => exact Option.some_inj.mp hrun ▸ h
  | cons action actions ih =>
    obtain ⟨next, hstep, hrest⟩ := Option.bind_eq_some_iff.mp hrun
    exact ih (h.step hactions.1 hstep) (hactions.2 next hstep) hrest

theorem Settled.agree {sys : System} {key : Bytes} (h : sys.Settled key)
    (hkeys : HonestKeys pkey satelliteKeypair groundKeypair)
    (hinv : Inv pkey satelliteKeypair groundKeypair sys) :
    ∃ s, sys.satellite = .running s ∧ s.sessionKey = key := by
  obtain ⟨hrunning, n, hstarted, rfl⟩ := hinv.ground key h.ground
  obtain ⟨s, j, hs, hlast, -, hkey⟩ := hinv.satellite.resolve_left hrunning
  obtain ⟨k, hlast', hk⟩ := h.latest
  obtain rfl : j = n := by
    have hjk : j = k := Option.some_inj.mp (hlast.symm.trans hlast')
    omega
  exact ⟨s, hs, hkey.trans (hkeys.honest j).sessionKey.symm⟩

/-- Once the latest ground instance has completed its handshake, and the last handshake that the
satellite handled is that instance's, both hold one key, and they go on holding it until the ground
station restarts or a handshake of an earlier instance is delivered. -/
theorem key_agreement (hkeys : HonestKeys pkey satelliteKeypair groundKeypair)
    {actions : List Action} {sys : System} {key : Bytes}
    (hrun : run pkey evp satelliteKeypair groundKeypair {} actions = some sys)
    (hsettled : sys.Settled key) :
    (∃ s, sys.satellite = .running s ∧ s.sessionKey = key) ∧
      ∀ later sys', sys.Undisturbed pkey evp satelliteKeypair groundKeypair later →
        sys.run pkey evp satelliteKeypair groundKeypair later = some sys' →
        sys'.ground = .completed key ∧ ∃ s, sys'.satellite = .running s ∧ s.sessionKey = key := by
  have hinv := inv_run hkeys inv_initial hrun
  refine ⟨hsettled.agree hkeys hinv, fun later sys' hlater hrun' ↦ ?_⟩
  have hsettled' := hsettled.run hlater hrun'
  exact ⟨hsettled'.ground, hsettled'.agree hkeys (inv_run hkeys hinv hrun')⟩

theorem honestKeys_product {n : ℕ} {groundKeypair : ℕ → ℕ} (hn : 0 < n ∧ n < 256 ^ 32)
    (hground : ∀ i, 0 < groundKeypair i ∧ groundKeypair i < 256 ^ 32) :
    HonestKeys .product n groundKeypair where
  honest i := honest_product (hground i) hn
  length i := length_sessionKeyWith_product (hground i).1 (hground i).2

theorem delayed_handshake_disagrees :
    let groundKeypair (i : ℕ) := i % 250 + 5
    let actions : List Action := [.restart, .restart, .deliverToSatellite 1 0 0, .deliverToGround 0,
      .deliverToSatellite 0 0 0]
    HonestKeys .product 3 groundKeypair ∧
      (run .product (.ofTable []) 3 groundKeypair {} actions).map
          (fun sys ↦ (sys.started, sys.ground, sys.satellite)) =
        some (2, .completed (BigEndian.bytes 32 18), .running ⟨BigEndian.bytes 32 15, .new 30000⟩) ∧
      BigEndian.bytes 32 15 ≠ BigEndian.bytes 32 18 := by
  intro groundKeypair actions
  refine ⟨honestKeys_product (by decide) fun i ↦ ⟨Nat.succ_pos _, ?_⟩, by decide +kernel,
    by decide +kernel⟩
  simp only [groundKeypair]
  omega

theorem key_agreement_in_order :
    let key := BigEndian.bytes 32 15
    let handshake := (0, BigEndian.bytes 32 5)
    let reply := (0, BigEndian.bytes 32 3)
    let actions : List Action := [.restart, .deliverToSatellite 0 0 0, .deliverToGround 0]
    let sys (replies : List (ℕ × Bytes)) : System :=
      { satellite := .running ⟨key, .new 30000⟩, started := 1, ground := .completed key
        toSatellite := [handshake], toGround := replies, lastHandshake := some 0 }
    run .product (.ofTable []) 3 (· % 250 + 5) {} actions = some (sys [reply]) ∧
      (∃ s, (sys [reply]).satellite = .running s ∧ s.sessionKey = key) ∧
      ∃ s, (sys [reply, reply]).satellite = .running s ∧ s.sessionKey = key := by
  intro key handshake reply actions sys
  have hkeys : HonestKeys .product 3 (· % 250 + 5) :=
    honestKeys_product (by decide) fun i ↦ ⟨Nat.succ_pos _, by omega⟩
  have hrun : run .product (.ofTable []) 3 (· % 250 + 5) {} actions = some (sys [reply]) := by
    decide +kernel
  have hlater : (sys [reply]).run .product (.ofTable []) 3 (· % 250 + 5)
      [.deliverToSatellite 0 0 0] = some (sys [reply, reply]) := by decide +kernel
  have hquiet : (sys [reply]).Undisturbed .product (.ofTable []) 3 (· % 250 + 5)
      [.deliverToSatellite 0 0 0] := by
    refine ⟨fun m hm _ ↦ ?_, fun _ _ ↦ trivial⟩
    obtain rfl : handshake = m := Option.some_inj.mp hm
    rfl
  obtain ⟨hagree, hstable⟩ := key_agreement hkeys hrun ⟨rfl, 0, rfl, rfl⟩
  exact ⟨hrun, hagree, (hstable _ _ hquiet hlater).2⟩

end System

end SpaceSec
