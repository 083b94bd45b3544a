import SpaceSec.Agreement
import SpaceSec.Phase3Satellite
import SpaceSec.Reordering
import Mathlib.Algebra.Order.Group.Abs

namespace SpaceSec

def tamperedPacketCall (timestampMs : UInt64) : CreateCall where
  sessionId := 2026
  timestampMs := timestampMs
  nonce := #v[0, 0, 0, 0, 0, 0, 0, 0, 0, 0, 0, 0x21]
  command := ascii "CMD:OPEN_PAYLOAD_DOOR"

def expiredPacketCall (now : UInt64) : CreateCall where
  sessionId := 2026
  timestampMs := now - 60000
  nonce := #v[0, 0, 0, 0, 0, 0, 0, 0, 0, 0, 0, 0x22]
  command := ascii "CMD:RESET_SYSTEM"

def tamper (packet : Bytes) : Bytes :=
  if packet.isEmpty then packet else packet.modify headerSize (· ^^^ 0x01)

section Main

variable (evp : Evp) (sessionKey : Bytes) (t₁ t₂ t₃ : UInt64)

def validPacket : Bytes := (validPacketCall t₁).datagram evp sessionKey

def tamperedPacket : Bytes := tamper ((tamperedPacketCall t₂).datagram evp sessionKey)

def expiredPacket : Bytes := (expiredPacketCall t₃).datagram evp sessionKey

/-- What the ground station's `main` sends once it has a session key, when its three readings of
the clock are these. -/
def script : List Bytes :=
  [validPacket evp sessionKey t₁, validPacket evp sessionKey t₁, tamperedPacket evp sessionKey t₂,
    expiredPacket evp sessionKey t₃]

/-- The exit code of `main` and all that it sends, on the first datagram that it receives. -/
def groundMain {Key : Type} (pkey : Pkey Key) (groundKeypair : Key) (reply : Bytes) :
    ℕ × List Bytes :=
  let groundPublic := getRawPublicKey pkey groundKeypair
  match groundHandshake pkey groundKeypair reply with
  | none => (1, [groundPublic])
  | some sessionKey => (0, groundPublic :: script evp sessionKey t₁ t₂ t₃)

def scriptCalls : Set CreateCall :=
  {validPacketCall t₁, tamperedPacketCall t₂, expiredPacketCall t₃}

/-- The cipher seals the three commands of the script, and nothing else opens under the key. -/
structure ScriptSealed : Prop where
  sealing : ∀ call ∈ scriptCalls t₁ t₂ t₃, ∃ ciphertext tag,
    Sealing evp sessionKey call ciphertext tag
  opensOnly : OpensOnlySealed evp sessionKey (scriptCalls t₁ t₂ t₃)

end Main

variable {evp : Evp} {sessionKey : Bytes} {t₁ t₂ t₃ : UInt64}

theorem mem_scriptCalls {call : CreateCall} :
    call ∈ scriptCalls t₁ t₂ t₃ ↔
      call = validPacketCall t₁ ∨ call = tamperedPacketCall t₂ ∨ call = expiredPacketCall t₃ :=
  Iff.rfl

/-- A cipher that has sealed the three commands and nothing else. -/
def scriptEvp (sessionKey : Bytes) (t₁ t₂ t₃ : UInt64) : Evp :=
  let tag := Vector.replicate tagSize 9
  .ofTable [(validPacketCall t₁).sealed sessionKey (List.replicate 17 1) tag,
    (tamperedPacketCall t₂).sealed sessionKey (List.replicate 21 2) tag,
    (expiredPacketCall t₃).sealed sessionKey (List.replicate 16 3) tag]

theorem scriptSealed_scriptEvp (sessionKey : Bytes) (t₁ t₂ t₃ : UInt64) :
    ScriptSealed (scriptEvp sessionKey t₁ t₂ t₃) sessionKey t₁ t₂ t₃ := by
  have h₁₂ : (validPacketCall t₁).nonce.toList ≠ (tamperedPacketCall t₂).nonce.toList := by
    simp only [validPacketCall, tamperedPacketCall]
    decide
  have h₁₃ : (validPacketCall t₁).nonce.toList ≠ (expiredPacketCall t₃).nonce.toList := by
    simp only [validPacketCall, expiredPacketCall]
    decide
  have h₂₃ : (tamperedPacketCall t₂).nonce.toList ≠ (expiredPacketCall t₃).nonce.toList := by
    simp only [tamperedPacketCall, expiredPacketCall]
    decide
  refine ⟨?_, ?_⟩
  · intro call hcall
    rcases mem_scriptCalls.mp hcall with rfl | rfl | rfl
    · refine ⟨List.replicate 17 1, Vector.replicate tagSize 9, ?_, rfl, ?_⟩
      · simp [scriptEvp, Evp.ofTable, CreateCall.sealed]
      · simp [scriptEvp, Evp.ofTable, CreateCall.sealed, SecurePacket.aeadOpen, CreateCall.packet,
          CreateCall.aad, buildAad]
    · refine ⟨List.replicate 21 2, Vector.replicate tagSize 9, ?_, rfl, ?_⟩
      · simp [scriptEvp, Evp.ofTable, CreateCall.sealed, h₁₂]
      · simp [scriptEvp, Evp.ofTable, CreateCall.sealed, SecurePacket.aeadOpen, CreateCall.packet,
          CreateCall.aad, buildAad, h₁₂]
    · refine ⟨List.replicate 16 3, Vector.replicate tagSize 9, ?_, rfl, ?_⟩
      · simp [scriptEvp, Evp.ofTable, CreateCall.sealed, h₁₃, h₂₃]
      · simp [scriptEvp, Evp.ofTable, CreateCall.sealed, SecurePacket.aeadOpen, CreateCall.packet,
          CreateCall.aad, buildAad, h₁₃, h₂₃]
  · intro nonce ct aad t plaintext hopen
    simp only [scriptEvp, Evp.ofTable, Evp.aeadOpen_ofAead, Option.map_eq_some_iff] at hopen
    obtain ⟨m, hm, rfl⟩ := hopen
    have hmatch := List.find?_some hm
    simp only [decide_eq_true_eq] at hmatch
    obtain ⟨-, hnonce, rfl, haad, htag⟩ := hmatch
    have hmem := List.mem_of_find?_eq_some hm
    simp only [List.mem_cons, List.not_mem_nil, or_false] at hmem
    rcases hmem with rfl | rfl | rfl
    · refine ⟨_, Or.inl rfl, _, ?_, hnonce, haad, htag, rfl⟩
      simp [scriptEvp, Evp.ofTable, CreateCall.sealed]
    · refine ⟨_, Or.inr (Or.inl rfl), _, ?_, hnonce, haad, htag, rfl⟩
      simp [scriptEvp, Evp.ofTable, CreateCall.sealed, h₁₂]
    · refine ⟨_, Or.inr (Or.inr rfl), _, ?_, hnonce, haad, htag, rfl⟩
      simp [scriptEvp, Evp.ofTable, CreateCall.sealed, h₁₃, h₂₃]

theorem length_command_scriptCalls {call : CreateCall} (h : call ∈ scriptCalls t₁ t₂ t₃) :
    call.command.length ≤ 2008 := by
  rcases mem_scriptCalls.mp h with rfl | rfl | rfl
  · exact (by decide : (ascii "CMD:CAPTURE_IMAGE").length ≤ 2008)
  · exact (by decide : (ascii "CMD:OPEN_PAYLOAD_DOOR").length ≤ 2008)
  · exact (by decide : (ascii "CMD:RESET_SYSTEM").length ≤ 2008)

/-- The calls of the script are told apart by their nonces, and by their commands. -/
theorem scriptCalls_inj {call call' : CreateCall} (h : call ∈ scriptCalls t₁ t₂ t₃)
    (h' : call' ∈ scriptCalls t₁ t₂ t₃)
    (heq : call.nonce = call'.nonce ∨ call.command = call'.command) : call = call' := by
  rcases mem_scriptCalls.mp h with rfl | rfl | rfl <;>
    rcases mem_scriptCalls.mp h' with rfl | rfl | rfl <;>
    first | rfl | exact absurd heq (by
      simp only [validPacketCall, tamperedPacketCall, expiredPacketCall]; decide)

theorem tamper_eq (packet : Bytes) : tamper packet = packet.modify headerSize (· ^^^ 0x01) := by
  cases packet <;> rfl

theorem tamper_tamper (packet : Bytes) : tamper (tamper packet) = packet := by
  have hxor : (fun b : UInt8 ↦ b ^^^ 0x01) ∘ (· ^^^ 0x01) = id := by
    funext b
    rw [Function.comp_apply, UInt8.xor_assoc, UInt8.xor_self, UInt8.xor_zero, id]
  rw [tamper_eq, tamper_eq, List.modify_modify_eq, hxor, List.modify_id]

theorem length_tamper (packet : Bytes) : (tamper packet).length = packet.length := by
  rw [tamper_eq, List.length_modify]

theorem take_tamper (packet : Bytes) {n : ℕ} (h : n ≤ headerSize) :
    (tamper packet).take n = packet.take n := by
  rw [tamper_eq, List.take_modify, List.modify_eq_self ((List.length_take_le n packet).trans h)]

theorem tamper_ne {packet : Bytes} (h : 40 ≤ packet.length) : tamper packet ≠ packet := by
  intro heq
  have hlt : headerSize < packet.length := by
    rw [headerSize_eq]
    omega
  have hbyte := congrArg (·[headerSize]?) heq
  simp only [tamper_eq, List.getElem?_modify_eq, List.getElem?_eq_getElem hlt, Option.map_eq_map,
    Option.map_some, Option.some_inj] at hbyte
  have hbits := congrArg (fun b : UInt8 ↦ packet[headerSize] ^^^ b) hbyte
  simp only [← UInt8.xor_assoc, UInt8.xor_self, UInt8.zero_xor] at hbits
  cases hbits

theorem identity_tamper {packet : Bytes} (h : 40 ≤ packet.length) :
    (slicePacket (tamper packet)).identity = (slicePacket packet).identity := by
  apply (identity_slicePacket_eq_iff h ((length_tamper packet).symm ▸ h)).mpr
  simp only [List.extract_eq_drop_take']
  rw [take_tamper packet (by decide), take_tamper packet (by decide)]
  exact ⟨rfl, rfl⟩

theorem timestampMs_tamper {packet : Bytes} (h : 40 ≤ packet.length) :
    (slicePacket (tamper packet)).timestampMs = (slicePacket packet).timestampMs := by
  apply UInt64.toNat_inj.mp
  rw [timestamp_eq h, timestamp_eq ((length_tamper packet).symm ▸ h), List.extract_eq_drop_take',
    List.extract_eq_drop_take', take_tamper packet (by decide)]

namespace Phase3

theorem decision_expired {rawPacket : Bytes} {replayGuard : AntiReplay} {now : UInt64}
    (h : 40 ≤ rawPacket.length)
    (hexpired : ¬ |(now.toNat : ℤ) - (slicePacket rawPacket).timestampMs.toNat| ≤
      replayGuard.windowMs.toNat) :
    (processSecurePacket evp rawPacket sessionKey replayGuard now).1 = .expired := by
  have hfresh := mt (replayGuard.isFresh_iff (slicePacket rawPacket).timestampMs now).mp hexpired
  simp only [processSecurePacket, deserializePacket_eq, if_pos h, hfresh, Bool.not_false, if_true]

theorem decision_duplicate {rawPacket : Bytes} {replayGuard : AntiReplay} {now : UInt64}
    (h : 40 ≤ rawPacket.length)
    (hfresh : |(now.toNat : ℤ) - (slicePacket rawPacket).timestampMs.toNat| ≤
      replayGuard.windowMs.toNat)
    (hdup : replayGuard.isDuplicate (slicePacket rawPacket).sessionId
      (slicePacket rawPacket).nonce = true) :
    (processSecurePacket evp rawPacket sessionKey replayGuard now).1 = .duplicate := by
  have hfresh := (replayGuard.isFresh_iff (slicePacket rawPacket).timestampMs now).mpr hfresh
  simp only [processSecurePacket, deserializePacket_eq, if_pos h, hfresh, hdup, Bool.not_true,
    Bool.false_eq_true, if_false, if_true]

theorem decision_tagFail {rawPacket : Bytes} {replayGuard : AntiReplay} {now : UInt64}
    (h : 40 ≤ rawPacket.length)
    (hfresh : |(now.toNat : ℤ) - (slicePacket rawPacket).timestampMs.toNat| ≤
      replayGuard.windowMs.toNat)
    (hnew : replayGuard.isDuplicate (slicePacket rawPacket).sessionId
      (slicePacket rawPacket).nonce = false)
    (hopen : (slicePacket rawPacket).aeadOpen evp sessionKey = none) :
    (processSecurePacket evp rawPacket sessionKey replayGuard now).1 = .tagFail := by
  have hfresh := (replayGuard.isFresh_iff (slicePacket rawPacket).timestampMs now).mpr hfresh
  have hd := evp.decrypt_of_not_open hopen []
  simp only [processSecurePacket, deserializePacket_eq, if_pos h, hfresh, hnew, Bool.not_true,
    Bool.false_eq_true, if_false]
  generalize decryptChacha20Poly1305 evp sessionKey _ _ _ _ [] = answer at hd ⊢
  obtain ⟨ok, out⟩ := answer
  obtain rfl : ok = false := hd
  rfl

theorem process_eq_of_reject {rawPacket : Bytes} {replayGuard : AntiReplay} {now : UInt64}
    {decision : Decision}
    (h : (processSecurePacket evp rawPacket sessionKey replayGuard now).1 = decision)
    (hreject : decision.acceptance = none) :
    processSecurePacket evp rawPacket sessionKey replayGuard now = (decision, replayGuard) :=
  Prod.ext h (process_reject (h ▸ hreject))

end Phase3

namespace ScriptSealed

theorem datagram (h : ScriptSealed evp sessionKey t₁ t₂ t₃) {call : CreateCall}
    (hcall : call ∈ scriptCalls t₁ t₂ t₃) :
    ∃ ciphertext tag, Sealing evp sessionKey call ciphertext tag ∧
      call.datagram evp sessionKey = serializePacket (call.packet ciphertext tag) ∧
      (call.datagram evp sessionKey).length = 40 + call.command.length := by
  obtain ⟨ciphertext, tag, hseal⟩ := h.sealing call hcall
  have hdatagram := CreateCall.datagram_of_seal hseal.seals
  refine ⟨ciphertext, tag, hseal, hdatagram, ?_⟩
  rw [hdatagram, length_serializePacket, ← hseal.length]
  rfl

/-- What opens under the key is a packet of the script, as the ground station created it. -/
theorem call_of_opens (h : ScriptSealed evp sessionKey t₁ t₂ t₃) {d : Bytes}
    (hopens : Opens evp sessionKey d) :
    ∃ call ∈ scriptCalls t₁ t₂ t₃, call.datagram evp sessionKey = d ∧
      (slicePacket d).identity = call.identity ∧
      (slicePacket d).timestampMs = call.timestampMs ∧
      (slicePacket d).aeadOpen evp sessionKey = some call.command := by
  obtain ⟨hlen, hopens⟩ := hopens
  obtain ⟨command, hcommand⟩ := Option.isSome_iff_exists.mp hopens
  obtain ⟨call, hcall, rfl, hid, hts, hdatagram⟩ := packet_of_opens h.opensOnly hcommand
  exact ⟨call, hcall, hdatagram.trans (serialize_slicePacket hlen), hid.symm, hts.symm, hcommand⟩

theorem not_opens_tamperedPacket (h : ScriptSealed evp sessionKey t₁ t₂ t₃) :
    ¬ Opens evp sessionKey (tamperedPacket evp sessionKey t₂) := by
  intro hopens
  have hcall : tamperedPacketCall t₂ ∈ scriptCalls t₁ t₂ t₃ := Or.inr (Or.inl rfl)
  obtain ⟨call, hmem, hdatagram, hid, -⟩ := h.call_of_opens hopens
  obtain ⟨ciphertext, tag, -, hpacket, hlen⟩ := h.datagram hcall
  have hmin : 40 ≤ ((tamperedPacketCall t₂).datagram evp sessionKey).length := by omega
  rw [tamperedPacket, identity_tamper hmin, hpacket, slicePacket_serializePacket] at hid
  obtain rfl := scriptCalls_inj hcall hmem (Or.inl (congrArg Prod.snd hid))
  exact tamper_ne hmin hdatagram.symm

end ScriptSealed

namespace Node

variable {Key : Type} {pkey : Pkey Key} {satelliteKeypair : Key}

theorem commands_eq_accepted {arrivals : List Arrival}
    (hpackets : ∀ a ∈ arrivals, a.received.length ≠ 32) :
    ((Node.running ⟨sessionKey, .new 30000⟩).executions pkey evp satelliteKeypair arrivals).map
        Execution.command =
      (OnceFilter.accepted (acceptable evp sessionKey 30000) ∅
        (arrivals.map fun a ↦ (a.received, a.freshClock))).map fun accepted ↦ accepted.2.2 := by
  rw [executions_eq_accepted (AntiReplay.tracks_new 30000) hpackets, List.map_map]
  rfl

end Node

section Network

variable (evp sessionKey t₁ t₂ t₃)

/-- The network loses, copies and reorders what the script sends, and adds what does not open, but
no handshake, not even a copy of the ground station's. -/
def Carries (arrivals : List Arrival) : Prop :=
  ∀ a ∈ arrivals, a.received.length ≠ 32 ∧
    (a.datagram ∈ script evp sessionKey t₁ t₂ t₃ ∨ ¬ Opens evp sessionKey a.received)

/-- The satellite's clock is not so far behind that the last packet of the script is still in time
where it arrives. -/
def ArrivesExpired (arrivals : List Arrival) : Prop :=
  60000 ≤ t₃.toNat ∧ ∀ a ∈ arrivals, a.datagram = expiredPacket evp sessionKey t₃ →
    t₃.toNat < a.freshClock.toNat + 30000

def InTime (a : Arrival) : Prop :=
  a.datagram = validPacket evp sessionKey t₁ ∧ |(a.freshClock.toNat : ℤ) - t₁.toNat| ≤ 30000

instance (a : Arrival) : Decidable (InTime evp sessionKey t₁ a) :=
  inferInstanceAs (Decidable (_ ∧ _))

end Network

section Take

variable {arrivals : List Arrival}

theorem Carries.take (h : Carries evp sessionKey t₁ t₂ t₃ arrivals) (n : ℕ) :
    Carries evp sessionKey t₁ t₂ t₃ (arrivals.take n) :=
  fun a ha ↦ h a (List.mem_of_mem_take ha)

theorem ArrivesExpired.take (h : ArrivesExpired evp sessionKey t₃ arrivals) (n : ℕ) :
    ArrivesExpired evp sessionKey t₃ (arrivals.take n) :=
  ⟨h.1, fun a ha ↦ h.2 a (List.mem_of_mem_take ha)⟩

theorem ArrivesExpired.not_fresh (h : ArrivesExpired evp sessionKey t₃ arrivals) {a : Arrival}
    (ha : a ∈ arrivals) (hlast : a.datagram = expiredPacket evp sessionKey t₃) :
    ¬ |(a.freshClock.toNat : ℤ) - (expiredPacketCall t₃).timestampMs.toNat| ≤
      (30000 : UInt64).toNat := by
  intro hfresh
  have hts : (expiredPacketCall t₃).timestampMs.toNat = t₃.toNat - 60000 :=
    UInt64.toNat_sub_of_le _ _ (UInt64.le_iff_toNat_le.mpr h.1)
  have hlate := h.2 a ha hlast
  have hwindow := abs_le.mp hfresh
  rw [hts, show ((30000 : UInt64).toNat : ℤ) = 30000 from rfl] at hwindow
  have hclock := h.1
  omega

end Take

theorem datagram_of_received {a : Arrival} (h : a.received.length < 2048) :
    a.datagram = a.received := by
  rw [Arrival.received, recvfrom, List.length_take] at h
  exact (recvfrom_of_length_le (by omega)).symm

namespace ScriptSealed

variable {arrivals : List Arrival} {a : Arrival}

theorem length_of_mem_script (h : ScriptSealed evp sessionKey t₁ t₂ t₃) {d : Bytes}
    (hd : d ∈ script evp sessionKey t₁ t₂ t₃) : 40 ≤ d.length ∧ d.length ≤ 2048 := by
  have hcall {call : CreateCall} (hcall : call ∈ scriptCalls t₁ t₂ t₃) :
      40 ≤ (call.datagram evp sessionKey).length ∧
        (call.datagram evp sessionKey).length ≤ 2048 := by
    obtain ⟨-, -, -, -, hlen⟩ := h.datagram hcall
    have hcommand := length_command_scriptCalls hcall
    omega
  simp only [script, List.mem_cons, List.not_mem_nil, or_false, or_self_left] at hd
  rcases hd with rfl | rfl | rfl
  · exact hcall (Or.inl rfl)
  · rw [tamperedPacket, length_tamper]
    exact hcall (Or.inr (Or.inl rfl))
  · exact hcall (Or.inr (Or.inr rfl))

theorem received_of_mem_script (h : ScriptSealed evp sessionKey t₁ t₂ t₃)
    (ha : a.datagram ∈ script evp sessionKey t₁ t₂ t₃) : a.received = a.datagram :=
  recvfrom_of_length_le (h.length_of_mem_script ha).2

theorem datagram_inj (h : ScriptSealed evp sessionKey t₁ t₂ t₃) {call call' : CreateCall}
    (hcall : call ∈ scriptCalls t₁ t₂ t₃) (hcall' : call' ∈ scriptCalls t₁ t₂ t₃)
    (heq : call.datagram evp sessionKey = call'.datagram evp sessionKey) : call = call' := by
  obtain ⟨ciphertext, tag, -, hpacket, -⟩ := h.datagram hcall
  obtain ⟨ciphertext', tag', -, hpacket', -⟩ := h.datagram hcall'
  have hslice := congrArg slicePacket heq
  rw [hpacket, hpacket', slicePacket_serializePacket, slicePacket_serializePacket] at hslice
  exact scriptCalls_inj hcall hcall' (Or.inl (congrArg SecurePacket.nonce hslice))

theorem inTime_of_acceptable (h : ScriptSealed evp sessionKey t₁ t₂ t₃)
    (hcarries : Carries evp sessionKey t₁ t₂ t₃ arrivals)
    (hexpired : ArrivesExpired evp sessionKey t₃ arrivals) (ha : a ∈ arrivals)
    {k : Identity} {packet : SecurePacket} {command : Bytes}
    (haccepted : acceptable evp sessionKey 30000 (a.received, a.freshClock) =
      some (k, packet, command)) :
    InTime evp sessionKey t₁ a := by
  obtain ⟨hopens, -⟩ := opens_of_acceptable haccepted
  obtain ⟨-, rfl, -, hfresh, -⟩ := acceptable_eq_some.mp haccepted
  have hscript := (hcarries a ha).2.resolve_right (not_not.mpr hopens)
  obtain ⟨call, hcall, hdatagram, -, hts, -⟩ := h.call_of_opens hopens
  rw [h.received_of_mem_script hscript] at hopens hdatagram
  rw [hts] at hfresh
  simp only [script, List.mem_cons, List.not_mem_nil, or_false, or_self_left] at hscript
  rcases hscript with hvalid | htampered | hlast
  · obtain rfl := h.datagram_inj hcall (Or.inl rfl) (hdatagram.trans hvalid)
    exact ⟨hvalid, hfresh⟩
  · exact absurd (htampered ▸ hopens) h.not_opens_tamperedPacket
  · obtain rfl := h.datagram_inj hcall (Or.inr (Or.inr rfl)) (hdatagram.trans hlast)
    exact absurd hfresh (hexpired.not_fresh ha hlast)

theorem acceptable_iff (h : ScriptSealed evp sessionKey t₁ t₂ t₃)
    (hcarries : Carries evp sessionKey t₁ t₂ t₃ arrivals)
    (hexpired : ArrivesExpired evp sessionKey t₃ arrivals) :
    ∃ r : Identity × SecurePacket × Bytes, r.2.2 = ascii "CMD:CAPTURE_IMAGE" ∧
      ∀ a ∈ arrivals, ∀ b, acceptable evp sessionKey 30000 (a.received, a.freshClock) = some b ↔
        b = r ∧ InTime evp sessionKey t₁ a := by
  have hcall : validPacketCall t₁ ∈ scriptCalls t₁ t₂ t₃ := Or.inl rfl
  obtain ⟨ciphertext, tag, hseal, hpacket, -⟩ := h.datagram hcall
  refine ⟨((validPacketCall t₁).identity, (validPacketCall t₁).packet ciphertext tag,
    (validPacketCall t₁).command), rfl, ?_⟩
  intro a ha b
  have hreceived (hintime : InTime evp sessionKey t₁ a) :
      a.received = serializePacket ((validPacketCall t₁).packet ciphertext tag) := by
    have hscript : a.datagram ∈ script evp sessionKey t₁ t₂ t₃ := by
      rw [hintime.1]
      exact List.mem_cons_self
    rw [← hpacket, h.received_of_mem_script hscript]
    exact hintime.1
  obtain ⟨k, packet, command⟩ := b
  refine ⟨?_, ?_⟩
  · intro haccepted
    have hintime := inTime_of_acceptable h hcarries hexpired ha haccepted
    obtain ⟨rfl, rfl, -, -, hopen⟩ := acceptable_eq_some.mp haccepted
    rw [hreceived hintime, slicePacket_serializePacket] at hopen ⊢
    obtain rfl := Option.some_inj.mp (hseal.opens.symm.trans hopen)
    exact ⟨rfl, hintime⟩
  · rintro ⟨heq, hintime⟩
    obtain ⟨rfl, rfl, rfl⟩ : k = _ ∧ packet = _ ∧ command = _ := by simpa using heq
    rw [acceptable_eq_some, hreceived hintime, slicePacket_serializePacket, length_serializePacket]
    exact ⟨rfl, rfl, by omega, hintime.2, hseal.opens⟩

theorem commands_of_packets {Key : Type} (pkey : Pkey Key) (satelliteKeypair : Key)
    (h : ScriptSealed evp sessionKey t₁ t₂ t₃)
    (hcarries : Carries evp sessionKey t₁ t₂ t₃ arrivals)
    (hexpired : ArrivesExpired evp sessionKey t₃ arrivals) :
    ((Node.running ⟨sessionKey, .new 30000⟩).executions pkey evp satelliteKeypair arrivals).map
        Execution.command =
      if ∃ a ∈ arrivals, InTime evp sessionKey t₁ a then [ascii "CMD:CAPTURE_IMAGE"] else [] := by
  obtain ⟨r, hcommand, hacceptable⟩ := h.acceptable_iff hcarries hexpired
  rw [Node.commands_eq_accepted fun a ha ↦ (hcarries a ha).1]
  have hsingle : ∀ x ∈ arrivals.map fun a ↦ (a.received, a.freshClock), ∀ b,
      acceptable evp sessionKey 30000 x = some b → b = r := by
    intro x hx b hb
    obtain ⟨a, ha, rfl⟩ := List.mem_map.mp hx
    exact ((hacceptable a ha b).mp hb).1
  have hexists : (∃ x ∈ arrivals.map fun a ↦ (a.received, a.freshClock),
      acceptable evp sessionKey 30000 x = some r) ↔ ∃ a ∈ arrivals, InTime evp sessionKey t₁ a := by
    simp only [List.mem_map, exists_exists_and_eq_and]
    refine exists_congr fun a ↦ and_congr_right fun ha ↦ ?_
    rw [hacceptable a ha r, and_iff_right rfl]
  rw [OnceFilter.accepted_of_single _ hsingle]
  simp only [hexists]
  split_ifs
  · exact congrArg (fun command ↦ [command]) hcommand
  · rfl

/-- However the network loses, copies and reorders what the ground station's program sends after its
handshake, and whatever it adds that neither opens nor is a handshake, the satellite executes the
picture command, once, and nothing else, if its clock is not behind. It does so as soon as one copy
of it is in time, in the first program among its four turns. -/
theorem script_over_unreliable_network {Key : Type} (pkey : Pkey Key) (satelliteKeypair : Key)
    (h : ScriptSealed evp sessionKey t₁ t₂ t₃) {handshake : Arrival}
    (hstart : ¬ Node.StartUpFails pkey satelliteKeypair handshake)
    (hkey : sessionKeyWith pkey satelliteKeypair handshake.received = sessionKey)
    (hcarries : Carries evp sessionKey t₁ t₂ t₃ arrivals)
    (hexpired : ArrivesExpired evp sessionKey t₃ arrivals) :
    (∀ node : Node, (∀ code, node ≠ .exited code) →
      ((node.step pkey evp satelliteKeypair handshake).1.executions pkey evp satelliteKeypair
          arrivals).map Execution.command =
        if ∃ a ∈ arrivals, InTime evp sessionKey t₁ a then [ascii "CMD:CAPTURE_IMAGE"] else []) ∧
    (Phase3.Satellite.executions pkey evp satelliteKeypair .listening
        (handshake :: arrivals)).map Execution.command =
      if ∃ a ∈ arrivals.take 4, InTime evp sessionKey t₁ a then [ascii "CMD:CAPTURE_IMAGE"]
      else [] := by
  refine ⟨?_, ?_⟩
  · intro node hnode
    rw [Node.step_handshake evp hnode hstart, hkey]
    exact commands_of_packets pkey satelliteKeypair h hcarries hexpired
  · rw [← commands_of_packets pkey satelliteKeypair h (hcarries.take 4) (hexpired.take 4),
      Phase3.Satellite.executions_listening, Phase3.Satellite.start_eq hstart, hkey,
      Phase3.Satellite.executions_loop (i := 0) _ (by simp) fun a ha ↦ (hcarries.take 4 a ha).1,
      Phase3.Satellite.executions_running (by decide),
      Phase3.Satellite.executions_running (by decide), List.take_take]
    rfl

theorem script_reordered :
    let key : Bytes := BigEndian.bytes 32 15
    let evp := scriptEvp key 100000 100600 100900
    let handshake : Arrival := ⟨BigEndian.bytes 32 5, 100000, 100000⟩
    let arrive (now : UInt64) (d : Bytes) : Arrival := ⟨d, now, now⟩
    let arrivals := [arrive 100950 (expiredPacket evp key 100900),
      arrive 100960 (List.replicate 50 7), arrive 100970 (tamperedPacket evp key 100600),
      arrive 100980 (validPacket evp key 100000), arrive 100990 (validPacket evp key 100000)]
    ((Node.listening.step .product evp 3 handshake).1.executions .product evp 3 arrivals).map
        Execution.command = [ascii "CMD:CAPTURE_IMAGE"] ∧
      (Phase3.Satellite.executions .product evp 3 .listening (handshake :: arrivals)).map
        Execution.command = [ascii "CMD:CAPTURE_IMAGE"] := by
  intro key evp handshake arrive arrivals
  have hcarries : Carries evp key 100000 100600 100900 arrivals := by
    unfold Carries
    decide +kernel
  have hexpired : ArrivesExpired evp key 100900 arrivals := by
    unfold ArrivesExpired
    decide +kernel
  have hstart : ¬ Node.StartUpFails .product 3 handshake := by decide +kernel
  obtain ⟨hnode, hphase3⟩ := script_over_unreliable_network .product 3
    (scriptSealed_scriptEvp key 100000 100600 100900) hstart (by decide +kernel) hcarries hexpired
  refine ⟨(hnode .listening fun _ ↦ Node.noConfusion).trans ?_, hphase3.trans ?_⟩
  · exact if_pos (by decide +kernel)
  · exact if_pos (by decide +kernel)

theorem accepted_under_attack (h : ScriptSealed evp sessionKey t₁ t₂ t₃)
    (hexpired : ArrivesExpired evp sessionKey t₃ arrivals) {a : Arrival} (ha : a ∈ arrivals)
    {k : Identity} {packet : SecurePacket} {command : Bytes}
    (haccepted : acceptable evp sessionKey 30000 (a.received, a.freshClock) =
      some (k, packet, command)) :
    ∃ call ∈ scriptCalls t₁ t₂ t₃, k = call.identity ∧ command = call.command ∧
      call ≠ expiredPacketCall t₃ := by
  obtain ⟨hopens, hk⟩ := opens_of_acceptable haccepted
  obtain ⟨-, rfl, -, hfresh, hopen⟩ := acceptable_eq_some.mp haccepted
  obtain ⟨call, hcall, hdatagram, hid, hts, hcommand⟩ := h.call_of_opens hopens
  refine ⟨call, hcall, hk.symm.trans hid, Option.some_inj.mp (hopen.symm.trans hcommand), ?_⟩
  rintro rfl
  obtain ⟨-, -, -, -, hlen⟩ := h.datagram hcall
  have hshort : a.received.length < 2048 := by
    rw [← hdatagram, hlen]
    exact (by decide : 40 + (ascii "CMD:RESET_SYSTEM").length < 2048)
  exact hexpired.not_fresh ha ((datagram_of_received hshort).trans hdatagram.symm) (hts ▸ hfresh)

/-- What the script comes to under an intruder without the key, who may send anything but a
handshake: no command is executed twice, and, if the satellite's clock is not behind, never the last
one. But the middle one is safe from him only as long as he does not flip the bit back. -/
theorem script_under_attack {Key : Type} (pkey : Pkey Key) (satelliteKeypair : Key)
    (h : ScriptSealed evp sessionKey t₁ t₂ t₃) :
    (∀ arrivals : List Arrival, (∀ a ∈ arrivals, a.received.length ≠ 32) →
      ArrivesExpired evp sessionKey t₃ arrivals →
      let commands := ((Node.running ⟨sessionKey, .new 30000⟩).executions pkey evp satelliteKeypair
        arrivals).map Execution.command
      commands.Nodup ∧ ∀ command ∈ commands,
        command = ascii "CMD:CAPTURE_IMAGE" ∨ command = ascii "CMD:OPEN_PAYLOAD_DOOR") ∧
    ∀ latencyClock freshClock : UInt64, |(freshClock.toNat : ℤ) - t₂.toNat| ≤ 30000 →
      ((Node.running ⟨sessionKey, .new 30000⟩).execution pkey evp satelliteKeypair
          ⟨tamper (tamperedPacket evp sessionKey t₂), latencyClock, freshClock⟩).map
        Execution.command = some (ascii "CMD:OPEN_PAYLOAD_DOOR") := by
  refine ⟨?_, ?_⟩
  · intro arrivals hpackets hexpired commands
    have horigin : ∀ accepted ∈ OnceFilter.accepted (acceptable evp sessionKey 30000) ∅
        (arrivals.map fun a ↦ (a.received, a.freshClock)), ∃ call ∈ scriptCalls t₁ t₂ t₃,
          accepted.1 = call.identity ∧ accepted.2.2 = call.command ∧
            call ≠ expiredPacketCall t₃ := by
      rintro ⟨k, packet, command⟩ haccepted
      obtain ⟨x, hx, hcheck⟩ := OnceFilter.check_of_mem_accepted _ haccepted
      obtain ⟨a, ha, rfl⟩ := List.mem_map.mp hx
      exact h.accepted_under_attack hexpired ha hcheck
    rw [show commands = _ from Node.commands_eq_accepted hpackets]
    refine ⟨?_, ?_⟩
    · have hnodup := OnceFilter.nodup_accepted (acceptable evp sessionKey 30000) ∅
        (arrivals.map fun a ↦ (a.received, a.freshClock))
      rw [List.Nodup, List.pairwise_map] at hnodup ⊢
      refine hnodup.imp_of_mem fun hx hy hne heq ↦ hne ?_
      obtain ⟨call, hcall, hk, hcommand, -⟩ := horigin _ hx
      obtain ⟨call', hcall', hk', hcommand', -⟩ := horigin _ hy
      rw [hk, hk', scriptCalls_inj hcall hcall' (Or.inr (by rw [← hcommand, ← hcommand', heq]))]
    · intro command hcommand
      obtain ⟨accepted, haccepted, rfl⟩ := List.mem_map.mp hcommand
      obtain ⟨call, hcall, -, hcommand, hlast⟩ := horigin _ haccepted
      rw [hcommand]
      rcases mem_scriptCalls.mp hcall with rfl | rfl | rfl
      · exact Or.inl rfl
      · exact Or.inr rfl
      · exact absurd rfl hlast
  · intro latencyClock freshClock hfresh
    have hcall : tamperedPacketCall t₂ ∈ scriptCalls t₁ t₂ t₃ := Or.inr (Or.inl rfl)
    obtain ⟨ciphertext, tag, hseal, -⟩ := h.datagram hcall
    rw [tamperedPacket, tamper_tamper, Node.execution_of_call (s := ⟨sessionKey, .new 30000⟩) pkey
      satelliteKeypair hseal (length_command_scriptCalls hcall) (AntiReplay.isDuplicate_new _ _ _)
      latencyClock hfresh]
    rfl

theorem script_repaired :
    let key : Bytes := BigEndian.bytes 32 15
    let evp := scriptEvp key 100000 100600 100900
    let s : Session := ⟨key, .new 30000⟩
    let repaired := tamper (tamperedPacket evp key 100600)
    let arrivals : List Arrival := [⟨validPacket evp key 100000, 100100, 100100⟩,
      ⟨repaired, 100700, 100700⟩, ⟨repaired, 100800, 100800⟩]
    (((Node.running s).executions .product evp 3 arrivals).map Execution.command).Nodup ∧
      ((Node.running s).execution .product evp 3 ⟨repaired, 100700, 100700⟩).map
        Execution.command = some (ascii "CMD:OPEN_PAYLOAD_DOOR") := by
  intro key evp s repaired arrivals
  have hexpired : ArrivesExpired evp key 100900 arrivals := by
    unfold ArrivesExpired
    decide +kernel
  obtain ⟨hsafe, hopens⟩ := script_under_attack .product 3
    (scriptSealed_scriptEvp key 100000 100600 100900)
  exact ⟨(hsafe arrivals (by decide +kernel) hexpired).1,
    hopens 100700 100700 (by decide +kernel)⟩

open Phase3 (processSecurePacket) in
/-- The four packets of the script, in their order, run through the receiver. -/
theorem decisions_of_script (h : ScriptSealed evp sessionKey t₁ t₂ t₃) {c₁ c₂ c₃ c₄ : UInt64}
    (h₁ : |(c₁.toNat : ℤ) - t₁.toNat| ≤ 30000) (h₂ : |(c₂.toNat : ℤ) - t₁.toNat| ≤ 30000)
    (h₃ : |(c₃.toNat : ℤ) - t₂.toNat| ≤ 30000)
    (h₄ : ¬ |(c₄.toNat : ℤ) - (expiredPacketCall t₃).timestampMs.toNat| ≤ 30000) :
    ∃ packet : SecurePacket,
      let fresh := AntiReplay.new 30000
      let marked := fresh.markSeen packet.sessionId packet.nonce
      processSecurePacket evp (validPacket evp sessionKey t₁) sessionKey fresh c₁ =
          (.accepted packet (ascii "CMD:CAPTURE_IMAGE"), marked) ∧
        processSecurePacket evp (validPacket evp sessionKey t₁) sessionKey marked c₂ =
          (.duplicate, marked) ∧
        processSecurePacket evp (tamperedPacket evp sessionKey t₂) sessionKey marked c₃ =
          (.tagFail, marked) ∧
        processSecurePacket evp (expiredPacket evp sessionKey t₃) sessionKey marked c₄ =
          (.expired, marked) := by
  have hcall : tamperedPacketCall t₂ ∈ scriptCalls t₁ t₂ t₃ := Or.inr (Or.inl rfl)
  obtain ⟨ciphertext, tag, hseal, hvalid, hlen⟩ := h.datagram (Or.inl rfl)
  obtain ⟨_, _, -, htampered, hlen'⟩ := h.datagram hcall
  obtain ⟨_, _, -, hexpired, hlen''⟩ := h.datagram (Or.inr (Or.inr rfl))
  let packet := (validPacketCall t₁).packet ciphertext tag
  let marked := (AntiReplay.new 30000).markSeen packet.sessionId packet.nonce
  have hwindow : (marked.windowMs.toNat : ℤ) = 30000 := rfl
  have hmarked (s : UInt32) (n : Nonce) :
      marked.isDuplicate s n = true ↔ s = packet.sessionId ∧ n = packet.nonce := by
    rw [AntiReplay.isDuplicate_markSeen, AntiReplay.isDuplicate_new, or_iff_left Bool.false_ne_true]
  have hslice : slicePacket (validPacket evp sessionKey t₁) = packet := by
    rw [validPacket, hvalid, slicePacket_serializePacket]
  have hmin : 40 ≤ (validPacket evp sessionKey t₁).length := hlen ▸ Nat.le_add_right _ _
  refine ⟨packet, ?_, ?_, ?_, ?_⟩
  · have hdecision : (processSecurePacket evp (validPacket evp sessionKey t₁) sessionKey
        (.new 30000) c₁).1 = .accepted packet (ascii "CMD:CAPTURE_IMAGE") :=
      Phase3.process_accepted_iff.mpr
        ⟨hslice.symm, hmin, h₁, AntiReplay.isDuplicate_new _ _ _, hseal.opens⟩
    exact Prod.ext hdecision (Phase3.process_accept hdecision)
  · refine Phase3.process_eq_of_reject (Phase3.decision_duplicate hmin ?_ ?_) rfl
    · rw [hslice, hwindow]
      exact h₂
    · rw [hslice]
      exact (hmarked _ _).mpr ⟨rfl, rfl⟩
  · have hmin' : 40 ≤ ((tamperedPacketCall t₂).datagram evp sessionKey).length :=
      hlen' ▸ Nat.le_add_right _ _
    have hmin'' : 40 ≤ (tamperedPacket evp sessionKey t₂).length := (length_tamper _).symm ▸ hmin'
    have hts : (slicePacket (tamperedPacket evp sessionKey t₂)).timestampMs = t₂ := by
      rw [tamperedPacket, timestampMs_tamper hmin', htampered, slicePacket_serializePacket]
      rfl
    have hid : (slicePacket (tamperedPacket evp sessionKey t₂)).identity =
        (tamperedPacketCall t₂).identity := by
      rw [tamperedPacket, identity_tamper hmin', htampered, slicePacket_serializePacket]
      rfl
    have hopen : (slicePacket (tamperedPacket evp sessionKey t₂)).aeadOpen evp sessionKey = none :=
      Option.not_isSome_iff_eq_none.mp fun hopens ↦ h.not_opens_tamperedPacket ⟨hmin'', hopens⟩
    refine Phase3.process_eq_of_reject (Phase3.decision_tagFail hmin'' ?_ ?_ hopen) rfl
    · rw [hts, hwindow]
      exact h₃
    · refine Bool.eq_false_iff.mpr fun hdup ↦ ?_
      have hnonce : (tamperedPacketCall t₂).nonce = (validPacketCall t₁).nonce :=
        (congrArg Prod.snd hid).symm.trans ((hmarked _ _).mp hdup).2
      exact absurd hnonce (by simp only [tamperedPacketCall, validPacketCall]; decide)
  · refine Phase3.process_eq_of_reject (Phase3.decision_expired (hlen'' ▸ Nat.le_add_right _ _) ?_)
      rfl
    rw [expiredPacket, hexpired, slicePacket_serializePacket, hwindow]
    exact h₄

theorem turn_eq (h : ScriptSealed evp sessionKey t₁ t₂ t₃)
    (ha : a.datagram ∈ script evp sessionKey t₁ t₂ t₃) {replayGuard next : AntiReplay}
    {decision : Decision}
    (hp : Phase3.processSecurePacket evp a.datagram sessionKey replayGuard a.freshClock =
      (decision, next)) :
    Phase3.Satellite.turn evp ⟨sessionKey, replayGuard⟩ a =
      (⟨sessionKey, next⟩, { decision := some decision }) := by
  have hlen := (h.length_of_mem_script ha).1
  rw [Phase3.Satellite.turn, h.received_of_mem_script ha, if_neg (by omega), hp]

/-- The two programs of the demonstration together. When each datagram arrives once, in order and
at the time that its part in the script asks for, the ground station ends well and either satellite
accepts the first packet, and rejects the others for the three reasons that the script is there to
show. -/
theorem demonstration {Key : Type} {pkey : Pkey Key} {groundKeypair satelliteKeypair : Key}
    (hhonest : Honest pkey groundKeypair satelliteKeypair)
    (hkey : sessionKeyWith pkey satelliteKeypair (getRawPublicKey pkey groundKeypair) = sessionKey)
    (hlen : sessionKey.length = 32) (h : ScriptSealed evp sessionKey t₁ t₂ t₃)
    {a₀ a₁ a₂ a₃ a₄ : Arrival}
    (h₁ : |(a₁.freshClock.toNat : ℤ) - t₁.toNat| ≤ 30000)
    (h₂ : |(a₂.freshClock.toNat : ℤ) - t₁.toNat| ≤ 30000)
    (h₃ : |(a₃.freshClock.toNat : ℤ) - t₂.toNat| ≤ 30000)
    (h₄ : ¬ |(a₄.freshClock.toNat : ℤ) - (expiredPacketCall t₃).timestampMs.toNat| ≤ 30000) :
    let ground := groundMain evp t₁ t₂ t₃ pkey groundKeypair (getRawPublicKey pkey satelliteKeypair)
    let arrivals := [a₀, a₁, a₂, a₃, a₄]
    ground.2 = arrivals.map Arrival.datagram →
    ground.1 = 0 ∧
      Phase3.Satellite.after pkey evp satelliteKeypair .listening arrivals = .exited 0 ∧
      ∃ packet, (Phase3.Satellite.outputs pkey evp satelliteKeypair .listening arrivals).map
          Output.decision = [none, some (.accepted packet (ascii "CMD:CAPTURE_IMAGE")),
            some .duplicate, some .tagFail, some .expired] ∧
        (Node.outputs pkey evp satelliteKeypair .listening arrivals).map
          (fun output ↦ (output.decision, output.sent)) =
            [(none, [getRawPublicKey pkey satelliteKeypair]),
              (some (.accepted packet (ascii "CMD:CAPTURE_IMAGE")), [ascii "ACK"]),
              (some .duplicate, []), (some .tagFail, []), (some .expired, [])] := by
  intro ground arrivals hsent
  subst hkey
  have hground : ground = (0, getRawPublicKey pkey groundKeypair ::
      script evp (sessionKeyWith pkey satelliteKeypair (getRawPublicKey pkey groundKeypair))
        t₁ t₂ t₃) := by
    simp only [ground, groundMain, groundHandshake_of_honest hhonest hlen]
  set sessionKey := sessionKeyWith pkey satelliteKeypair (getRawPublicKey pkey groundKeypair)
  rw [hground] at hsent ⊢
  obtain ⟨hd₀, hscript⟩ := List.cons_eq_cons.mp hsent
  obtain ⟨packet, hp₁, hp₂, hp₃, hp₄⟩ := h.decisions_of_script h₁ h₂ h₃ h₄
  have hreceived₀ : a₀.received = getRawPublicKey pkey groundKeypair := by
    rw [Arrival.received, ← hd₀, recvfrom_of_length_le (by rw [hhonest.groundPublic]; decide)]
  have hstart : ¬ Node.StartUpFails pkey satelliteKeypair a₀ := by
    rw [Node.StartUpFails, hreceived₀]
    exact not_or.mpr ⟨not_not.mpr hhonest.groundPublic, not_not.mpr hlen⟩
  have hmem : ∀ a ∈ [a₁, a₂, a₃, a₄], a.datagram ∈ script evp sessionKey t₁ t₂ t₃ :=
    fun a ha ↦ hscript ▸ List.mem_map_of_mem ha
  simp only [script, List.map_cons, List.map_nil, List.cons.injEq, and_true] at hscript
  obtain ⟨hd₁, hd₂, hd₃, hd₄⟩ := hscript
  have hturn₁ := h.turn_eq (hmem a₁ (by simp)) (hd₁ ▸ hp₁)
  have hturn₂ := h.turn_eq (hmem a₂ (by simp)) (hd₂ ▸ hp₂)
  have hturn₃ := h.turn_eq (hmem a₃ (by simp)) (hd₃ ▸ hp₃)
  have hturn₄ := h.turn_eq (hmem a₄ (by simp)) (hd₄ ▸ hp₄)
  have hstarted := Phase3.Satellite.start_eq hstart
  rw [hreceived₀] at hstarted
  have hrun : (Phase3.Satellite.running ⟨sessionKey, .new 30000⟩ 0).outputs pkey evp
      satelliteKeypair [a₁, a₂, a₃, a₄] =
        [{ decision := some (.accepted packet (ascii "CMD:CAPTURE_IMAGE")) },
          { decision := some .duplicate }, { decision := some .tagFail },
          { decision := some .expired }] := by
    simp [Phase3.Satellite.outputs, Phase3.Satellite.step_running, hturn₁, hturn₂, hturn₃, hturn₄]
  have hpackets : ∀ a ∈ [a₁, a₂, a₃, a₄], a.received.length ≠ 32 := by
    intro a ha
    have hmin := (h.length_of_mem_script (hmem a ha)).1
    rw [h.received_of_mem_script (hmem a ha)]
    omega
  have hlater := (Phase3.Satellite.outputs_running (i := 0) pkey evp satelliteKeypair
    ⟨sessionKey, .new 30000⟩ (by simp)).mpr hpackets
  refine ⟨rfl, ?_, packet, ?_, ?_⟩
  · obtain ⟨s, hs⟩ := Phase3.Satellite.after_running pkey evp satelliteKeypair
      (show 0 < 4 by decide) ⟨sessionKey, .new 30000⟩ [a₁, a₂, a₃, a₄]
    rw [Phase3.Satellite.after_listening, hstarted, hs]
    rfl
  · rw [Phase3.Satellite.outputs, Phase3.Satellite.step, hstarted, hrun]
    rfl
  · rw [Node.outputs, Node.step, Node.start_eq hstart, hreceived₀, List.map_cons, hlater, hrun]
    rfl

theorem demonstration_runs :
    let key : Bytes := BigEndian.bytes 32 15
    let evp := scriptEvp key 100000 100600 100900
    let arrive (now : UInt64) (d : Bytes) : Arrival := ⟨d, now, now⟩
    let arrivals := [arrive 99900 (BigEndian.bytes 32 5),
      arrive 100010 (validPacket evp key 100000), arrive 100310 (validPacket evp key 100000),
      arrive 100610 (tamperedPacket evp key 100600), arrive 100910 (expiredPacket evp key 100900)]
    Phase3.Satellite.after .product evp 3 .listening arrivals = .exited 0 := by
  intro key evp arrive arrivals
  have hsent : (groundMain evp 100000 100600 100900 .product 5 (getRawPublicKey .product 3)).2 =
      arrivals.map Arrival.datagram := by decide +kernel
  have hhonest : Honest .product 5 3 := honest_product (by decide) (by decide)
  have hkey : sessionKeyWith .product 3 (getRawPublicKey .product 5) = key := by decide +kernel
  obtain ⟨-, hafter, -⟩ := demonstration hhonest hkey (by decide +kernel)
    (scriptSealed_scriptEvp key 100000 100600 100900) (by decide +kernel) (by decide +kernel)
    (by decide +kernel) (by decide +kernel) hsent
  exact hafter

end ScriptSealed

end SpaceSec
