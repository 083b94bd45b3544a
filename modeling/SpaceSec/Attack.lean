import SpaceSec.Exposure
import SpaceSec.KeyAgreement
import SpaceSec.Reordering
import Mathlib.Data.Finset.Basic

namespace SpaceSec

/-- Opening undoes sealing. -/
def Evp.Correct (evp : Evp) : Prop :=
  ∀ key nonce plaintext aad ciphertext tag,
    evp.aeadSeal key nonce plaintext aad = some (ciphertext, tag) →
      evp.aeadOpen key nonce ciphertext aad tag.toList = some plaintext

/-- A step of the parties or of the network, or a datagram that an intruder puts on the wire. -/
inductive Move
  | act (action : Action)
  | injectToSatellite (n : ℕ) (datagram : Bytes)
  | injectToGround (n : ℕ) (datagram : Bytes)

/-- The move creates a packet and sends it as it is. -/
def Move.creates : Move → Bool
  | .act (.send _ false) => true
  | _ => false

/-- A system under attack, and what happened in it: the packets that the ground stations created,
each with its key, and the datagrams that the satellite handled, each with the number of packets
created before. No step reads these two. -/
structure Attacked where
  sys : System := {}
  created : List (Bytes × CreateCall) := []
  handled : List (Arrival × ℕ) := []

namespace Attacked

def created? (sys : System) : Action → Option (Bytes × CreateCall)
  | .send call _ =>
    match sys.ground with
    | .completed sessionKey => some (sessionKey, call)
    | _ => none
  | _ => none

def arrival? (sys : System) : Action → Option Arrival
  | .deliverToSatellite i latencyClock freshClock =>
    sys.toSatellite[i]?.map fun m ↦ ⟨m.2, latencyClock, freshClock⟩
  | _ => none

def acted (w : Attacked) (action : Action) (sys : System) : Attacked where
  sys := sys
  created := w.created ++ (created? w.sys action).toList
  handled := w.handled ++ (arrival? w.sys action).toList.map (·, w.created.length)

variable {Key : Type} (pkey : Pkey Key) (evp : Evp) (satelliteKeypair : Key)
  (groundKeypair : ℕ → Key)

def step (w : Attacked) : Move → Option Attacked
  | .act action =>
    (w.sys.step pkey evp satelliteKeypair groundKeypair action).map (w.acted action)
  | .injectToSatellite n datagram =>
    some { w with sys := { w.sys with toSatellite := w.sys.toSatellite ++ [(n, datagram)] } }
  | .injectToGround n datagram =>
    some { w with sys := { w.sys with toGround := w.sys.toGround ++ [(n, datagram)] } }

def run (w : Attacked) : List Move → Option Attacked
  | [] => some w
  | move :: moves =>
    (w.step pkey evp satelliteKeypair groundKeypair move).bind fun w ↦ w.run moves

def arrivals (w : Attacked) : List Arrival := w.handled.map Prod.fst

/-- What the satellite executes when it handles its `i`-th datagram. -/
def executionAt (w : Attacked) (i : ℕ) : Option Execution :=
  Node.executionAt pkey evp satelliteKeypair w.arrivals i

/-- The datagram is a copy of one on the wire, or a packet that the move creates under the key. -/
def Explains (w : Attacked) (move : Move) (key datagram : Bytes) : Prop :=
  datagram ∈ w.sys.toSatellite.map Prod.snd ∨
    datagram.length ≤ 2048 ∧ move.creates = true ∧ w.sys.ground = .completed key

instance (w : Attacked) (move : Move) (key datagram : Bytes) :
    Decidable (w.Explains move key datagram) :=
  inferInstanceAs (Decidable (_ ∨ _))

/-- The move puts nothing on the wire that opens under a secret key without an explanation. -/
def ForgesNothing (secret : Finset Bytes) (w w' : Attacked) (move : Move) : Prop :=
  ∀ m ∈ w'.sys.toSatellite, ∀ key ∈ secret, Opens evp key (recvfrom m.2) →
    w.Explains move key m.2

instance (secret : Finset Bytes) (w w' : Attacked) (move : Move) :
    Decidable (ForgesNothing evp secret w w' move) :=
  inferInstanceAs (Decidable (∀ m ∈ _, ∀ key ∈ _, _ → _))

def Unforged (secret : Finset Bytes) : Attacked → List Move → Prop
  | _, [] => True
  | w, move :: moves =>
    match w.step pkey evp satelliteKeypair groundKeypair move with
    | none => True
    | some w' => ForgesNothing evp secret w w' move ∧ w'.Unforged secret moves

instance decidableUnforged (secret : Finset Bytes) : ∀ (w : Attacked) (moves : List Move),
    Decidable (w.Unforged pkey evp satelliteKeypair groundKeypair secret moves)
  | _, [] => inferInstanceAs (Decidable True)
  | w, move :: moves => by
    rw [Unforged]
    cases w.step pkey evp satelliteKeypair groundKeypair move with
    | none => exact inferInstanceAs (Decidable True)
    | some w' =>
      have := decidableUnforged secret w' moves
      exact inferInstanceAs (Decidable (_ ∧ _))

/-- What is executed is the command of a packet that was created under the same key, as one of the
first `n`, and that arrived byte for byte and in time. -/
def IsAuthentic (w : Attacked) (n : ℕ) (a : Arrival) (x : Execution) (j : ℕ) : Prop :=
  j < n ∧ ∃ call, w.created[j]? = some (x.sessionKey, call) ∧
    a.received = call.datagram evp x.sessionKey ∧ x.packet.identity = call.identity ∧
    x.command = call.command ∧ |(a.freshClock.toNat : ℤ) - call.timestampMs.toNat| ≤ 30000

variable {pkey evp satelliteKeypair groundKeypair}

theorem arrivals_acted (w : Attacked) (action : Action) (sys : System) :
    (w.acted action sys).arrivals = w.arrivals ++ (arrival? w.sys action).toList := by
  simp [arrivals, acted, Function.comp_def]

theorem satellite_of_step {sys sys' : System} {action : Action}
    (h : sys.step pkey evp satelliteKeypair groundKeypair action = some sys') :
    sys'.satellite =
      sys.satellite.after pkey evp satelliteKeypair (arrival? sys action).toList := by
  cases action with
  | restart =>
    obtain rfl := Option.some_inj.mp h
    rfl
  | send call tampered =>
    simp only [System.step] at h
    split at h
    · obtain rfl := Option.some_inj.mp h
      rfl
    · cases h
  | deliverToSatellite i latencyClock freshClock =>
    obtain ⟨m, hm, rfl⟩ := Option.map_eq_some_iff.mp h
    simp only [arrival?, hm, Option.map_some, Option.toList_some]
    rfl
  | deliverToGround i =>
    obtain ⟨m, -, h⟩ := Option.bind_eq_some_iff.mp h
    split_ifs at h
    split at h
    · obtain rfl := Option.some_inj.mp h
      rfl
    · obtain rfl := Option.some_inj.mp h
      rfl

theorem created_of_step {w w' : Attacked} {move : Move}
    (h : w.step pkey evp satelliteKeypair groundKeypair move = some w') :
    ∃ added, w'.created = w.created ++ added := by
  cases move with
  | act action =>
    obtain ⟨sys, -, rfl⟩ := Option.map_eq_some_iff.mp h
    exact ⟨_, rfl⟩
  | injectToSatellite n datagram | injectToGround n datagram =>
    obtain rfl := Option.some_inj.mp h
    exact ⟨[], (List.append_nil _).symm⟩

theorem getElem?_created {w w' : Attacked} {move : Move}
    (h : w.step pkey evp satelliteKeypair groundKeypair move = some w') {j : ℕ}
    {c : Bytes × CreateCall} (hj : w.created[j]? = some c) : w'.created[j]? = some c := by
  obtain ⟨added, hadded⟩ := created_of_step h
  rw [hadded, List.getElem?_append_left (List.getElem?_eq_some_iff.mp hj).1, hj]

theorem arrivals_of_step {w w' : Attacked} {move : Move}
    (h : w.step pkey evp satelliteKeypair groundKeypair move = some w') :
    ∃ added, w'.handled = w.handled ++ added ∧ w'.arrivals = w.arrivals ++ added.map Prod.fst := by
  have hhandled : ∃ added, w'.handled = w.handled ++ added := by
    cases move with
    | act action =>
      obtain ⟨sys, -, rfl⟩ := Option.map_eq_some_iff.mp h
      exact ⟨_, rfl⟩
    | injectToSatellite n datagram | injectToGround n datagram =>
      obtain rfl := Option.some_inj.mp h
      exact ⟨[], (List.append_nil _).symm⟩
  obtain ⟨added, hadded⟩ := hhandled
  exact ⟨added, hadded, by rw [arrivals, hadded, List.map_append, arrivals]⟩

variable (pkey evp satelliteKeypair) in
/-- What holds between the network, the satellite and the log at every moment of an attack. -/
structure Traced (secret : Finset Bytes) (w : Attacked) : Prop where
  satellite : w.sys.satellite = Node.after pkey evp satelliteKeypair .listening w.arrivals
  wire : ∀ m ∈ w.sys.toSatellite, ∀ key ∈ secret, Opens evp key (recvfrom m.2) →
    m.2.length ≤ 2048 ∧ ∃ (j : ℕ) (call : CreateCall), w.created[j]? = some (key, call) ∧
      m.2 = call.datagram evp key
  authentic : ∀ (i : ℕ) (a : Arrival) (n : ℕ) (x : Execution), w.handled[i]? = some (a, n) →
    w.executionAt pkey evp satelliteKeypair i = some x → x.sessionKey ∈ secret →
    ∃ j, w.IsAuthentic evp n a x j

theorem traced_initial (secret : Finset Bytes) :
    Traced pkey evp satelliteKeypair secret {} where
  satellite := rfl
  wire := nofun
  authentic := nofun

theorem Traced.wire_step {secret : Finset Bytes} {w w' : Attacked} {move : Move}
    (h : w.Traced pkey evp satelliteKeypair secret)
    (hstep : w.step pkey evp satelliteKeypair groundKeypair move = some w')
    (hforges : ForgesNothing evp secret w w' move) :
    ∀ m ∈ w'.sys.toSatellite, ∀ key ∈ secret, Opens evp key (recvfrom m.2) →
      m.2.length ≤ 2048 ∧ ∃ (j : ℕ) (call : CreateCall), w'.created[j]? = some (key, call) ∧
        m.2 = call.datagram evp key := by
  intro m hm key hkey hopens
  have hknown (m' : ℕ × Bytes) (hm' : m' ∈ w.sys.toSatellite) (heq : m'.2 = m.2) :
      m.2.length ≤ 2048 ∧ ∃ (j : ℕ) (call : CreateCall), w'.created[j]? = some (key, call) ∧
        m.2 = call.datagram evp key := by
    rw [← heq] at hopens ⊢
    obtain ⟨hlen, j, call, hj, hdatagram⟩ := h.wire m' hm' key hkey hopens
    exact ⟨hlen, j, call, getElem?_created hstep hj, hdatagram⟩
  rcases hforges m hm key hkey hopens with hold | ⟨hlen, hcreates, hground⟩
  · obtain ⟨m', hm', heq⟩ := List.mem_map.mp hold
    exact hknown m' hm' heq
  · obtain ⟨call, rfl⟩ : ∃ call, move = .act (.send call false) := by
      match move, hcreates with
      | .act (.send call false), _ => exact ⟨call, rfl⟩
    obtain ⟨sys, hsys, rfl⟩ := Option.map_eq_some_iff.mp hstep
    simp only [System.step, hground] at hsys
    obtain rfl := Option.some_inj.mp hsys
    rcases List.mem_append.mp hm with hm | hm
    · exact hknown m hm rfl
    · obtain rfl := List.mem_singleton.mp hm
      refine ⟨hlen, w.created.length, call, ?_, rfl⟩
      simp [acted, created?, hground]

/-- A packet that opens under the key it was created with is executed as the command it was
created for. -/
theorem opens_datagram (hcorrect : evp.Correct) {sessionKey : Bytes} {call : CreateCall}
    {command : Bytes} (hlen : 40 ≤ (call.datagram evp sessionKey).length)
    (hopen : (slicePacket (call.datagram evp sessionKey)).aeadOpen evp sessionKey =
      some command) :
    (slicePacket (call.datagram evp sessionKey)).identity = call.identity ∧
      (slicePacket (call.datagram evp sessionKey)).timestampMs = call.timestampMs ∧
      command = call.command := by
  cases hseal : evp.aeadSeal sessionKey call.nonce.toList call.command call.aad with
  | none =>
    rw [CreateCall.datagram_of_not_seal hseal] at hlen
    exact absurd hlen (by decide)
  | some sealed =>
    obtain ⟨ciphertext, tag⟩ := sealed
    rw [CreateCall.datagram_of_seal hseal, slicePacket_serializePacket] at hopen ⊢
    have hopens : (call.packet ciphertext tag).aeadOpen evp sessionKey = some call.command :=
      hcorrect _ _ _ _ _ _ hseal
    exact ⟨rfl, rfl, Option.some_inj.mp (hopen.symm.trans hopens)⟩

theorem Traced.isAuthentic {secret : Finset Bytes} {w : Attacked}
    (h : w.Traced pkey evp satelliteKeypair secret) (hcorrect : evp.Correct) {a : Arrival}
    (ha : ∃ m ∈ w.sys.toSatellite, m.2 = a.datagram) {x : Execution}
    (hx : w.sys.satellite.execution pkey evp satelliteKeypair a = some x)
    (hsecret : x.sessionKey ∈ secret) : ∃ j, w.IsAuthentic evp w.created.length a x j := by
  obtain ⟨m, hm, heq⟩ := ha
  cases hsatellite : w.sys.satellite with
  | listening | exited =>
    rw [hsatellite] at hx
    cases hx
  | running s =>
    rw [hsatellite] at hx
    obtain ⟨-, hkey, hpacket, hlen, hfresh, -, hopen⟩ := Node.execution_eq_some.mp hx
    rw [(Node.guard_of_running (h.satellite.symm.trans hsatellite)).1] at hfresh
    rw [← hkey, hpacket] at hopen
    have hreceived : a.received = recvfrom m.2 := by rw [Arrival.received, heq]
    have hopens : Opens evp x.sessionKey (recvfrom m.2) := by
      rw [← hreceived]
      exact ⟨hlen, Option.isSome_of_mem hopen⟩
    obtain ⟨hshort, j, call, hj, hdatagram⟩ := h.wire m hm x.sessionKey hsecret hopens
    rw [recvfrom_of_length_le hshort, hdatagram] at hreceived
    rw [hreceived] at hlen hopen hpacket
    obtain ⟨hidentity, htimestamp, hcommand⟩ := opens_datagram hcorrect hlen hopen
    rw [hpacket, htimestamp] at hfresh
    exact ⟨j, (List.getElem?_eq_some_iff.mp hj).1, call, hj, hreceived, hpacket ▸ hidentity,
      hcommand, hfresh⟩

theorem executionAt_of_step {w w' : Attacked} {move : Move}
    (h : w.step pkey evp satelliteKeypair groundKeypair move = some w') {i : ℕ}
    (hi : i < w.handled.length) :
    w'.executionAt pkey evp satelliteKeypair i = w.executionAt pkey evp satelliteKeypair i := by
  obtain ⟨added, -, harrivals⟩ := arrivals_of_step h
  have hlt : i < w.arrivals.length := by rwa [arrivals, List.length_map]
  rw [executionAt, executionAt, Node.executionAt, Node.executionAt, harrivals,
    List.getElem?_append_left hlt,
    List.take_append_of_le_length hlt.le]

theorem IsAuthentic.of_step {w w' : Attacked} {move : Move} {n j : ℕ} {a : Arrival} {x : Execution}
    (h : w.IsAuthentic evp n a x j)
    (hstep : w.step pkey evp satelliteKeypair groundKeypair move = some w') :
    w'.IsAuthentic evp n a x j := by
  obtain ⟨hj, call, hcall, hauthentic⟩ := h
  exact ⟨hj, call, getElem?_created hstep hcall, hauthentic⟩

theorem mem_wire_of_arrival {sys : System} {action : Action} {a : Arrival}
    (h : arrival? sys action = some a) : ∃ m ∈ sys.toSatellite, m.2 = a.datagram := by
  cases action with
  | deliverToSatellite i latencyClock freshClock =>
    obtain ⟨m, hm, rfl⟩ := Option.map_eq_some_iff.mp h
    exact ⟨m, List.mem_of_getElem? hm, rfl⟩
  | restart | send | deliverToGround => cases h

/-- A datagram that the move adds to the handled ones comes off the wire, after all packets created
so far. -/
theorem new_handled {w w' : Attacked} {move : Move}
    (h : w.step pkey evp satelliteKeypair groundKeypair move = some w') {i n : ℕ} {a : Arrival}
    (hi : w'.handled[i]? = some (a, n)) :
    i < w.handled.length ∧ w.handled[i]? = some (a, n) ∨
      i = w.handled.length ∧ n = w.created.length ∧ (∃ m ∈ w.sys.toSatellite, m.2 = a.datagram) ∧
        w'.arrivals = w.arrivals ++ [a] := by
  by_cases hlt : i < w.handled.length
  · obtain ⟨added, hadded, -⟩ := arrivals_of_step h
    rw [hadded, List.getElem?_append_left hlt] at hi
    exact Or.inl ⟨hlt, hi⟩
  · refine Or.inr ?_
    cases move with
    | act action =>
      obtain ⟨sys, -, rfl⟩ := Option.map_eq_some_iff.mp h
      rw [acted, List.getElem?_append_right (not_lt.mp hlt)] at hi
      rw [arrivals_acted]
      cases harrival : arrival? w.sys action with
      | none => simp [harrival] at hi
      | some b =>
        rw [harrival, Option.toList_some, List.map_singleton, List.getElem?_singleton,
          Option.ite_none_right_eq_some] at hi
        obtain ⟨hzero, heq⟩ := hi
        obtain ⟨rfl, rfl⟩ := Prod.mk.inj (Option.some_inj.mp heq)
        exact ⟨by omega, rfl, mem_wire_of_arrival harrival, rfl⟩
    | injectToSatellite m datagram | injectToGround m datagram =>
      obtain rfl := Option.some_inj.mp h
      exact absurd (List.getElem?_eq_some_iff.mp hi).1 hlt

theorem Traced.step {secret : Finset Bytes} {w w' : Attacked} {move : Move}
    (h : w.Traced pkey evp satelliteKeypair secret) (hcorrect : evp.Correct)
    (hstep : w.step pkey evp satelliteKeypair groundKeypair move = some w')
    (hforges : ForgesNothing evp secret w w' move) :
    w'.Traced pkey evp satelliteKeypair secret where
  satellite := by
    cases move with
    | act action =>
      obtain ⟨sys, hsys, rfl⟩ := Option.map_eq_some_iff.mp hstep
      rw [arrivals_acted, Node.after_append, ← h.satellite]
      exact satellite_of_step hsys
    | injectToSatellite n datagram | injectToGround n datagram =>
      obtain rfl := Option.some_inj.mp hstep
      exact h.satellite
  wire := h.wire_step hstep hforges
  authentic := by
    intro i a n x hi hx hsecret
    rcases new_handled hstep hi with ⟨hlt, hold⟩ | ⟨rfl, rfl, hwire, harrivals⟩
    · rw [executionAt_of_step hstep hlt] at hx
      obtain ⟨j, hj⟩ := h.authentic i a n x hold hx hsecret
      exact ⟨j, hj.of_step hstep⟩
    · have hlen : w.handled.length = w.arrivals.length := by rw [arrivals, List.length_map]
      rw [executionAt, Node.executionAt, harrivals, hlen, List.getElem?_concat_length,
        List.take_left, Option.bind_some, ← h.satellite] at hx
      obtain ⟨j, hj⟩ := h.isAuthentic hcorrect hwire hx hsecret
      exact ⟨j, hj.of_step hstep⟩

theorem Traced.run {secret : Finset Bytes} {w w' : Attacked} {moves : List Move}
    (h : w.Traced pkey evp satelliteKeypair secret) (hcorrect : evp.Correct)
    (hunforged : w.Unforged pkey evp satelliteKeypair groundKeypair secret moves)
    (hrun : w.run pkey evp satelliteKeypair groundKeypair moves = some w') :
    w'.Traced pkey evp satelliteKeypair secret := by
  induction moves generalizing w with
  | nil => exact Option.some_inj.mp hrun ▸ h
  | cons move moves ih =>
    obtain ⟨next, hstep, hrest⟩ := Option.bind_eq_some_iff.mp hrun
    rw [Unforged, hstep] at hunforged
    obtain ⟨hforges, hlater⟩ := hunforged
    exact ih (h.step hcorrect hstep hforges) hlater hrest

/-- Injective agreement between the ground stations and the satellite under attack. Whatever is
executed under a secret key comes from a packet created under that key before, and where the key
was established only once, no packet is executed twice. -/
theorem authenticity (hcorrect : evp.Correct) {secret : Finset Bytes} {moves : List Move}
    {w : Attacked}
    (hunforged : Unforged pkey evp satelliteKeypair groundKeypair secret {} moves)
    (hrun : run pkey evp satelliteKeypair groundKeypair {} moves = some w) :
    ∃ origin : ℕ → ℕ,
      (∀ (i : ℕ) (a : Arrival) (n : ℕ) (x : Execution), w.handled[i]? = some (a, n) →
        w.executionAt pkey evp satelliteKeypair i = some x → x.sessionKey ∈ secret →
        w.IsAuthentic evp n a x (origin i)) ∧
      Set.InjOn origin {i | ∃ x, w.executionAt pkey evp satelliteKeypair i = some x ∧
        x.sessionKey ∈ secret ∧
        w.arrivals.countP (Node.establishes pkey satelliteKeypair x.sessionKey) ≤ 1} := by
  have htraced := (traced_initial secret).run hcorrect hunforged hrun
  have horigin (i : ℕ) : ∃ j, ∀ a n x, w.handled[i]? = some (a, n) →
      w.executionAt pkey evp satelliteKeypair i = some x → x.sessionKey ∈ secret →
      w.IsAuthentic evp n a x j := by
    by_cases hi : ∃ a n x, w.handled[i]? = some (a, n) ∧
        w.executionAt pkey evp satelliteKeypair i = some x ∧ x.sessionKey ∈ secret
    · obtain ⟨a, n, x, ha, hx, hsecret⟩ := hi
      obtain ⟨j, hj⟩ := htraced.authentic i a n x ha hx hsecret
      refine ⟨j, fun a' n' x' ha' hx' _ ↦ ?_⟩
      obtain ⟨rfl, rfl⟩ := Prod.mk.inj (Option.some_inj.mp (ha.symm.trans ha'))
      obtain rfl := Option.some_inj.mp (hx.symm.trans hx')
      exact hj
    · exact ⟨0, fun a n x ha hx hsecret ↦ absurd ⟨a, n, x, ha, hx, hsecret⟩ hi⟩
  choose origin horigin using horigin
  refine ⟨origin, horigin, ?_⟩
  have hidentity {i : ℕ} {x : Execution}
      (hx : w.executionAt pkey evp satelliteKeypair i = some x) (hsecret : x.sessionKey ∈ secret) :
      ∃ call, w.created[origin i]? = some (x.sessionKey, call) ∧
        x.identity = (x.sessionKey, call.identity) := by
    obtain ⟨a, ha, -⟩ := Option.bind_eq_some_iff.mp hx
    rw [arrivals, List.getElem?_map, Option.map_eq_some_iff] at ha
    obtain ⟨⟨a, n⟩, ha, rfl⟩ := ha
    obtain ⟨-, call, hcall, -, hid, -⟩ := horigin i a n x ha hx hsecret
    exact ⟨call, hcall, by rw [Execution.identity, hid]⟩
  have hlater {i j : ℕ} {x y : Execution} (hij : i < j)
      (hx : w.executionAt pkey evp satelliteKeypair i = some x)
      (hy : w.executionAt pkey evp satelliteKeypair j = some y)
      (hsame : y.identity = x.identity)
      (honce : w.arrivals.countP (Node.establishes pkey satelliteKeypair x.sessionKey) ≤ 1) :
      False := by
    have htwo := Node.two_le_countP_executions hij hx hy hsame
    have hcount := Node.count_executions_le pkey evp satelliteKeypair w.arrivals x.sessionKey
      x.packet.identity
    exact absurd (htwo.trans (hcount.trans honce)) (by decide)
  rintro i ⟨x, hx, hxsecret, hxonce⟩ j ⟨y, hy, hysecret, hyonce⟩ heq
  obtain ⟨call, hcall, hxid⟩ := hidentity hx hxsecret
  obtain ⟨call', hcall', hyid⟩ := hidentity hy hysecret
  rw [heq, hcall', Option.some_inj, Prod.mk_inj] at hcall
  have hsame : y.identity = x.identity := by rw [hxid, hyid, hcall.1, hcall.2]
  rcases lt_trichotomy i j with hij | hij | hij
  · exact (hlater hij hx hy hsame hxonce).elim
  · exact hij
  · exact (hlater hij hy hx hsame.symm hyonce).elim

theorem correct_singleton (m : Evp.Sealed) : (Evp.ofTable [m]).Correct := by
  intro key nonce plaintext aad ciphertext tag hseal
  simp only [Evp.ofTable, Evp.aeadSeal_ofAead, Option.map_eq_some_iff, List.find?_singleton,
    Option.ite_none_right_eq_some, decide_eq_true_eq] at hseal
  obtain ⟨m', ⟨⟨hkey, hnonce, hplaintext, haad⟩, hm⟩, heq⟩ := hseal
  obtain rfl := Option.some_inj.mp hm
  obtain ⟨rfl, rfl⟩ := Prod.mk.inj heq
  simp [Evp.ofTable, hkey, hnonce, hplaintext, haad]

theorem authenticity_with_junk_and_copies :
    let call := validPacketCall 60000
    let key : Bytes := BigEndian.bytes 32 15
    let packet := call.packet (List.replicate 17 1) (Vector.replicate tagSize 9)
    let evp := Evp.ofTable [call.sealed key packet.ciphertext packet.tag]
    let moves : List Move := [.act .restart, .act (.deliverToSatellite 0 0 0),
      .act (.deliverToGround 0), .injectToSatellite 0 (List.replicate 50 7),
      .act (.deliverToSatellite 1 60050 60050), .act (.send call false),
      .act (.deliverToSatellite 2 60100 60100), .act (.deliverToSatellite 2 60200 60200)]
    ∃ w j, run .product evp 3 (· % 250 + 5) {} moves = some w ∧
      w.IsAuthentic evp 1 ⟨call.datagram evp key, 60100, 60100⟩ ⟨key, packet, call.command⟩ j := by
  intro call key packet evp moves
  have hunforged : Unforged .product evp 3 (· % 250 + 5) {key} {} moves := by decide +kernel
  obtain ⟨w, hrun⟩ : ∃ w, run .product evp 3 (· % 250 + 5) {} moves = some w :=
    Option.isSome_iff_exists.mp (by decide +kernel)
  have hhandled : (run .product evp 3 (· % 250 + 5) {} moves).bind (·.handled[2]?) =
      some (⟨call.datagram evp key, 60100, 60100⟩, 1) := by decide +kernel
  have hexecuted : (run .product evp 3 (· % 250 + 5) {} moves).bind
      (·.executionAt .product evp 3 2) = some ⟨key, packet, call.command⟩ := by decide +kernel
  rw [hrun, Option.bind_some] at hhandled hexecuted
  obtain ⟨origin, horigin, -⟩ := authenticity (correct_singleton _) hunforged hrun
  exact ⟨w, origin 2, hrun, horigin 2 _ 1 _ hhandled hexecuted (Finset.mem_singleton_self key)⟩

theorem run_cons {w w' : Attacked} {move : Move}
    (h : w.step pkey evp satelliteKeypair groundKeypair move = some w') (moves : List Move) :
    w.run pkey evp satelliteKeypair groundKeypair (move :: moves) =
      w'.run pkey evp satelliteKeypair groundKeypair moves := by
  rw [run, h, Option.bind_some]

/-- The handshake authenticates nobody. An intruder with key pairs of his own gets between the
parties whenever a ground station starts, whatever went before: each of them then holds a key that
he computes from public keys, and the satellite executes his commands. -/
theorem man_in_the_middle (w : Attacked) (hnode : ∀ code, w.sys.satellite ≠ .exited code)
    {mallory mallory' : Key} (hsatellite : Honest pkey mallory satelliteKeypair)
    (hground : Honest pkey (groundKeypair w.sys.started) mallory') :
    let satelliteKey := sessionKeyWith pkey mallory (getRawPublicKey pkey satelliteKeypair)
    let groundKey :=
      sessionKeyWith pkey mallory' (getRawPublicKey pkey (groundKeypair w.sys.started))
    satelliteKey.length = 32 → groundKey.length = 32 →
    ∃ attack w', w.run pkey evp satelliteKeypair groundKeypair attack = some w' ∧
      w'.sys.ground = .completed groundKey ∧
      w'.sys.satellite = .running ⟨satelliteKey, .new 30000⟩ ∧
      ∀ (call : CreateCall) (ciphertext : Bytes) (tag : Vector UInt8 tagSize)
        (latencyClock freshClock : UInt64), Sealing evp satelliteKey call ciphertext tag →
        call.command.length ≤ 2008 →
        |(freshClock.toNat : ℤ) - call.timestampMs.toNat| ≤ 30000 →
        w'.sys.satellite.execution pkey evp satelliteKeypair
            ⟨call.datagram evp satelliteKey, latencyClock, freshClock⟩ =
          some ⟨satelliteKey, call.packet ciphertext tag, call.command⟩ := by
  intro satelliteKey groundKey hsatelliteKey hgroundKey
  let n := w.sys.started
  let forged : Arrival := ⟨getRawPublicKey pkey mallory, 0, 0⟩
  have hreceived : forged.received = getRawPublicKey pkey mallory :=
    recvfrom_of_length_le (by rw [hsatellite.groundPublic]; decide)
  have hreceivedLen : forged.received.length = 32 := by rw [hreceived, hsatellite.groundPublic]
  have hkey : sessionKeyWith pkey satelliteKeypair forged.received = satelliteKey := by
    rw [hreceived, ← hsatellite.sessionKey]
  have hstart : ¬ Node.StartUpFails pkey satelliteKeypair forged := by
    rw [Node.StartUpFails, hkey]
    exact not_or.mpr ⟨not_not.mpr hreceivedLen, not_not.mpr hsatelliteKey⟩
  have hhandled := Node.step_handshake evp hnode hstart
  rw [hkey] at hhandled
  let sys₁ : System := { w.sys with
    started := n + 1
    ground := .waiting
    toSatellite := w.sys.toSatellite ++ [(n, getRawPublicKey pkey (groundKeypair n))] ++
      [(n, getRawPublicKey pkey mallory)] }
  let deliver : Action := .deliverToSatellite (w.sys.toSatellite.length + 1) 0 0
  let sys₂ : System := { sys₁ with
    satellite := .running ⟨satelliteKey, .new 30000⟩
    toGround := w.sys.toGround ++ [(n, getRawPublicKey pkey satelliteKeypair)] ++
      [(n, getRawPublicKey pkey mallory')]
    lastHandshake := some n }
  have hdeliver : sys₁.step pkey evp satelliteKeypair groundKeypair deliver =
      some { sys₂ with toGround := w.sys.toGround ++
        [(n, getRawPublicKey pkey satelliteKeypair)] } := by
    have hm : sys₁.toSatellite[w.sys.toSatellite.length + 1]? =
        some (n, getRawPublicKey pkey mallory) := by simp [sys₁]
    simp only [deliver, System.step, hm, Option.map_some, System.handle]
    rw [show sys₁.satellite = w.sys.satellite from rfl, hhandled, if_pos hreceivedLen]
    rfl
  have hcomplete : sys₂.step pkey evp satelliteKeypair groundKeypair
      (.deliverToGround (w.sys.toGround.length + 1)) =
        some { sys₂ with ground := .completed groundKey } := by
    have hm : sys₂.toGround[w.sys.toGround.length + 1]? =
        some (n, getRawPublicKey pkey mallory') := by simp [sys₂]
    simp only [System.step, hm, Option.bind_some]
    rw [if_pos ⟨rfl, rfl⟩, groundHandshake_of_honest hground hgroundKey]
  let w₁ : Attacked := { w.acted .restart sys₁ with sys := sys₁ }
  let w₂ : Attacked := { w₁.acted deliver sys₂ with sys := sys₂ }
  let complete : Action := .deliverToGround (w.sys.toGround.length + 1)
  refine ⟨[.act .restart, .injectToSatellite n (getRawPublicKey pkey mallory), .act deliver,
    .injectToGround n (getRawPublicKey pkey mallory'), .act complete],
    w₂.acted complete { sys₂ with ground := .completed groundKey }, ?_, rfl, rfl, ?_⟩
  · have hdelivered : w₁.step pkey evp satelliteKeypair groundKeypair (.act deliver) =
        some (w₁.acted deliver _) := congrArg (Option.map (w₁.acted deliver)) hdeliver
    have hcompleted : w₂.step pkey evp satelliteKeypair groundKeypair (.act complete) =
        some (w₂.acted complete _) := congrArg (Option.map (w₂.acted complete)) hcomplete
    calc _ = w₁.run pkey evp satelliteKeypair groundKeypair [.act deliver,
          .injectToGround n (getRawPublicKey pkey mallory'), .act complete] :=
          (run_cons rfl _).trans (run_cons rfl _)
      _ = w₂.run pkey evp satelliteKeypair groundKeypair [.act complete] :=
          (run_cons hdelivered _).trans (run_cons rfl _)
      _ = _ := run_cons hcompleted []
  · intro call ciphertext tag latencyClock freshClock hseal hlen hfresh
    exact Node.execution_of_call pkey satelliteKeypair hseal hlen (AntiReplay.isDuplicate_new _ _ _)
      latencyClock hfresh

theorem man_in_the_middle_of_first_handshake :
    let call := validPacketCall 60000
    let satelliteKey : Bytes := BigEndian.bytes 32 21
    let ciphertext : Bytes := List.replicate 17 1
    let tag := Vector.replicate tagSize 9
    let evp := Evp.ofTable [call.sealed satelliteKey ciphertext tag]
    ∃ attack w', run .product evp 3 (· % 250 + 5) {} attack = some w' ∧
      w'.sys.ground = .completed (BigEndian.bytes 32 55) ∧
      w'.sys.satellite.execution .product evp 3 ⟨call.datagram evp satelliteKey, 60100, 60100⟩ =
        some ⟨satelliteKey, call.packet ciphertext tag, call.command⟩ := by
  intro call satelliteKey ciphertext tag evp
  have hsatellite : Honest .product 7 3 := honest_product (by decide) (by decide)
  have hground : Honest .product 5 11 := honest_product (by decide) (by decide)
  have hkey : sessionKeyWith .product 7 (getRawPublicKey .product 3) = satelliteKey := by
    decide +kernel
  have hgroundKey : sessionKeyWith .product 11 (getRawPublicKey .product 5) =
      BigEndian.bytes 32 55 := by decide +kernel
  have hattack := @man_in_the_middle _ .product evp 3 (· % 250 + 5) {} (fun _ ↦ nofun) 7 11
    hsatellite hground
  obtain ⟨attack, w', hrun, hcompleted, -, hexecutes⟩ := hattack
    (length_sessionKeyWith_product (by decide) (by decide))
    (length_sessionKeyWith_product (by decide) (by decide))
  refine ⟨attack, w', hrun, hcompleted.trans (congrArg _ hgroundKey), ?_⟩
  rw [hkey] at hexecutes
  have hlen : ciphertext.length = call.command.length := by decide +kernel
  exact hexecutes call ciphertext tag 60100 60100
    (sealing_singleton call satelliteKey ciphertext tag hlen) (by decide +kernel)
    (by decide +kernel)

end Attacked

end SpaceSec
