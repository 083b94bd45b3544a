import SpaceSec.Attack
import SpaceSec.AlertMarkup

namespace SpaceSec

namespace Node

variable {Key : Type} {pkey : Pkey Key} {evp : Evp} {satelliteKeypair : Key}

theorem exists_executionAt {arrivals : List Arrival} {x : Execution}
    (h : x ∈ executions pkey evp satelliteKeypair .listening arrivals) :
    ∃ i, executionAt pkey evp satelliteKeypair arrivals i = some x := by
  have hprefix (n : ℕ)
      (hx : x ∈ executions pkey evp satelliteKeypair .listening (arrivals.take n)) :
      ∃ i, executionAt pkey evp satelliteKeypair arrivals i = some x := by
    induction n with
    | zero => exact absurd hx List.not_mem_nil
    | succ n ih =>
      rw [executions_take_succ] at hx
      rcases List.mem_append.mp hx with hx | hx
      · exact ih hx
      · exact ⟨n, Option.mem_toList.mp hx⟩
  exact hprefix arrivals.length (by rwa [List.take_length])

end Node

namespace Attacked

open Python Dashboard Browser

variable {Key : Type} (pkey : Pkey Key) (evp : Evp) (satelliteKeypair : Key)
  (groundKeypair : ℕ → Key)

/-- How often a satellite can execute what was created under secret keys: each packet once for
each handshake that gave its key. -/
def allowance (secret : Finset Bytes) (w : Attacked) : ℕ :=
  ((w.created.filter (·.1 ∈ secret)).map fun c ↦
    w.arrivals.countP (Node.establishes pkey satelliteKeypair c.1)).sum

variable {pkey evp satelliteKeypair groundKeypair}

theorem Traced.exists_created {secret : Finset Bytes} {w : Attacked}
    (h : w.Traced pkey evp satelliteKeypair secret) {x : Execution}
    (hx : x ∈ Node.executions pkey evp satelliteKeypair .listening w.arrivals)
    (hsecret : x.sessionKey ∈ secret) :
    ∃ call, (x.sessionKey, call) ∈ w.created ∧ x.packet.identity = call.identity := by
  obtain ⟨i, hi⟩ := Node.exists_executionAt hx
  obtain ⟨a, ha, -⟩ := Option.bind_eq_some_iff.mp hi
  rw [arrivals, List.getElem?_map, Option.map_eq_some_iff] at ha
  obtain ⟨⟨a, n⟩, ha, rfl⟩ := ha
  obtain ⟨j, -, call, hcall, -, hidentity, -⟩ := h.authentic i a n x ha hi hsecret
  exact ⟨call, List.mem_of_getElem? hcall, hidentity⟩

theorem Traced.countP_executions_le {secret : Finset Bytes} {w : Attacked}
    (h : w.Traced pkey evp satelliteKeypair secret) :
    (Node.executions pkey evp satelliteKeypair .listening w.arrivals).countP
        (·.sessionKey ∈ secret) ≤ w.allowance pkey satelliteKeypair secret := by
  let issued := (w.created.filter (·.1 ∈ secret)).map fun c ↦ (c.1, c.2.identity)
  have hissued : ∀ x ∈ Node.executions pkey evp satelliteKeypair .listening w.arrivals,
      decide (x.sessionKey ∈ secret) → x.identity ∈ issued := by
    intro x hx hsecret
    obtain ⟨call, hcall, hidentity⟩ := h.exists_created hx (of_decide_eq_true hsecret)
    refine List.mem_map.mpr ⟨(x.sessionKey, call), List.mem_filter.mpr ⟨hcall, hsecret⟩, ?_⟩
    rw [Execution.identity, hidentity]
  refine (OnceFilter.countP_le_sum_issued Execution.identity _ hissued).trans ?_
  rw [allowance, List.map_map]
  apply List.sum_le_sum
  intro c _
  exact Node.count_executions_le pkey evp satelliteKeypair w.arrivals c.1 c.2.identity

/-- From the ground stations to the page, with an intruder on the radio link: whatever reports are
lost and whenever the dashboard is reset, the page counts no more accepted commands than there
were packets created under secret keys, each as often as its key was established, and commands
executed under other keys. -/
theorem page_accounts_for_accepted (hcorrect : evp.Correct) {secret : Finset Bytes}
    {moves : List Move} {w : Attacked}
    (hunforged : Unforged pkey evp satelliteKeypair groundKeypair secret {} moves)
    (hrun : run pkey evp satelliteKeypair groundKeypair {} moves = some w)
    {actions : List Feed.Action} (harrivals : Feed.arrivals actions = w.arrivals)
    (coerce : Value → Float) (page : Page) :
    ∃ response, Dashboard.state
        (Feed.after pkey evp satelliteKeypair actions).history.state = .ok response ∧
      completes response = true ∧
      (tick coerce page response).accepted ≤ w.allowance pkey satelliteKeypair secret +
        (Node.executions pkey evp satelliteKeypair .listening w.arrivals).countP
          (·.sessionKey ∉ secret) := by
  have htraced := (traced_initial secret).run hcorrect hunforged hrun
  have hvalid := Feed.valid_after pkey evp satelliteKeypair actions
  obtain ⟨response, hresponse, hcompletes, -, haccepted, -⟩ := tick_shows coerce hvalid.shows page
  refine ⟨response, hresponse, hcompletes, ?_⟩
  have hshown := hvalid.counts_le.1
  rw [harrivals] at hshown
  have hsecret := htraced.countP_executions_le
  have hsplit := List.length_eq_countP_add_countP
    (l := Node.executions pkey evp satelliteKeypair .listening w.arrivals) (·.sessionKey ∈ secret)
  simp only [decide_eq_true_eq] at hsplit
  rw [haccepted]
  omega

theorem page_accounts_for_replayed_packet :
    let call := validPacketCall 60000
    let key : Bytes := BigEndian.bytes 32 15
    let packet := call.packet (List.replicate 17 1) (Vector.replicate tagSize 9)
    let evp := Evp.ofTable [call.sealed key packet.ciphertext packet.tag]
    let moves : List Move := [.act .restart, .act (.deliverToSatellite 0 0 0),
      .act (.deliverToGround 0), .act (.send call false), .act (.deliverToSatellite 1 60100 60100),
      .injectToSatellite 0 (call.datagram evp key), .act (.deliverToSatellite 2 60200 60200)]
    ∃ w response, run .product evp 3 (· % 250 + 5) {} moves = some w ∧ w.arrivals.length = 3 ∧
      Dashboard.state (Feed.after .product evp 3
        (w.arrivals.flatMap fun a ↦ [.arrive a, .handle 0 0])).history.state = .ok response ∧
      (tick (fun _ ↦ 0) {} response).accepted ≤ 1 := by
  intro call key packet evp moves
  have hunforged : Unforged .product evp 3 (· % 250 + 5) {key} {} moves := by decide +kernel
  obtain ⟨w, hrun⟩ : ∃ w, run .product evp 3 (· % 250 + 5) {} moves = some w :=
    Option.isSome_iff_exists.mp (by decide +kernel)
  have hcounts : (run .product evp 3 (· % 250 + 5) {} moves).map
      (fun w ↦ (w.arrivals.length, w.allowance .product 3 {key},
        (Node.executions .product evp 3 .listening w.arrivals).countP
          (·.sessionKey ∉ ({key} : Finset Bytes)))) = some (3, 1, 0) := by decide +kernel
  rw [hrun, Option.map_some, Option.some_inj, Prod.mk_inj, Prod.mk_inj] at hcounts
  obtain ⟨hlength, hallowance, hothers⟩ := hcounts
  have harrivals :
      Feed.arrivals (w.arrivals.flatMap fun a ↦ [.arrive a, .handle 0 0]) = w.arrivals := by
    have hpair (a : Arrival) :
        [Feed.Action.arrive a, .handle 0 0].filterMap Feed.Action.arrival? = [a] := rfl
    simp [Feed.arrivals, List.filterMap_flatMap, hpair]
  obtain ⟨response, hresponse, -, haccepted⟩ := page_accounts_for_accepted
    (correct_singleton _) hunforged hrun harrivals (fun _ ↦ 0) {}
  rw [hallowance, hothers] at haccepted
  exact ⟨w, response, hrun, hlength, hresponse, haccepted⟩

end Attacked

end SpaceSec
