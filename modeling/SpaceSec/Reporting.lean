import SpaceSec.DashboardClient

namespace SpaceSec

namespace DashboardClient

variable {recv : ℕ → RecvOutcome}

theorem drain_returns {k fuel : ℕ} (hk : k < fuel) (i waitedUs : ℕ)
    (hdata : ∀ j < k, 0 < (recv (i + j)).result) (hend : (recv (i + k)).result ≤ 0) :
    ∃ waitedUs', drain recv fuel i waitedUs = some (i + k + 1, waitedUs') := by
  induction fuel generalizing k i waitedUs with
  | zero => omega
  | succ fuel ih =>
    cases k with
    | zero =>
      rw [Nat.add_zero] at hend
      exact ⟨_, by rw [drain, if_neg (not_lt.mpr hend)]⟩
    | succ k =>
      obtain ⟨waitedUs', hrest⟩ := @ih k (by omega) (i + 1) (waitedUs + (recv i).delayUs)
        (fun j hj ↦ by simpa only [Nat.add_assoc, Nat.add_comm 1] using hdata (j + 1) (by omega))
        (by simpa only [Nat.add_assoc, Nat.add_comm 1] using hend)
      refine ⟨waitedUs', ?_⟩
      have hfirst : 0 < (recv i).result := hdata 0 (Nat.succ_pos k)
      rw [drain, if_pos hfirst, hrest]
      congr 2
      omega

/-- The loop ends only where the peer ends it. -/
theorem end_of_drain {fuel i waitedUs n waitedUs' : ℕ}
    (h : drain recv fuel i waitedUs = some (n, waitedUs')) :
    ∃ k, n = i + k + 1 ∧ (recv (i + k)).result ≤ 0 ∧
      waitedUs' ≤ waitedUs + (k + 1) * timeoutUs := by
  induction fuel generalizing i waitedUs with
  | zero => cases h
  | succ fuel ih =>
    have hdelay : (recv i).delayUs ≤ timeoutUs := by
      cases recv i with
      | error => exact le_rfl
      | endOfStream delayUs hdelay => exact hdelay.le
      | data bytes hbytes delayUs hdelay => exact hdelay.le
    rw [drain] at h
    split_ifs at h with hdata
    · obtain ⟨k, hn, hend, hwaited⟩ := ih h
      refine ⟨k + 1, by omega, ?_, ?_⟩
      · rwa [Nat.add_comm k 1, ← Nat.add_assoc]
      · rw [Nat.add_mul (k + 1), Nat.one_mul]
        omega
    · obtain ⟨rfl, rfl⟩ := Prod.mk.inj (Option.some_inj.mp h)
      exact ⟨0, rfl, not_lt.mp hdata, by omega⟩

variable (host : String) (port : Int32) (event : SecurityEvent) (peer : Peer)

def ReturnsWithin (calls : ℕ) : Prop :=
  ∃ fuel posted, postSecurityEvent host port event peer fuel = some (.returned posted) ∧
    posted.recvCalls ≤ calls

def Peer.Connects : Prop :=
  peer.socketOpens = true ∧ peer.hostParses = true ∧ peer.connect.wait.1 = true

/-- If it comes to that, `send` raises no `SIGPIPE`, and one of the first `calls` answers to `recv`
is an error, a timeout or the end of the stream. -/
def Peer.EndsWithin (calls : ℕ) : Prop :=
  peer.Connects → peer.send.raisesSigpipe = false ∧ ∃ i < calls, (peer.recv i).result ≤ 0

/-- The peer closes and resets the connection before the request is sent. -/
def Peer.Resets : Prop := peer.Connects ∧ peer.send.raisesSigpipe = true

variable {host port event peer}

theorem post_of_not_connects (h : ¬ peer.Connects) (fuel : ℕ) :
    ∃ waitedUs ≤ peer.connect.wait.2,
      postSecurityEvent host port event peer fuel = some (.returned { waitedUs }) := by
  cases hsocket : peer.socketOpens with
  | false => exact ⟨0, Nat.zero_le _, by simp [postSecurityEvent, hsocket]⟩
  | true =>
    cases hhost : peer.hostParses with
    | false => exact ⟨0, Nat.zero_le _, by simp [postSecurityEvent, hsocket, hhost]⟩
    | true =>
      have hconnect : peer.connect.wait.1 = false := by
        rw [← Bool.not_eq_true]
        exact fun hconnect ↦ h ⟨hsocket, hhost, hconnect⟩
      exact ⟨_, le_rfl, by simp [postSecurityEvent, hsocket, hhost, hconnect]⟩

theorem post_of_resets (h : peer.Resets) (fuel : ℕ) :
    postSecurityEvent host port event peer fuel = some .killed := by
  obtain ⟨⟨hsocket, hhost, hconnect⟩, hsignal⟩ := h
  simp only [postSecurityEvent, hsocket, hhost, hconnect, hsignal, Bool.not_true,
    Bool.false_eq_true, if_false, if_true]

theorem post_of_connects (h : peer.Connects) (hsignal : peer.send.raisesSigpipe = false)
    (fuel : ℕ) :
    postSecurityEvent host port event peer fuel =
      (drain peer.recv fuel 0 (peer.connect.wait.2 + peer.send.delayUs)).map fun result ↦
        .returned {
          sent := (Http.encodeUtf8 (eventRequest host port event)).take peer.send.bytes
          recvCalls := result.1
          waitedUs := result.2 } := by
  obtain ⟨hsocket, hhost, hconnect⟩ := h
  simp only [postSecurityEvent, hsocket, hhost, hconnect, hsignal, Bool.not_true,
    Bool.false_eq_true, if_false]

/-- A report that returns has not met a connection, or has drained an answer to its end. -/
theorem returned_cases {fuel : ℕ} {posted : Posted}
    (h : postSecurityEvent host port event peer fuel = some (.returned posted)) :
    (¬ peer.Connects ∧ ∃ waitedUs ≤ peer.connect.wait.2, posted = { waitedUs }) ∨
      peer.Connects ∧ peer.send.raisesSigpipe = false ∧
        posted.sent = (Http.encodeUtf8 (eventRequest host port event)).take peer.send.bytes ∧
        drain peer.recv fuel 0 (peer.connect.wait.2 + peer.send.delayUs) =
          some (posted.recvCalls, posted.waitedUs) := by
  by_cases hconnects : peer.Connects
  · refine Or.inr ⟨hconnects, ?_⟩
    cases hsignal : peer.send.raisesSigpipe with
    | true =>
      rw [post_of_resets ⟨hconnects, hsignal⟩] at h
      cases h
    | false =>
      rw [post_of_connects hconnects hsignal, Option.map_eq_some_iff] at h
      obtain ⟨⟨recvCalls, waitedUs⟩, hdrain, heq⟩ := h
      obtain rfl := PostOutcome.returned.inj heq
      exact ⟨rfl, rfl, hdrain⟩
  · obtain ⟨waitedUs, hwaited, hposted⟩ := post_of_not_connects hconnects fuel
    obtain rfl := PostOutcome.returned.inj (Option.some_inj.mp (hposted.symm.trans h))
    exact Or.inl ⟨hconnects, waitedUs, hwaited, rfl⟩

theorem post_of_endsWithin {calls fuel : ℕ} (h : peer.EndsWithin calls) (hfuel : calls ≤ fuel) :
    ∃ posted, postSecurityEvent host port event peer fuel = some (.returned posted) ∧
      posted.recvCalls ≤ calls := by
  by_cases hconnects : peer.Connects
  · -- the loop stops at the first answer that is no data
    obtain ⟨hsignal, hexists⟩ := h hconnects
    obtain ⟨hlt, hend⟩ := Nat.find_spec hexists
    have hdata : ∀ j < Nat.find hexists, 0 < (peer.recv (0 + j)).result := by
      intro j hj
      rw [Nat.zero_add]
      by_contra hle
      exact Nat.find_min hexists hj ⟨hj.trans hlt, not_lt.mp hle⟩
    obtain ⟨waitedUs, hdrain⟩ := drain_returns (hlt.trans_le hfuel) 0
      (peer.connect.wait.2 + peer.send.delayUs) hdata (by rwa [Nat.zero_add])
    refine ⟨_, by rw [post_of_connects hconnects hsignal, hdrain]; rfl, ?_⟩
    simp only
    omega
  · obtain ⟨waitedUs, -, hposted⟩ := post_of_not_connects hconnects fuel
    exact ⟨_, hposted, Nat.zero_le calls⟩

theorem returnsWithin_iff {calls : ℕ} :
    ReturnsWithin host port event peer calls ↔ peer.EndsWithin calls := by
  refine ⟨?_, fun h ↦ ⟨calls, post_of_endsWithin h le_rfl⟩⟩
  intro h hconnects
  obtain ⟨fuel, posted, hposted, hcalls⟩ := h
  rcases returned_cases hposted with ⟨hfails, -⟩ | ⟨-, hsignal, -, hdrain⟩
  · exact absurd hconnects hfails
  · obtain ⟨k, hk, hend, -⟩ := end_of_drain hdrain
    rw [Nat.zero_add] at hk hend
    exact ⟨hsignal, k, by omega, hend⟩

theorem post_waits {fuel : ℕ} {posted : Posted}
    (h : postSecurityEvent host port event peer fuel = some (.returned posted)) :
    posted.waitedUs ≤ (posted.recvCalls + 2) * timeoutUs := by
  have hconnect : peer.connect.wait.2 ≤ timeoutUs := by
    rcases peer.connect with _ | (_ | ⟨_, _, hdelay⟩) | _
    · exact Nat.zero_le _
    · exact le_rfl
    · exact hdelay
    · exact Nat.zero_le _
  rcases returned_cases h with ⟨-, waitedUs, hwaited, rfl⟩ | ⟨-, -, -, hdrain⟩
  · simp only
    omega
  · obtain ⟨k, hk, -, hwaited⟩ := end_of_drain hdrain
    have hsend := peer.send.delayUs_le
    rw [hk]
    simp only [Nat.add_mul, Nat.one_mul, Nat.zero_mul] at hwaited ⊢
    omega

variable (host port event) in
/-- Over any class of peers, one bound on the number of `recv` calls holds for all exactly when
none of them resets the connection under `send`, and they end the stream, or let `recv` time out,
within one bound. -/
theorem report_bounded_iff (Behaves : Peer → Prop) :
    ((∃ calls, ∀ peer, Behaves peer → ReturnsWithin host port event peer calls) ↔
      ∃ calls, ∀ peer, Behaves peer → peer.EndsWithin calls) ∧
    ∀ peer, (∃ calls, ReturnsWithin host port event peer calls) ↔
      (peer.Connects → peer.send.raisesSigpipe = false ∧ ∃ i, (peer.recv i).result ≤ 0) := by
  refine ⟨?_, ?_⟩
  · simp only [returnsWithin_iff]
  · intro peer
    simp only [returnsWithin_iff, Peer.EndsWithin]
    refine ⟨?_, ?_⟩
    · intro h hconnects
      obtain ⟨_, hends⟩ := h
      obtain ⟨hsignal, i, -, hend⟩ := hends hconnects
      exact ⟨hsignal, i, hend⟩
    · intro h
      by_cases hconnects : peer.Connects
      · obtain ⟨hsignal, i, hend⟩ := h hconnects
        exact ⟨i + 1, fun _ ↦ ⟨hsignal, i, Nat.lt_succ_self i, hend⟩⟩
      · exact ⟨0, fun hc ↦ absurd hc hconnects⟩

/-- A peer that answers one byte at a time, just before each timeout. -/
def drippingPeer : Peer where
  socketOpens := true
  hostParses := true
  connect := .connected
  send := .taken 300 0 (Nat.zero_le _)
  recv _ := .data [0x20] ⟨by decide, by decide⟩ 299999 (by decide)

theorem dripping_peer_stalls :
    ¬ ∃ calls, ReturnsWithin "192.168.10.10" 5000 ⟨"ACCEPTED", "OK", 2026, 12, "LOW"⟩
      drippingPeer calls := by
  intro h
  obtain ⟨calls, hreturns⟩ := h
  obtain ⟨-, i, -, hend⟩ := returnsWithin_iff.mp hreturns ⟨rfl, rfl, rfl⟩
  exact absurd hend (show ¬ (1 : ℤ) ≤ 0 by decide)

end DashboardClient

end SpaceSec
