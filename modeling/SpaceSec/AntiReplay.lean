import SpaceSec.Packet
import SpaceSec.Library.OutputStream
import SpaceSec.Library.Decimal
import Mathlib.Data.Finset.Insert
import Mathlib.Algebra.Order.Group.Unbundled.Abs
import Mathlib.Algebra.Order.Group.Int

namespace SpaceSec

abbrev Nonce := Vector UInt8 nonceSize

structure AntiReplay where
  seenNonces : Finset (List Char)
  windowMs : UInt64
  deriving DecidableEq

namespace AntiReplay

def new (freshnessWindowMs : UInt64 := 30000) : AntiReplay := ⟨∅, freshnessWindowMs⟩

def makeNonceKey (sessionId : UInt32) (nonce : Nonce) : List Char :=
  (nonce.toList.foldl (fun oss b ↦ ((oss.hex.setw 2).setfill '0').putNat b.toNat)
    ((({} : OutputStream).putNat sessionId.toNat).putString ":")).text

def isFresh (guard : AntiReplay) (packetTimestampMs currentTimeMs : UInt64) : Bool :=
  let diff :=
    if currentTimeMs ≥ packetTimestampMs then currentTimeMs - packetTimestampMs
    else packetTimestampMs - currentTimeMs
  diff ≤ guard.windowMs

def isDuplicate (guard : AntiReplay) (sessionId : UInt32) (nonce : Nonce) : Bool :=
  makeNonceKey sessionId nonce ∈ guard.seenNonces

def markSeen (guard : AntiReplay) (sessionId : UInt32) (nonce : Nonce) : AntiReplay :=
  { guard with seenNonces := insert (makeNonceKey sessionId nonce) guard.seenNonces }

open OutputStream

theorem hexLoop_text (bs : List UInt8) (oss : OutputStream) (h : oss.upper = false) :
    (bs.foldl (fun oss b ↦ ((oss.hex.setw 2).setfill '0').putNat b.toNat) oss).text =
      oss.text ++ bs.flatMap hexByte := by
  induction bs generalizing oss with
  | nil => simp
  | cons b bs ih =>
    rw [List.foldl_cons, ih (((oss.hex.setw 2).setfill '0').putNat b.toNat) h,
      putNat_hexByte oss b h, List.flatMap_cons, List.append_assoc]

theorem makeNonceKey_eq (sessionId : UInt32) (nonce : Nonce) :
    makeNonceKey sessionId nonce =
      Nat.toDigits 10 sessionId.toNat ++ ':' :: nonce.toList.flatMap hexByte := by
  rw [makeNonceKey, hexLoop_text _ _ rfl]
  simp [putString, putNat, put, digits]

theorem makeNonceKey_inj {s s' : UInt32} {n n' : Nonce} :
    makeNonceKey s n = makeNonceKey s' n' ↔ s = s' ∧ n = n' := by
  refine ⟨?_, fun h ↦ by rw [h.1, h.2]⟩
  intro h
  rw [makeNonceKey_eq, makeNonceKey_eq] at h
  -- no digit and no hexadecimal byte holds the separator, so both texts split at it
  obtain ⟨hid, -, hnonce⟩ := (List.append_cons_inj_of_notMem (Decimal.not_mem_toDigits rfl _)
    (colon_not_mem_hexBytes _)).mp h
  exact ⟨UInt32.toNat_inj.mp (Decimal.toDigits_injective hid),
    Vector.toList_inj.mp (flatMap_hexByte_injective hnonce)⟩

/-- Both branches subtract the smaller reading from the larger, so nothing wraps. -/
theorem isFresh_iff (guard : AntiReplay) (ts now : UInt64) :
    guard.isFresh ts now = true ↔
      |(now.toNat : ℤ) - ts.toNat| ≤ guard.windowMs.toNat := by
  have hts := ts.toNat_lt
  simp only [isFresh, ge_iff_le, decide_eq_true_eq, UInt64.le_iff_toNat_le]
  split_ifs with h
  · rw [UInt64.toNat_sub_of_le _ _ (UInt64.le_iff_toNat_le.mpr h), abs_of_nonneg (by omega)]
    omega
  · rw [UInt64.toNat_sub_of_le _ _ (UInt64.le_iff_toNat_le.mpr (by omega)), abs_of_neg (by omega)]
    omega

theorem isDuplicate_new (window : UInt64) (s : UInt32) (n : Nonce) :
    (new window).isDuplicate s n = false := by
  simp [isDuplicate, new]

theorem isDuplicate_markSeen (guard : AntiReplay) (s s' : UInt32) (n n' : Nonce) :
    (guard.markSeen s n).isDuplicate s' n' = true ↔
      (s' = s ∧ n' = n) ∨ guard.isDuplicate s' n' = true := by
  simp [isDuplicate, markSeen, makeNonceKey_inj]

@[simp] theorem markSeen_windowMs (guard : AntiReplay) (s : UInt32) (n : Nonce) :
    (guard.markSeen s n).windowMs = guard.windowMs := rfl

theorem isDuplicate_foldl_markSeen (marked : List (UInt32 × Nonce)) (guard : AntiReplay)
    (s : UInt32) (n : Nonce) :
    (marked.foldl (fun guard k ↦ guard.markSeen k.1 k.2) guard).isDuplicate s n = true ↔
      (s, n) ∈ marked ∨ guard.isDuplicate s n = true := by
  induction marked generalizing guard with
  | nil => simp
  | cons k marked ih =>
    rw [List.foldl_cons, ih, isDuplicate_markSeen, List.mem_cons, Prod.ext_iff]
    exact or_left_comm.trans or_assoc.symm

/-- No two packet identities share a key, and so the set of keys answers for the packets that were
marked and for no others. -/
theorem nonce_key_injective :
    (∀ (s s' : UInt32) (n n' : Nonce), makeNonceKey s n = makeNonceKey s' n' → s = s' ∧ n = n') ∧
      ∀ (window : UInt64) (marked : List (UInt32 × Nonce)) (s : UInt32) (n : Nonce),
        (marked.foldl (fun guard k ↦ guard.markSeen k.1 k.2) (new window)).isDuplicate s n = true ↔
          (s, n) ∈ marked := by
  refine ⟨?_, ?_⟩
  · intro s s' n n' h
    exact makeNonceKey_inj.mp h
  · intro window marked s n
    rw [isDuplicate_foldl_markSeen, isDuplicate_new]
    simp only [Bool.false_eq_true, or_false]

end AntiReplay

end SpaceSec
