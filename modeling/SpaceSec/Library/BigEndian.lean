import Mathlib.Algebra.Order.Ring.Nat
import Mathlib.Data.Nat.Notation
import Mathlib.Tactic.Ring

namespace BigEndian

/-- The number a byte string spells, most significant byte first. -/
def value : List UInt8 → ℕ
  | [] => 0
  | b :: bs => b.toNat * 256 ^ bs.length + value bs

def bytes : ℕ → ℕ → List UInt8
  | 0, _ => []
  | n + 1, v => UInt8.ofNat (v / 256 ^ n) :: bytes n v

@[simp] theorem length_bytes (n v : ℕ) : (bytes n v).length = n := by
  induction n with
  | zero => rfl
  | succ n ih => rw [bytes, List.length_cons, ih]

theorem value_lt (bs : List UInt8) : value bs < 256 ^ bs.length := by
  induction bs with
  | nil => decide
  | cons b bs ih =>
    have hb : b.toNat + 1 ≤ 256 := b.toNat_lt
    calc value (b :: bs) < b.toNat * 256 ^ bs.length + 256 ^ bs.length :=
          Nat.add_lt_add_left ih _
      _ = (b.toNat + 1) * 256 ^ bs.length := (Nat.succ_mul _ _).symm
      _ ≤ 256 * 256 ^ bs.length := Nat.mul_le_mul_right _ hb
      _ = 256 ^ (b :: bs).length := by rw [List.length_cons, Nat.pow_succ, Nat.mul_comm]

theorem value_bytes (n v : ℕ) : value (bytes n v) = v % 256 ^ n := by
  induction n with
  | zero => simp [bytes, value, Nat.mod_one]
  | succ n ih =>
    have hbyte : (UInt8.ofNat (v / 256 ^ n)).toNat = v / 256 ^ n % 256 := by simp
    rw [bytes, value, length_bytes, hbyte, ih, Nat.mod_pow_succ]
    ring

theorem value_bytes_of_lt {n v : ℕ} (h : v < 256 ^ n) : value (bytes n v) = v :=
  (value_bytes n v).trans (Nat.mod_eq_of_lt h)

theorem value_injective {bs cs : List UInt8} (hlen : bs.length = cs.length)
    (h : value bs = value cs) : bs = cs := by
  induction bs generalizing cs with
  | nil => exact (List.eq_nil_of_length_eq_zero hlen.symm).symm
  | cons b bs ih =>
    cases cs with
    | nil => simp at hlen
    | cons c cs =>
      have hlen' : bs.length = cs.length := Nat.succ.inj hlen
      have hc := value_lt cs
      simp only [value, hlen'] at h
      have hb := hlen' ▸ value_lt bs
      have hpos : 0 < 256 ^ cs.length := Nat.pow_pos (by decide)
      have hhead : b.toNat = c.toNat := by
        have hdiv := congrArg (· / 256 ^ cs.length) h
        simpa only [Nat.mul_comm _ (256 ^ cs.length), Nat.mul_add_div hpos,
          Nat.div_eq_of_lt hb, Nat.div_eq_of_lt hc, Nat.add_zero] using hdiv
      rw [UInt8.toNat_inj.mp hhead, ih hlen' (by rw [hhead] at h; omega)]

theorem bytes_value {bs : List UInt8} {n : ℕ} (h : bs.length = n) :
    bytes n (value bs % 256 ^ n) = bs := by
  subst h
  apply value_injective (length_bytes _ _)
  rw [value_bytes, Nat.mod_mod, Nat.mod_eq_of_lt (value_lt bs)]

theorem shiftLeft_or (v b : ℕ) (hb : b < 256) : v <<< 8 ||| b = v * 256 + b := by
  rw [← Nat.shiftLeft_add_eq_or_of_lt (by omega), Nat.shiftLeft_eq]

theorem shiftLeft_or_four (a b c d : ℕ) (hb : b < 256) (hc : c < 256) (hd : d < 256) :
    a <<< 24 ||| b <<< 16 ||| c <<< 8 ||| d = ((a * 256 + b) * 256 + c) * 256 + d := by
  have hnest : a <<< 24 ||| b <<< 16 ||| c <<< 8 ||| d =
      ((a <<< 8 ||| b) <<< 8 ||| c) <<< 8 ||| d := by
    simp only [Nat.shiftLeft_or_distrib, ← Nat.shiftLeft_add]
  rw [hnest, shiftLeft_or _ _ hb, shiftLeft_or _ _ hc, shiftLeft_or _ _ hd]

theorem and_mask (v : ℕ) : v &&& 255 = v % 256 := Nat.and_two_pow_sub_one_eq_mod v 8

end BigEndian
