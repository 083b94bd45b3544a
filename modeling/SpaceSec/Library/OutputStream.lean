import Mathlib.Data.List.Basic
import Mathlib.Data.Nat.Notation

/-- The text a C++ `std::ostringstream` holds, and the formatting state that its operators read. -/
structure OutputStream where
  text : List Char := []
  radix : ℕ := 10
  fill : Char := ' '
  width : ℕ := 0
  upper : Bool := false

namespace OutputStream

/-- Every formatted item is padded on the left up to the width, which then returns to zero;
the other settings persist. -/
def put (s : OutputStream) (item : List Char) : OutputStream :=
  { s with text := s.text ++ (List.replicate (s.width - item.length) s.fill ++ item), width := 0 }

def digits (s : OutputStream) (n : ℕ) : List Char :=
  if s.upper then (Nat.toDigits s.radix n).map Char.toUpper else Nat.toDigits s.radix n

def putNat (s : OutputStream) (n : ℕ) : OutputStream := s.put (s.digits n)

def putString (s : OutputStream) (item : String) : OutputStream := s.put item.toList

/-- A signed integer has a sign in decimal only; in other bases its bits are written. -/
def putInt64 (s : OutputStream) (n : Int64) : OutputStream :=
  if s.radix = 10 then
    s.put ((if n < 0 then ['-'] else []) ++ Nat.toDigits 10 n.toInt.natAbs)
  else s.putNat n.toUInt64.toNat

def hex (s : OutputStream) : OutputStream := { s with radix := 16 }

def setw (s : OutputStream) (n : ℕ) : OutputStream := { s with width := n }

def setfill (s : OutputStream) (c : Char) : OutputStream := { s with fill := c }

def uppercase (s : OutputStream) : OutputStream := { s with upper := true }

def hexByte (b : UInt8) : List Char := [(b.toNat / 16).digitChar, (b.toNat % 16).digitChar]

/-- A number padded with zeros ends in its last digit. -/
theorem pad_succ {k : ℕ} (hk : 0 < k) (n : ℕ) :
    List.replicate (k + 1 - (Nat.toDigits 16 n).length) '0' ++ Nat.toDigits 16 n =
      List.replicate (k - (Nat.toDigits 16 (n / 16)).length) '0' ++ Nat.toDigits 16 (n / 16) ++
        [(n % 16).digitChar] := by
  by_cases hn : n < 16
  · obtain ⟨k, rfl⟩ := Nat.exists_eq_succ_of_ne_zero (Nat.ne_of_gt hk)
    rw [Nat.toDigits_of_lt_base hn, Nat.div_eq_of_lt hn, Nat.mod_eq_of_lt hn, Nat.toDigits_zero]
    simp only [List.length_singleton, Nat.succ_eq_add_one, Nat.add_sub_cancel,
      List.replicate_succ']
  · rw [Nat.toDigits_of_base_le (by decide) (Nat.le_of_not_lt hn), List.length_append,
      List.length_singleton, Nat.add_sub_add_right, List.append_assoc]

theorem pad_one {n : ℕ} (hn : n < 16) :
    List.replicate (1 - (Nat.toDigits 16 n).length) '0' ++ Nat.toDigits 16 n = [n.digitChar] := by
  rw [Nat.toDigits_of_lt_base hn]
  rfl

theorem pad_hex (n : ℕ) (h : n < 256) :
    List.replicate (2 - (Nat.toDigits 16 n).length) '0' ++ Nat.toDigits 16 n =
      [(n / 16).digitChar, (n % 16).digitChar] := by
  rw [pad_succ Nat.one_pos, pad_one (Nat.div_lt_of_lt_mul h)]
  rfl

theorem putNat_hexByte (s : OutputStream) (b : UInt8) (h : s.upper = false) :
    (((s.hex.setw 2).setfill '0').putNat b.toNat).text = s.text ++ hexByte b := by
  simp [putNat, digits, put, hex, setw, setfill, h, pad_hex b.toNat b.toNat_lt, hexByte]

theorem digitChar_injective {m n : ℕ} (hm : m < 16) (hn : n < 16)
    (h : m.digitChar = n.digitChar) : m = n := by
  have key : ∀ i j : Fin 16, (i : ℕ).digitChar = (j : ℕ).digitChar → i = j := by decide
  exact congrArg Fin.val (key ⟨m, hm⟩ ⟨n, hn⟩ h)

theorem hexByte_injective {b c : UInt8} (h : hexByte b = hexByte c) : b = c := by
  have hb := b.toNat_lt
  have hc := c.toNat_lt
  simp only [hexByte, List.cons.injEq, and_true] at h
  have hhigh := digitChar_injective (by omega) (by omega) h.1
  have hlow := digitChar_injective (by omega) (by omega) h.2
  exact UInt8.toNat_inj.mp (by omega)

theorem flatMap_hexByte_injective {bs cs : List UInt8}
    (h : bs.flatMap hexByte = cs.flatMap hexByte) : bs = cs := by
  induction bs generalizing cs with
  | nil =>
    cases cs with
    | nil => rfl
    | cons c cs => simp [hexByte] at h
  | cons b bs ih =>
    cases cs with
    | nil => simp [hexByte] at h
    | cons c cs =>
      rw [List.flatMap_cons, List.flatMap_cons] at h
      obtain ⟨hhead, htail⟩ := List.append_inj h rfl
      rw [hexByte_injective hhead, ih htail]

theorem colon_not_mem_hexBytes (bs : List UInt8) : ':' ∉ bs.flatMap hexByte := by
  have key : ∀ i : Fin 16, ':' ≠ (i : ℕ).digitChar := by decide
  intro h
  obtain ⟨b, -, hb⟩ := List.mem_flatMap.mp h
  have hlt := b.toNat_lt
  simp only [hexByte, List.mem_cons, List.not_mem_nil, or_false] at hb
  rcases hb with hb | hb
  · exact key ⟨b.toNat / 16, by omega⟩ hb
  · exact key ⟨b.toNat % 16, by omega⟩ hb

end OutputStream
