import SpaceSec.Library.Binary64
import Mathlib.Data.List.DropRight
import Mathlib.Data.Int.Notation

namespace Python

inductive Exception
  | attributeError
  | typeError
  | keyError
  | valueError
  | zeroDivisionError
  | overflowError
  deriving DecidableEq

/-- A string, as its code points; an escape in JSON text may name one that is no `Char`. -/
abbrev Str := List ℕ

def str (s : String) : Str := s.toList.map Char.toNat

theorem str_beq (s t : String) : (str s == str t) = (s == t) := by
  rw [Bool.eq_iff_iff, beq_iff_eq, beq_iff_eq, str, str,
    List.map_inj_right fun _ _ ↦ Char.toNat_inj.mp, String.toList_inj]

/-- The numbers that arithmetic takes; a `bool` is an `int`. -/
inductive Number
  | int (n : ℤ)
  | float (x : Float)
  deriving DecidableEq

namespace Number

/-- `float(n)`: the nearest float, or an exception when it would be infinite. -/
def floatOfInt (n : ℤ) : Except Exception Float :=
  let x := Float.ofInt n
  if x.isInf then .error .overflowError else .ok x

def add : Number → Number → Except Exception Number
  | .int m, .int n => .ok (.int (m + n))
  | .int m, .float y => (floatOfInt m).map fun x ↦ .float (x + y)
  | .float x, .int n => (floatOfInt n).map fun y ↦ .float (x + y)
  | .float x, .float y => .ok (.float (x + y))

def nonneg : Number → Bool
  | .int n => 0 ≤ n
  | .float x => (0 : Float) ≤ x

/-- One of the numbers is a float and the other an integer beyond the range of floats. -/
def Incompatible : Number → Number → Prop
  | .int n, .float _ | .float _, .int n => (Float.ofInt n).isInf = true
  | _, _ => False

/-- `/`; the quotient of two integers is rounded once. -/
def truediv : Number → Number → Except Exception Float
  | .int m, .int n =>
    if n = 0 then .error .zeroDivisionError
    else
      let x := Binary64.divInt m n
      if x.isInf then .error .overflowError else .ok x
  | .int m, .float y => do
    let x ← floatOfInt m
    if y == 0 then .error .zeroDivisionError else .ok (x / y)
  | .float x, .int n => do
    let y ← floatOfInt n
    if y == 0 then .error .zeroDivisionError else .ok (x / y)
  | .float x, .float y => if y == 0 then .error .zeroDivisionError else .ok (x / y)

/-- A sum of `n` numbers has a mean that is an integer when rounded: it is finite, and so is the
quotient. -/
def Averageable : Number → ℕ → Prop
  | .int sum, n => sum.natAbs < Binary64.overflowBound * n
  | .float sum, n => sum.isFinite = true ∧ (Float.ofInt n).isInf = false

theorem floatOfInt_eq_error {n : ℤ} :
    (∃ ex, floatOfInt n = .error ex) ↔ (Float.ofInt n).isInf = true := by
  simp only [floatOfInt]
  split_ifs with h <;> simp [h]

theorem add_eq_error {x y : Number} : (∃ ex, x.add y = .error ex) ↔ x.Incompatible y := by
  have hmap (n : ℤ) (f : Float → Number) :
      (∃ ex, (floatOfInt n).map f = .error ex) ↔ (Float.ofInt n).isInf = true := by
    rw [← floatOfInt_eq_error]
    cases floatOfInt n <;> simp [Except.map]
  cases x with
  | int m =>
    cases y with
    | int n => simp [add, Incompatible]
    | float y => exact hmap m _
  | float x =>
    cases y with
    | int n => exact hmap n _
    | float y => simp [add, Incompatible]

/-- `round(x)` -/
def round (x : Float) : Except Exception ℤ :=
  match x.toModel.unpack with
  | .infinity _ => .error .overflowError
  | .notANumber => .error .valueError
  | .zero _ => .ok 0
  | .finite s m e _ => .ok (Binary64.nearestInt s m e)

theorem round_eq_ok {x : Float} : (∃ n, round x = .ok n) ↔ x.isFinite = true := by
  change _ ↔ x.toModel.unpack.isFinite = true
  rw [round]
  cases x.toModel.unpack with
  | infinity | notANumber => exact iff_of_false (fun h ↦ nomatch h.choose_spec) nofun
  | zero | finite => exact iff_of_true ⟨_, rfl⟩ rfl

theorem mean_eq_ok {sum : Number} {n : ℕ} (hn : 0 < n) :
    (∃ mean, (sum.truediv (.int n)).bind round = .ok mean) ↔ sum.Averageable n := by
  cases sum with
  | int sum =>
    have hn0 : (n : ℤ) ≠ 0 := by omega
    obtain ⟨hfinite, hover⟩ := Binary64.isFinite_divInt sum hn0
    rw [Int.natAbs_natCast] at hover
    rw [Averageable, ← not_le, ← hover, truediv, if_neg hn0]
    simp only
    cases hinf : (Binary64.divInt sum n).isInf with
    | true => exact iff_of_false (fun h ↦ nomatch h.choose_spec) (not_not.mpr rfl)
    | false =>
      rw [hinf] at hfinite
      exact iff_of_true (round_eq_ok.mpr hfinite) Bool.false_ne_true
  | float sum =>
    rw [Averageable, truediv, floatOfInt]
    cases hinf : (Float.ofInt n).isInf with
    | true => exact iff_of_false (fun h ↦ nomatch h.choose_spec) (fun h ↦ nomatch h.2)
    | false =>
      have hne : (Float.ofInt n == 0) = false := Binary64.ofNat_beq_zero hn hinf
      have hfinite : (sum / Float.ofInt n).isFinite = sum.isFinite :=
        Binary64.isFinite_div_ofNat hn hinf
      rw [← hfinite, ← round_eq_ok, and_iff_left rfl]
      simp only [Bool.false_eq_true, if_false]
      change (∃ mean, (if (Float.ofInt n == 0) = true then _ else _ : Except _ _).bind _ = _) ↔ _
      rw [hne, if_neg Bool.false_ne_true]
      rfl

theorem round_ne_zeroDivisionError (x : Float) : round x ≠ .error .zeroDivisionError := by
  rw [round]
  cases x.toModel.unpack <;> exact nofun

theorem mean_ne_zeroDivisionError (sum : Number) {n : ℕ} (hn : 0 < n) :
    (sum.truediv (.int n)).bind round ≠ .error .zeroDivisionError := by
  cases sum with
  | int sum =>
    rw [truediv, if_neg (show (n : ℤ) ≠ 0 by omega)]
    simp only
    split_ifs
    · exact nofun
    · exact round_ne_zeroDivisionError _
  | float sum =>
    rw [truediv, floatOfInt]
    cases hinf : (Float.ofInt n).isInf with
    | true => exact nofun
    | false =>
      have hne : (Float.ofInt n == 0) = false := Binary64.ofNat_beq_zero hn hinf
      simp only [Bool.false_eq_true, if_false]
      change (if (Float.ofInt n == 0) = true then _ else _ : Except _ _).bind _ ≠ _
      rw [hne, if_neg Bool.false_ne_true]
      exact round_ne_zeroDivisionError _

end Number

inductive Value
  | none
  | bool (b : Bool)
  | int (n : ℤ)
  | float (x : Float)
  | str (s : Str)
  | list (values : List Value)
  | dict (items : List (Str × Value))

abbrev Dict := List (Str × Value)

namespace Value

def truthy : Value → Bool
  | .none => false
  | .bool b => b
  | .int n => n ≠ 0
  | .float x => x != 0
  | .str s => !s.isEmpty
  | .list values => !values.isEmpty
  | .dict items => !items.isEmpty

def hashable : Value → Bool
  | .list _ | .dict _ => false
  | _ => true

def eqStr (value : Value) (s : Str) : Bool :=
  match value with
  | .str s' => s' == s
  | _ => false

mutual

/-- Every float in the value is finite, so that what `json.dumps` writes for it is JSON. -/
def isJson : Value → Bool
  | .float x => x.isFinite
  | .list values => isJsonList values
  | .dict items => isJsonItems items
  | _ => true

def isJsonList : List Value → Bool
  | [] => true
  | value :: values => value.isJson && isJsonList values

def isJsonItems : List (Str × Value) → Bool
  | [] => true
  | (_, value) :: items => value.isJson && isJsonItems items

end

/-- The value as a number, if `isinstance(value, (int, float))`. -/
def number? : Value → Option Number
  | .bool b => some (.int (if b then 1 else 0))
  | .int n => some (.int n)
  | .float x => some (.float x)
  | _ => Option.none

end Value

namespace Dict

def get (d : Dict) (key : Str) : Option Value := d.lookup key

def getItem (d : Dict) (key : Str) : Except Exception Value :=
  match d.get key with
  | some value => .ok value
  | none => .error .keyError

def setdefault (d : Dict) (key : Str) (value : Value) : Dict :=
  if (d.get key).isSome then d else d ++ [(key, value)]

def setItem (d : Dict) (key : Str) (value : Value) : Dict :=
  if (d.get key).isSome then d.map fun item ↦ if item.1 == key then (key, value) else item
  else d ++ [(key, value)]

theorem get_append_singleton (d : Dict) (key key' : Str) (value : Value) :
    (d ++ [(key, value)]).get key' = (d.get key').or (if key' = key then some value else none) := by
  rw [get, get, List.lookup_append, List.lookup_cons, List.lookup_nil]
  by_cases hkey : key' = key
  · rw [if_pos hkey, beq_iff_eq.mpr hkey]
  · rw [if_neg hkey, beq_eq_false_iff_ne.mpr hkey]

theorem get_setdefault (d : Dict) (key key' : Str) (value : Value) : (d.setdefault key value).get
    key' = (d.get key').or (if key' = key then some value else none) := by
  rw [setdefault]
  split_ifs with hsome hkey hkey
  · rw [hkey, Option.or_of_isSome hsome]
  · rw [Option.or_none]
  · rw [get_append_singleton, if_pos hkey]
  · rw [get_append_singleton, if_neg hkey]

theorem get_setItem (d : Dict) (key key' : Str) (value : Value) :
    (d.setItem key value).get key' = if key' = key then some value else d.get key' := by
  rw [setItem]
  split_ifs with hsome hkey hkey
  · subst hkey
    rw [get] at hsome ⊢
    induction d with
    | nil => cases hsome
    | cons item d ih =>
      rw [List.map_cons]
      by_cases hitem : item.1 = key'
      · rw [if_pos (beq_iff_eq.mpr hitem), List.lookup_cons_self]
      · have hne : (key' == item.1) = false := beq_eq_false_iff_ne.mpr (Ne.symm hitem)
        rw [List.lookup_cons, hne] at hsome
        rw [if_neg (by simpa using hitem), List.lookup_cons, hne]
        exact ih hsome
  · rw [get, get]
    clear hsome
    induction d with
    | nil => rfl
    | cons item d ih =>
      rw [List.map_cons, List.lookup_cons, List.lookup_cons]
      by_cases hitem : item.1 = key
      · have hne : (key' == key) = false := beq_eq_false_iff_ne.mpr hkey
        rw [if_pos (beq_iff_eq.mpr hitem), hitem, hne]
        exact ih
      · rw [if_neg (by simpa using hitem), ih]
  · subst hkey
    rw [get_append_singleton, if_pos rfl, Option.not_isSome_iff_eq_none.mp hsome, Option.none_or]
  · rw [get_append_singleton, if_neg hkey, Option.or_none]

/-- The key has a value already. -/
theorem setdefault_of_isSome {d : Dict} {key : Str} (h : (d.get key).isSome) (value : Value) :
    d.setdefault key value = d := if_pos h

end Dict

/-- `append` on a `deque` with this `maxlen` drops the oldest item of a full one. -/
def dequeAppend {α : Type} (maxlen : ℕ) (items : List α) (x : α) : List α :=
  let items := items ++ [x]
  if maxlen < items.length then items.tail else items

theorem mem_dequeAppend {α : Type} {maxlen : ℕ} {items : List α} {x y : α}
    (h : y ∈ dequeAppend maxlen items x) : y ∈ items ∨ y = x := by
  rw [dequeAppend] at h
  have hmem : y ∈ items ++ [x] := by
    split_ifs at h
    · exact List.mem_of_mem_tail h
    · exact h
  simpa using hmem

theorem dequeAppend_rtake {α : Type} (maxlen : ℕ) (xs : List α) (x : α) :
    dequeAppend maxlen (xs.rtake maxlen) x = (xs ++ [x]).rtake maxlen := by
  simp only [dequeAppend, List.rtake, List.length_append, List.length_drop, List.length_singleton]
  by_cases h : maxlen ≤ xs.length
  · rw [if_pos (by omega), ← List.drop_append_of_le_length (by omega), List.tail_drop]
    congr 1
    omega
  · rw [if_neg (by omega), Nat.sub_eq_zero_of_le (by omega), Nat.sub_eq_zero_of_le (by omega),
      List.drop_zero, List.drop_zero]

theorem rtake_rtake {α : Type} {m n : ℕ} (h : m ≤ n) (xs : List α) :
    (xs.rtake n).rtake m = xs.rtake m := by
  simp only [List.rtake, List.drop_drop, List.length_drop]
  congr 1
  omega

end Python
