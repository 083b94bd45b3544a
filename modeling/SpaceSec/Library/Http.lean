import SpaceSec.Library.Decimal
import Mathlib.Data.List.DropRight
import Mathlib.Data.List.TakeDrop
import Mathlib.Data.Nat.Notation

namespace Http

def encodeUtf8 (s : List Char) : List UInt8 := s.flatMap String.utf8EncodeChar

def decodeUtf8 (bytes : List UInt8) : Option (List Char) :=
  bytes.toByteArray.utf8Decode?.map Array.toList

/-- The head of a request is ISO-8859-1. -/
def decodeLatin1 (bytes : List UInt8) : List Char := bytes.map fun b ↦ Char.ofNat b.toNat

/-- A request as a server reads it. -/
structure Request where
  method : List Char
  target : List Char
  version : List Char
  fields : List (List Char × List Char)
  body : List UInt8

def readLine (s : List UInt8) : Option (List Char × List UInt8) :=
  match s.span (· ≠ 10) with
  | (line, _ :: rest) =>
    let line := if line.getLast? = some 13 then line.dropLast else line
    some (decodeLatin1 line, rest)
  | (_, []) => none

def isBlank (c : Char) : Bool := c == ' ' || c == '\t'

def trim (s : List Char) : List Char := (s.dropWhile isBlank).rdropWhile isBlank

def parseField (line : List Char) : Option (List Char × List Char) :=
  match line.span (· ≠ ':') with
  | (name, _ :: value) => some (name, trim value)
  | (_, []) => none

/-- The fields up to the empty line; no more lines than bytes are left. -/
def readFields : ℕ → List UInt8 → Option (List (List Char × List Char) × List UInt8)
  | 0, _ => none
  | fuel + 1, s => do
    let (line, s) ← readLine s
    if line.isEmpty then return ([], s)
    let field ← parseField line
    let (fields, s) ← readFields fuel s
    return (field :: fields, s)

def contentLength (fields : List (List Char × List Char)) : Option ℕ :=
  match fields.find? fun field ↦ field.1.map Char.toLower == "content-length".toList with
  | none => some 0
  | some (_, value) =>
    if !value.isEmpty && value.all Char.isDigit then some (Nat.ofDigitChars 10 value 0) else none

/-- `none` when the bytes are no request, or end before the request does. -/
def readRequest (s : List UInt8) : Option Request := do
  let (line, s) ← readLine s
  let [method, target, version] := line.splitOn ' ' | none
  let (fields, s) ← readFields (s.length + 1) s
  let n ← contentLength fields
  if s.length < n then none else return { method, target, version, fields, body := s.take n }

def crlf : List Char := ['\r', '\n']

def fieldText (field : List Char × List Char) : List Char := field.1 ++ ':' :: ' ' :: field.2

def fieldsText (fields : List (List Char × List Char)) : List Char :=
  fields.flatMap (fun field ↦ fieldText field ++ crlf) ++ crlf

/-- The request as a client writes it, up to its body. -/
def Request.head (r : Request) : List Char :=
  r.method ++ ' ' :: (r.target ++ ' ' :: r.version) ++ crlf ++ fieldsText r.fields

/-- Printable ASCII. -/
def Printable (s : List Char) : Prop := ∀ c ∈ s, 0x20 ≤ c.toNat ∧ c.toNat < 0x7f

def FieldWellFormed (field : List Char × List Char) : Prop :=
  Printable (fieldText field) ∧ ':' ∉ field.1 ∧ trim field.2 = field.2

structure Request.WellFormed (r : Request) : Prop where
  printable : Printable (r.method ++ ' ' :: (r.target ++ ' ' :: r.version))
  words : ∀ word ∈ [r.method, r.target, r.version], ' ' ∉ word
  fields : ∀ field ∈ r.fields, FieldWellFormed field
  body : contentLength r.fields = some r.body.length

instance : DecidablePred Printable := fun s ↦ List.decidableBAll _ s

instance : DecidablePred FieldWellFormed := fun _ ↦ inferInstanceAs (Decidable (_ ∧ _))

theorem decode_encodeUtf8 (s : List Char) : decodeUtf8 (encodeUtf8 s) = some s := by
  change (List.utf8Encode s).utf8Decode?.map Array.toList = some s
  rw [List.utf8Decode?_utf8Encode]
  rfl

theorem encodeUtf8_append (s t : List Char) : encodeUtf8 (s ++ t) = encodeUtf8 s ++ encodeUtf8 t :=
  List.flatMap_append

theorem encodeUtf8_of_ascii {s : List Char} (hs : ∀ c ∈ s, c.toNat < 0x80) :
    encodeUtf8 s = s.map fun c ↦ c.val.toUInt8 := by
  induction s with
  | nil => rfl
  | cons c s ih =>
    have hc : c.utf8Size = 1 := Char.utf8Size_eq_one_iff.mpr (by
      have hc := hs c List.mem_cons_self
      exact UInt32.le_iff_toNat_le.mpr (Nat.le_of_lt_succ hc))
    rw [encodeUtf8, List.flatMap_cons, String.utf8EncodeChar_eq_singleton hc]
    exact congrArg _ (ih fun c hc ↦ hs c (List.mem_cons_of_mem _ hc))

theorem Printable.lt {s : List Char} (hs : Printable s) : ∀ c ∈ s, c.toNat < 0x80 :=
  fun c hc ↦ (hs c hc).2.trans (by decide)

theorem toNat_byte {c : Char} (hc : c.toNat < 0x80) : c.val.toUInt8.toNat = c.toNat := by
  rw [UInt32.toNat_toUInt8]
  exact Nat.mod_eq_of_lt (hc.trans (by decide))

theorem decodeLatin1_encodeUtf8 {s : List Char} (hs : ∀ c ∈ s, c.toNat < 0x80) :
    decodeLatin1 (encodeUtf8 s) = s := by
  have hchar : ∀ c ∈ s, Char.ofNat c.val.toUInt8.toNat = c := by
    intro c hc
    rw [toNat_byte (hs c hc), Char.ofNat_toNat]
  rw [encodeUtf8_of_ascii hs, decodeLatin1, List.map_map]
  exact (List.map_congr_left hchar).trans (List.map_id' s)

theorem Printable.le_byte {s : List Char} (hs : Printable s) {b : UInt8} (hb : b ∈ encodeUtf8 s) :
    0x20 ≤ b.toNat := by
  rw [encodeUtf8_of_ascii hs.lt] at hb
  obtain ⟨c, hc, rfl⟩ := List.mem_map.mp hb
  rw [toNat_byte (hs.lt c hc)]
  exact (hs c hc).1

theorem span_append_cons {α : Type} {p : α → Bool} {xs : List α} (hxs : ∀ x ∈ xs, p x = true)
    {x : α} (hx : p x = false) (rest : List α) :
    (xs ++ x :: rest).span p = (xs, x :: rest) := by
  rw [List.span_eq_takeWhile_dropWhile, List.takeWhile_append_of_pos hxs,
    List.dropWhile_append_of_pos hxs, List.takeWhile_cons_of_neg (Bool.eq_false_iff.mp hx),
    List.dropWhile_cons_of_neg (Bool.eq_false_iff.mp hx), List.append_nil]

theorem readLine_encodeUtf8 {line : List Char} (hline : Printable line) (rest : List UInt8) :
    readLine (encodeUtf8 (line ++ crlf) ++ rest) = some (line, rest) := by
  have hbytes : encodeUtf8 (line ++ crlf) ++ rest = (encodeUtf8 line ++ [13]) ++ 10 :: rest := by
    rw [encodeUtf8_append, List.append_assoc, List.append_assoc]
    rfl
  have hne : ∀ b ∈ encodeUtf8 line ++ [13], (decide (b ≠ (10 : UInt8))) = true := by
    intro b hb
    rw [decide_eq_true_eq]
    intro heq
    obtain rfl := heq
    rcases List.mem_append.mp hb with hb | hb
    · exact absurd (hline.le_byte hb) (by decide)
    · exact absurd (List.mem_singleton.mp hb) (by decide)
  rw [hbytes, readLine, span_append_cons hne (decide_eq_false (not_not.mpr rfl))]
  simp only [List.getLast?_concat, if_true, List.dropLast_concat, decodeLatin1_encodeUtf8 hline.lt]

theorem length_encodeUtf8 {s : List Char} (hs : ∀ c ∈ s, c.toNat < 0x80) :
    (encodeUtf8 s).length = s.length := by
  rw [encodeUtf8_of_ascii hs, List.length_map]

theorem trim_of_not_blank {s : List Char} (hs : ∀ c ∈ s, isBlank c = false) : trim s = s := by
  cases s with
  | nil => rfl
  | cons c s =>
    rw [trim, List.dropWhile_cons_of_neg (Bool.eq_false_iff.mp (hs c List.mem_cons_self)),
      List.rdropWhile_eq_self_iff]
    intro hne
    exact Bool.eq_false_iff.mp (hs _ (List.getLast_mem hne))

/-- The decimal text of the body's length is a well-formed `Content-Length` of it. -/
theorem contentLength_toDigits {fields : List (List Char × List Char)} {name : List Char} {n : ℕ}
    (h : (fields.find? fun field ↦ field.1.map Char.toLower == "content-length".toList) =
      some (name, Nat.toDigits 10 n)) : contentLength fields = some n := by
  have hdigits : (Nat.toDigits 10 n).all Char.isDigit = true :=
    List.all_eq_true.mpr fun _ ↦ Decimal.isDigit_of_mem
  have hempty : (Nat.toDigits 10 n).isEmpty = false :=
    List.isEmpty_eq_false_iff.mpr Nat.toDigits_ne_nil
  rw [contentLength, h]
  simp only [hdigits, hempty, Bool.not_false, Bool.and_self, if_true,
    Nat.ofDigitChars_ten_toDigits]

theorem isBlank_of_isDigit {c : Char} (hc : c.isDigit = true) : isBlank c = false := by
  simp only [isBlank, Bool.or_eq_false_iff, beq_eq_false_iff_ne]
  refine ⟨?_, ?_⟩ <;> intro heq <;> rw [heq] at hc <;> cases hc

theorem trim_toDigits (n : ℕ) : trim (Nat.toDigits 10 n) = Nat.toDigits 10 n :=
  trim_of_not_blank fun _ hc ↦ isBlank_of_isDigit (Decimal.isDigit_of_mem hc)

theorem printable_toDigits (n : ℕ) : Printable (Nat.toDigits 10 n) := by
  intro c hc
  have hrange := Decimal.isDigit_range (Decimal.isDigit_of_mem hc)
  omega

theorem parseField_fieldText {field : List Char × List Char} (hfield : FieldWellFormed field) :
    parseField (fieldText field) = some field := by
  obtain ⟨-, hname, hvalue⟩ := hfield
  have hne : ∀ c ∈ field.1, (decide (c ≠ ':')) = true := by
    intro c hc
    rw [decide_eq_true_eq]
    exact fun heq ↦ hname (heq ▸ hc)
  rw [parseField, fieldText, span_append_cons hne (decide_eq_false (not_not.mpr rfl))]
  change some (field.1, trim field.2) = some field
  rw [hvalue]

theorem readFields_fieldsText {fields : List (List Char × List Char)}
    (hfields : ∀ field ∈ fields, FieldWellFormed field) {rest : List UInt8} {fuel : ℕ}
    (hfuel : (encodeUtf8 (fieldsText fields)).length < fuel) :
    readFields fuel (encodeUtf8 (fieldsText fields) ++ rest) = some (fields, rest) := by
  obtain ⟨fuel, rfl⟩ := Nat.exists_eq_succ_of_ne_zero (Nat.ne_zero_of_lt hfuel)
  induction fields generalizing fuel with
  | nil =>
    rw [Nat.succ_eq_add_one, readFields]
    change (readLine (encodeUtf8 ([] ++ crlf) ++ rest)).bind _ = _
    rw [readLine_encodeUtf8 (fun _ hc ↦ absurd hc List.not_mem_nil)]
    rfl
  | cons field fields ih =>
    have hfield := hfields field List.mem_cons_self
    have htext : encodeUtf8 (fieldsText (field :: fields)) =
        encodeUtf8 (fieldText field ++ crlf) ++ encodeUtf8 (fieldsText fields) := by
      rw [← encodeUtf8_append, fieldsText, List.flatMap_cons, List.append_assoc, fieldsText]
    have hcrlf : (encodeUtf8 crlf).length = 2 := rfl
    have hempty : (fieldText field).isEmpty = false := by simp [fieldText]
    rw [htext] at hfuel ⊢
    rw [encodeUtf8_append, List.length_append, List.length_append] at hfuel
    obtain ⟨fuel, rfl⟩ := Nat.exists_eq_succ_of_ne_zero (show fuel ≠ 0 by omega)
    have hrest := ih (fun f hf ↦ hfields f (List.mem_cons_of_mem _ hf)) fuel (by omega)
    rw [Nat.succ_eq_add_one, readFields, List.append_assoc, readLine_encodeUtf8 hfield.1]
    simp only [Option.bind_eq_bind, Option.bind_some, hempty, Bool.false_eq_true, if_false,
      parseField_fieldText hfield]
    rw [← Nat.succ_eq_add_one, hrest]
    rfl

/-- A server reads what a client wrote, whatever comes after it. -/
theorem readRequest_head {r : Request} (hr : r.WellFormed) (rest : List UInt8) :
    readRequest (encodeUtf8 r.head ++ r.body ++ rest) = some r := by
  have hwords : (r.method ++ ' ' :: (r.target ++ ' ' :: r.version)).splitOn ' ' =
      [r.method, r.target, r.version] := by
    have hjoin : r.method ++ ' ' :: (r.target ++ ' ' :: r.version) =
        [' '].intercalate [r.method, r.target, r.version] := by
      simp [List.intercalate]
    rw [hjoin, List.splitOn_intercalate ' ' hr.words (by simp)]
  have hfields := @readFields_fieldsText r.fields hr.fields (r.body ++ rest)
    ((encodeUtf8 (fieldsText r.fields) ++ (r.body ++ rest)).length + 1)
    (by rw [List.length_append]; omega)
  rw [Request.head, encodeUtf8_append, List.append_assoc, List.append_assoc, readRequest,
    readLine_encodeUtf8 hr.printable]
  simp only [Option.bind_eq_bind, Option.bind_some, hwords, hfields, hr.body]
  rw [if_neg (by rw [List.length_append]; omega), List.take_left' rfl]
  rfl

end Http
