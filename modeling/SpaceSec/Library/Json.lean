import SpaceSec.Library.Decimal
import SpaceSec.Library.Python
import Mathlib.Data.List.TakeDrop

namespace Python.Json

def isSpace (c : Char) : Bool := c == ' ' || c == '\t' || c == '\n' || c == '\r'

def skipSpace (s : List Char) : List Char := s.dropWhile isSpace

def hexValue (c : Char) : Option ℕ :=
  if c.isDigit then some (c.toNat - '0'.toNat)
  else if 'a' ≤ c ∧ c ≤ 'f' then some (c.toNat - 'a'.toNat + 10)
  else if 'A' ≤ c ∧ c ≤ 'F' then some (c.toNat - 'A'.toNat + 10)
  else none

/-- Like every `scan`, it answers what it read and the text after it. -/
def scanHex4 : List Char → Option (ℕ × List Char)
  | a :: b :: c :: d :: s => do
    let a ← hexValue a
    let b ← hexValue b
    let c ← hexValue c
    let d ← hexValue d
    return (((a * 16 + b) * 16 + c) * 16 + d, s)
  | _ => none

/-- The code point after `\u`; a surrogate that begins no pair stands for itself. -/
def scanUnicode (s : List Char) : Option (ℕ × List Char) := do
  let (high, s) ← scanHex4 s
  match s with
  | '\\' :: 'u' :: t =>
    if 0xD800 ≤ high ∧ high ≤ 0xDBFF then
      let (low, t) ← scanHex4 t
      if 0xDC00 ≤ low ∧ low ≤ 0xDFFF then
        return (0x10000 + (high - 0xD800) * 0x400 + (low - 0xDC00), t)
    return (high, s)
  | _ => return (high, s)

def escape (c : Char) : Option ℕ :=
  [('"', '"'), ('\\', '\\'), ('/', '/'), ('b', '\x08'), ('f', '\x0c'), ('n', '\n'), ('r', '\r'),
    ('t', '\t')].lookup c |>.map Char.toNat

/-- A string after its opening quote. -/
def scanString : ℕ → List Char → Option (Str × List Char)
  | 0, _ => none
  | fuel + 1, s =>
    match s with
    | [] => none
    | '"' :: s => some ([], s)
    | '\\' :: 'u' :: s => do
      let (c, s) ← scanUnicode s
      let (rest, s) ← scanString fuel s
      return (c :: rest, s)
    | '\\' :: c :: s => do
      let c ← escape c
      let (rest, s) ← scanString fuel s
      return (c :: rest, s)
    | c :: s =>
      if c.toNat < 0x20 then none
      else do
        let (rest, s) ← scanString fuel s
        return (c.toNat :: rest, s)

def scanDigits (s : List Char) : List Char × List Char := s.span Char.isDigit

def scanSign : List Char → Bool × List Char
  | '-' :: s => (true, s)
  | s => (false, s)

def scanInteger : List Char → Option (List Char × List Char)
  | '0' :: s => some (['0'], s)
  | s =>
    let (digits, s) := scanDigits s
    if digits.isEmpty then none else some (digits, s)

def scanFraction : List Char → Option (List Char × List Char)
  | '.' :: s =>
    let (digits, s) := scanDigits s
    if digits.isEmpty then none else some (digits, s)
  | _ => none

def scanExponent : List Char → Option (ℤ × List Char)
  | c :: s =>
    if c = 'e' ∨ c = 'E' then
      let (negative, s) :=
        match s with
        | '+' :: s => (false, s)
        | s => scanSign s
      let (digits, s) := scanDigits s
      let n : ℤ := Nat.ofDigitChars 10 digits 0
      if digits.isEmpty then none else some (if negative then -n else n, s)
    else none
  | [] => none

/-- `int` refuses text with more digits. -/
def intMaxStrDigits : ℕ := 4300

def intOf (negative : Bool) (digits : List Char) : Option Value :=
  let n : ℤ := Nat.ofDigitChars 10 digits 0
  if intMaxStrDigits < digits.length then none else some (.int (if negative then -n else n))

/-- The nearest float to a decimal fraction. -/
def floatOf (negative : Bool) (mantissa : ℕ) (scale : ℤ) : Value :=
  let x := Binary64.divInt (mantissa * 10 ^ scale.toNat : ℕ) (10 ^ (-scale).toNat : ℕ)
  .float (if negative then -x else x)

def scanNumber (s : List Char) : Option (Value × List Char) := do
  let (negative, s) := scanSign s
  let (integer, s) ← scanInteger s
  match scanFraction s, scanExponent s with
  | none, none => return (← intOf negative integer, s)
  | none, some (e, s) => return (floatOf negative (Nat.ofDigitChars 10 integer 0) e, s)
  | some (fraction, s), _ =>
    let (e, s) := (scanExponent s).getD (0, s)
    return (floatOf negative (Nat.ofDigitChars 10 (integer ++ fraction) 0) (e - fraction.length), s)

def constants : List (List Char × Value) :=
  [("null".toList, .none), ("true".toList, .bool true), ("false".toList, .bool false),
    ("NaN".toList, .float (0 / 0)), ("Infinity".toList, .float (1 / 0)),
    ("-Infinity".toList, .float (-1 / 0))]

def scanConstant (s : List Char) : Option (Value × List Char) :=
  constants.findSome? fun (text, value) ↦
    if text.isPrefixOf s then some (value, s.drop text.length) else none

mutual

def scanOnce : ℕ → List Char → Option (Value × List Char)
  | 0, _ => none
  | fuel + 1, s =>
    match s with
    | '"' :: s => (scanString fuel s).map fun (text, s) ↦ (.str text, s)
    | '\x7b' :: s =>
      match skipSpace s with
      | '\x7d' :: s => some (.dict [], s)
      | '"' :: s => scanMembers fuel [] s
      | _ => none
    | '[' :: s =>
      match skipSpace s with
      | ']' :: s => some (.list [], s)
      | s => scanItems fuel [] s
    | s => (scanNumber s).or (scanConstant s)

/-- An object's members from the key on whose opening quote was read. -/
def scanMembers : ℕ → Dict → List Char → Option (Value × List Char)
  | 0, _, _ => none
  | fuel + 1, d, s => do
    let (key, s) ← scanString fuel s
    match skipSpace s with
    | ':' :: s =>
      let (value, s) ← scanOnce fuel (skipSpace s)
      let d := Dict.setItem d key value
      match skipSpace s with
      | '\x7d' :: s => return (.dict d, s)
      | ',' :: s =>
        match skipSpace s with
        | '"' :: s => scanMembers fuel d s
        | _ => none
      | _ => none
    | _ => none

def scanItems : ℕ → List Value → List Char → Option (Value × List Char)
  | 0, _, _ => none
  | fuel + 1, values, s => do
    let (value, s) ← scanOnce fuel s
    let values := values ++ [value]
    match skipSpace s with
    | ']' :: s => return (.list values, s)
    | ',' :: s => scanItems fuel values (skipSpace s)
    | _ => none

end

/-- `json.loads`, `none` where it raises, without a limit on the nesting. No character takes more
than two calls. -/
def loads (s : List Char) : Option Value := do
  let (value, rest) ← scanOnce (2 * s.length + 1) (skipSpace s)
  if (skipSpace rest).isEmpty then some value else none

/-- A character that stands for itself in a string. -/
def Plain (c : Char) : Prop := 0x20 ≤ c.toNat ∧ c ≠ '"' ∧ c ≠ '\\'

def intText (n : ℤ) : List Char := (if n < 0 then ['-'] else []) ++ Nat.toDigits 10 n.natAbs

/-- No number goes on with this text. -/
def EndsNumber (rest : List Char) : Prop :=
  ∀ c ∈ rest.head?, c.isDigit = false ∧ c ≠ '.' ∧ c ≠ 'e' ∧ c ≠ 'E'

inductive Scalar
  | text (s : List Char)
  | int (n : ℤ)

namespace Scalar

def render : Scalar → List Char
  | text s => '"' :: s ++ ['"']
  | int n => intText n

def value : Scalar → Value
  | text s => .str (s.map Char.toNat)
  | int n => .int n

def Writable : Scalar → Prop
  | text s => ∀ c ∈ s, Plain c
  | int n => (Nat.toDigits 10 n.natAbs).length ≤ intMaxStrDigits

end Scalar

abbrev Member := List Char × Scalar

def Member.render (m : Member) : List Char := '"' :: m.1 ++ '"' :: ':' :: m.2.render

def Member.Writable (m : Member) : Prop := (∀ c ∈ m.1, Plain c) ∧ m.2.Writable

/-- An object of at least one member, written without spaces. -/
def object (first : Member) (rest : List Member) : List Char :=
  '\x7b' :: first.render ++ rest.flatMap (fun m ↦ ',' :: m.render) ++ ['\x7d']

def setMember (d : Dict) (m : Member) : Dict := Dict.setItem d (m.1.map Char.toNat) m.2.value

def dictOf (members : List Member) : Dict := members.foldl setMember []

instance : DecidablePred Plain := fun _ ↦ inferInstanceAs (Decidable (_ ∧ _))

theorem scanString_cons {c : Char} (hc : Plain c) (fuel : ℕ) (s : List Char) :
    scanString (fuel + 1) (c :: s) =
      (scanString fuel s).map fun (text, s) ↦ (c.toNat :: text, s) := by
  obtain ⟨hctrl, hquote, hbackslash⟩ := hc
  rw [scanString]
  · rw [if_neg (by omega)]
    cases scanString fuel s <;> rfl
  · exact fun heq ↦ hquote heq
  · exact fun _ heq ↦ absurd heq hbackslash
  · exact fun _ _ heq ↦ absurd heq hbackslash

theorem scanString_plain {s : List Char} (hs : ∀ c ∈ s, Plain c) {fuel : ℕ}
    (hfuel : s.length < fuel) (rest : List Char) :
    scanString fuel (s ++ '"' :: rest) = some (s.map Char.toNat, rest) := by
  induction s generalizing fuel with
  | nil =>
    obtain ⟨fuel, rfl⟩ := Nat.exists_eq_succ_of_ne_zero (Nat.ne_of_gt hfuel)
    rfl
  | cons c s ih =>
    obtain ⟨fuel, rfl⟩ := Nat.exists_eq_succ_of_ne_zero (Nat.ne_zero_of_lt hfuel)
    rw [List.cons_append, Nat.succ_eq_add_one, scanString_cons (hs c List.mem_cons_self),
      ih (fun c hc ↦ hs c (List.mem_cons_of_mem _ hc)) (Nat.lt_of_succ_lt_succ hfuel)]
    rfl

theorem endsNumber_cons {c : Char}
    (hc : c.isDigit = false ∧ c ≠ '.' ∧ c ≠ 'e' ∧ c ≠ 'E') (s : List Char) :
    EndsNumber (c :: s) := by
  intro c' hc'
  obtain rfl := Option.some_inj.mp hc'
  exact hc

theorem scanDigits_append {digits rest : List Char} (hdigits : ∀ c ∈ digits, c.isDigit = true)
    (hrest : EndsNumber rest) : scanDigits (digits ++ rest) = (digits, rest) := by
  have hstop : rest.takeWhile Char.isDigit = [] ∧ rest.dropWhile Char.isDigit = rest := by
    cases rest with
    | nil => exact ⟨rfl, rfl⟩
    | cons c rest =>
      have hc := (hrest c rfl).1
      exact ⟨List.takeWhile_cons_of_neg (Bool.eq_false_iff.mp hc),
        List.dropWhile_cons_of_neg (Bool.eq_false_iff.mp hc)⟩
  rw [scanDigits, List.span_eq_takeWhile_dropWhile, List.takeWhile_append_of_pos hdigits,
    List.dropWhile_append_of_pos hdigits, hstop.1, hstop.2, List.append_nil]

theorem scanInteger_toDigits (n : ℕ) {rest : List Char} (hrest : EndsNumber rest) :
    scanInteger (Nat.toDigits 10 n ++ rest) = some (Nat.toDigits 10 n, rest) := by
  by_cases hn : n = 0
  · rw [hn, Nat.toDigits_zero]
    rfl
  · obtain ⟨c, digits, hdigits, hc⟩ := Decimal.toDigits_head_ne_zero (Nat.pos_of_ne_zero hn)
    have hscan := @scanDigits_append (Nat.toDigits 10 n) rest
      (fun _ ↦ Decimal.isDigit_of_mem) hrest
    rw [hdigits] at hscan ⊢
    rw [List.cons_append] at hscan ⊢
    rw [scanInteger]
    · rw [hscan]
      rfl
    · intro s heq
      exact hc (List.cons.inj heq).1

theorem scanFraction_of_ends {rest : List Char} (hrest : EndsNumber rest) :
    scanFraction rest = none := by
  rw [scanFraction.eq_def]
  split
  · exact absurd rfl (hrest '.' rfl).2.1
  · rfl

theorem scanExponent_of_ends {rest : List Char} (hrest : EndsNumber rest) :
    scanExponent rest = none := by
  cases rest with
  | nil => rfl
  | cons c rest =>
    obtain ⟨-, -, he, hE⟩ := hrest c rfl
    rw [scanExponent.eq_def]
    exact if_neg (not_or.mpr ⟨he, hE⟩)

theorem head_intText (n : ℤ) : ∃ c s, intText n = c :: s ∧ (c = '-' ∨ c.isDigit = true) := by
  rw [intText]
  split_ifs
  · exact ⟨'-', _, rfl, Or.inl rfl⟩
  · obtain ⟨c, digits, hdigits, hc⟩ := Decimal.toDigits_eq_cons n.natAbs
    exact ⟨c, digits, hdigits, Or.inr hc⟩

theorem head_ne {c c' : Char} (hc : c = '-' ∨ c.isDigit = true)
    (hc' : c' ≠ '-' ∧ c'.isDigit = false) : c ≠ c' := by
  intro heq
  rw [heq] at hc
  rcases hc with hc | hc
  · exact hc'.1 hc
  · exact Bool.false_ne_true (hc'.2.symm.trans hc)

theorem scanSign_intText (n : ℤ) (rest : List Char) :
    scanSign (intText n ++ rest) = (decide (n < 0), Nat.toDigits 10 n.natAbs ++ rest) := by
  by_cases hn : n < 0
  · rw [intText, if_pos hn, decide_eq_true hn]
    rfl
  · rw [intText, if_neg hn, decide_eq_false hn, List.nil_append]
    obtain ⟨c, digits, hdigits, hc⟩ := Decimal.toDigits_eq_cons n.natAbs
    rw [hdigits, List.cons_append, scanSign]
    intro s heq
    rw [(List.cons.inj heq).1] at hc
    cases hc

theorem scanNumber_intText {n : ℤ} (hn : (Scalar.int n).Writable) {rest : List Char}
    (hrest : EndsNumber rest) : scanNumber (intText n ++ rest) = some (.int n, rest) := by
  have hsize : ¬ intMaxStrDigits < (Nat.toDigits 10 n.natAbs).length := not_lt.mpr hn
  have hsign : (if decide (n < 0) = true then -(n.natAbs : ℤ) else n.natAbs) = n := by
    simp only [decide_eq_true_eq]
    split_ifs <;> omega
  simp only [scanNumber, scanSign_intText, scanInteger_toDigits _ hrest, Option.bind_eq_bind,
    Option.bind_some, scanFraction_of_ends hrest, scanExponent_of_ends hrest, intOf, if_neg hsize,
    Nat.ofDigitChars_ten_toDigits, hsign]
  rfl

theorem scanOnce_scalar {v : Scalar} (hv : v.Writable) {fuel : ℕ} (hfuel : v.render.length ≤ fuel)
    {rest : List Char} (hrest : EndsNumber rest) :
    scanOnce fuel (v.render ++ rest) = some (v.value, rest) := by
  cases v with
  | text s =>
    simp only [Scalar.render, List.cons_append, List.append_assoc, List.length_cons,
      List.length_append, List.nil_append] at hfuel ⊢
    obtain ⟨fuel, rfl⟩ := Nat.exists_eq_succ_of_ne_zero (show fuel ≠ 0 by omega)
    rw [scanOnce, scanString_plain hv (by omega)]
    rfl
  | int n =>
    have hscan := scanNumber_intText hv hrest
    simp only [Scalar.render] at hfuel ⊢
    obtain ⟨c, s, htext, hc⟩ := head_intText n
    rw [htext] at hscan hfuel ⊢
    obtain ⟨fuel, rfl⟩ := Nat.exists_eq_succ_of_ne_zero (show fuel ≠ 0 by simp at hfuel; omega)
    rw [List.cons_append] at hscan ⊢
    rw [scanOnce, hscan]
    · rfl
    · exact fun _ heq ↦ head_ne hc (by decide) (List.cons.inj heq).1
    · exact fun _ heq ↦ head_ne hc (by decide) (List.cons.inj heq).1
    · exact fun _ heq ↦ head_ne hc (by decide) (List.cons.inj heq).1

theorem forall_mem_intText {P : Char → Prop} (hsign : P '-') (hdigit : ∀ c, c.isDigit = true → P c)
    (n : ℤ) : ∀ c ∈ intText n, P c := by
  intro c hc
  rw [intText, List.mem_append] at hc
  rcases hc with hc | hc
  · split_ifs at hc
    · obtain rfl := List.mem_singleton.mp hc
      exact hsign
    · cases hc
  · exact hdigit c (Decimal.isDigit_of_mem hc)

theorem forall_mem_object {P : Char → Prop} (hpunctuation : ∀ c ∈ "\x7b\x7d\",:".toList, P c)
    {first : Member} {rest : List Member}
    (hmembers : ∀ m ∈ first :: rest, (∀ c ∈ m.1, P c) ∧ ∀ c ∈ m.2.render, P c) :
    ∀ c ∈ object first rest, P c := by
  have hrender : ∀ m ∈ first :: rest, ∀ c ∈ m.render, P c := by
    intro m hm c hc
    obtain ⟨hkey, hvalue⟩ := hmembers m hm
    simp only [Member.render, List.cons_append, List.mem_cons, List.mem_append] at hc
    rcases hc with rfl | hc | rfl | rfl | hc
    · exact hpunctuation _ (by decide)
    · exact hkey c hc
    · exact hpunctuation _ (by decide)
    · exact hpunctuation _ (by decide)
    · exact hvalue c hc
  intro c hc
  simp only [object, List.cons_append, List.mem_cons, List.mem_append, List.mem_flatMap,
    List.not_mem_nil, or_false] at hc
  rcases hc with rfl | (hc | ⟨m, hm, rfl | hc⟩) | rfl
  · exact hpunctuation _ (by decide)
  · exact hrender first List.mem_cons_self c hc
  · exact hpunctuation _ (by decide)
  · exact hrender m (List.mem_cons_of_mem _ hm) c hc
  · exact hpunctuation _ (by decide)

theorem skipSpace_render (v : Scalar) (rest : List Char) :
    skipSpace (v.render ++ rest) = v.render ++ rest := by
  cases v with
  | text s => rfl
  | int n =>
    obtain ⟨c, s, htext, hc⟩ := head_intText n
    have hspace : isSpace c = false := by
      simp only [isSpace, Bool.or_eq_false_iff, beq_eq_false_iff_ne]
      exact ⟨⟨⟨head_ne hc (by decide), head_ne hc (by decide)⟩, head_ne hc (by decide)⟩,
        head_ne hc (by decide)⟩
    rw [Scalar.render, htext, List.cons_append, skipSpace,
      List.dropWhile_cons_of_neg (Bool.eq_false_iff.mp hspace)]

theorem scanMembers_last {m : Member} (hm : m.Writable) {fuel : ℕ} (hkey : m.1.length < fuel)
    (hvalue : m.2.render.length ≤ fuel) (d : Dict) (s : List Char) :
    scanMembers (fuel + 1) d (m.1 ++ '"' :: ':' :: (m.2.render ++ '\x7d' :: s)) =
      some (.dict (setMember d m), s) := by
  have hends : EndsNumber ('\x7d' :: s) := endsNumber_cons (by decide) s
  rw [scanMembers, scanString_plain hm.1 hkey]
  change (scanOnce fuel (skipSpace _)).bind _ = _
  rw [skipSpace_render, scanOnce_scalar hm.2 hvalue hends]
  rfl

theorem scanMembers_next {m : Member} (hm : m.Writable) {fuel : ℕ} (hkey : m.1.length < fuel)
    (hvalue : m.2.render.length ≤ fuel) (d : Dict) (s : List Char) :
    scanMembers (fuel + 1) d (m.1 ++ '"' :: ':' :: (m.2.render ++ ',' :: '"' :: s)) =
      scanMembers fuel (setMember d m) s := by
  have hends : EndsNumber (',' :: '"' :: s) := endsNumber_cons (by decide) _
  rw [scanMembers, scanString_plain hm.1 hkey]
  change (scanOnce fuel (skipSpace _)).bind _ = _
  rw [skipSpace_render, scanOnce_scalar hm.2 hvalue hends]
  rfl

/-- The text of an object after the opening quote of its first key. -/
def membersText (first : Member) (rest : List Member) : List Char :=
  first.1 ++ '"' :: ':' :: (first.2.render ++ (rest.flatMap (fun m ↦ ',' :: m.render) ++ ['\x7d']))

theorem scanMembers_membersText {m : Member} {ms : List Member}
    (hwritable : ∀ m' ∈ m :: ms, m'.Writable) {fuel : ℕ} (hfuel : (membersText m ms).length < fuel)
    (d : Dict) :
    scanMembers fuel d (membersText m ms) = some (.dict ((m :: ms).foldl setMember d), []) := by
  induction ms generalizing m fuel d with
  | nil =>
    simp only [membersText, List.length_append, List.length_cons] at hfuel
    obtain ⟨fuel, rfl⟩ := Nat.exists_eq_succ_of_ne_zero (show fuel ≠ 0 by omega)
    exact scanMembers_last (hwritable m List.mem_cons_self) (by omega) (by omega) d []
  | cons m' ms ih =>
    have htext : membersText m (m' :: ms) =
        m.1 ++ '"' :: ':' :: (m.2.render ++ ',' :: '"' :: membersText m' ms) := by
      simp [membersText, Member.render]
    rw [htext] at hfuel ⊢
    simp only [List.length_append, List.length_cons] at hfuel
    obtain ⟨fuel, rfl⟩ := Nat.exists_eq_succ_of_ne_zero (show fuel ≠ 0 by omega)
    rw [Nat.succ_eq_add_one,
      scanMembers_next (hwritable m List.mem_cons_self) (by omega) (by omega)]
    exact ih (fun m hm ↦ hwritable m (List.mem_cons_of_mem _ hm)) (by omega) _

/-- What is written as an object is read back as the dictionary of its members. -/
theorem loads_object {first : Member} {rest : List Member}
    (hwritable : ∀ m ∈ first :: rest, m.Writable) :
    loads (object first rest) = some (.dict (dictOf (first :: rest))) := by
  have htext : object first rest = '\x7b' :: '"' :: membersText first rest := by
    simp [object, membersText, Member.render]
  have hmembers := @scanMembers_membersText first rest hwritable
    (2 * (object first rest).length) (by rw [htext]; simp only [List.length_cons]; omega) []
  rw [htext] at hmembers ⊢
  rw [loads]
  change (scanMembers _ [] (membersText first rest)).bind _ = _
  rw [hmembers]
  rfl

end Python.Json
