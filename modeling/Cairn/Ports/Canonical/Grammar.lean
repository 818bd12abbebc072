import Cairn.Ports.Canonical.RoundTrip

/-!
# The JSON grammar the decoder accepts

RFC 8259 written down on its own terms: a syntax tree (`Json`), the texts that
spell a tree (`Derives`, whose whitespace is space, tab, line feed and carriage
return only), and what a tree denotes (`Json.value?`). A tree has no
denotation when one of its numbers has a fraction or an exponent or does not fit in
`i128`, or when one of its strings has an unpaired surrogate escape; an
object with a repeated key keeps the last one.

Nesting is counted as `parse_value` counts it: the depth of a value is the
number of containers around it, so a scalar and an empty container at the top
have depth 0.
-/

namespace Cairn.Ports.Canonical

open Cairn.Verified

/-! ## Syntax trees -/

/-- A hexadecimal digit of either case. -/
structure HexDigit where
  char : Char
  val : Nat
  spells : Parser.hexDigitVal? char = some val

/-- The four digits of a `\uXXXX` escape. -/
structure CodeUnit where
  a : HexDigit
  b : HexDigit
  c : HexDigit
  d : HexDigit

namespace CodeUnit

def digits (u : CodeUnit) : List Char := [u.a.char, u.b.char, u.c.char, u.d.char]

def val (u : CodeUnit) : Nat := ((u.a.val * 16 + u.b.val) * 16 + u.c.val) * 16 + u.d.val

/-- A high surrogate, the first of a pair. -/
def Leading (u : CodeUnit) : Prop := 0xD800 ≤ u.val ∧ u.val ≤ 0xDBFF

/-- A low surrogate, the second of a pair. -/
def Trailing (u : CodeUnit) : Prop := 0xDC00 ≤ u.val ∧ u.val ≤ 0xDFFF

instance (u : CodeUnit) : Decidable u.Leading := inferInstanceAs (Decidable (_ ∧ _))

instance (u : CodeUnit) : Decidable u.Trailing := inferInstanceAs (Decidable (_ ∧ _))

end CodeUnit

/-- The two-character escapes. -/
inductive ShortEscape where
  | quote | backslash | slash | b | f | n | r | t
deriving DecidableEq

namespace ShortEscape

/-- The character after the backslash. -/
def letter : ShortEscape → Char
  | quote => '"' | backslash => '\\' | slash => '/' | b => 'b'
  | f => 'f' | n => 'n' | r => 'r' | t => 't'

def char : ShortEscape → Char
  | quote => '"' | backslash => '\\' | slash => '/' | b => '\x08'
  | f => '\x0c' | n => '\n' | r => '\r' | t => '\t'

end ShortEscape

/-- A character that stands for itself in a string literal. -/
def Unescaped (c : Char) : Prop := c ≠ '"' ∧ c ≠ '\\' ∧ 0x20 ≤ c.toNat

/-- One `char` of the string grammar. -/
inductive Piece where
  | plain (c : Char) (h : Unescaped c)
  | short (e : ShortEscape)
  | unicode (u : CodeUnit)

def Piece.text : Piece → List Char
  | .plain c _ => [c]
  | .short e => ['\\', e.letter]
  | .unicode u => '\\' :: 'u' :: u.digits

/-- A string literal with its quotes. -/
def stringText (pieces : List Piece) : List Char := '"' :: (pieces.flatMap Piece.text ++ ['"'])

/-- The characters a literal denotes; none when a surrogate escape is unpaired. -/
def textOf? : List Piece → Option (List Char)
  | [] => some []
  | .plain c _ :: rest => (c :: ·) <$> textOf? rest
  | .short e :: rest => (e.char :: ·) <$> textOf? rest
  | .unicode u :: rest =>
    if u.Trailing then none
    else if u.Leading then
      match rest with
      | .unicode v :: rest =>
        if v.Trailing then
          (Char.ofNat (0x10000 + (u.val - 0xD800) * 1024 + (v.val - 0xDC00)) :: ·) <$>
            textOf? rest
        else none
      | _ => none
    else (Char.ofNat u.val :: ·) <$> textOf? rest

/-- Every surrogate escape is one of a leading and trailing pair. -/
inductive Paired : List Piece → Prop where
  | nil : Paired []
  | plain {c h rest} : Paired rest → Paired (.plain c h :: rest)
  | short {e rest} : Paired rest → Paired (.short e :: rest)
  | scalar {u rest} : ¬u.Leading → ¬u.Trailing → Paired rest → Paired (.unicode u :: rest)
  | pair {u v rest} : u.Leading → v.Trailing → Paired rest →
      Paired (.unicode u :: .unicode v :: rest)

/-- A nonempty run of decimal digits. -/
structure Digits where
  chars : List Char
  digit : ∀ c ∈ chars, c.isDigit
  nonempty : chars ≠ []

structure Numeral where
  negative : Bool
  int : Digits
  /-- `0` stands alone: a longer run does not start with it. -/
  noLeadingZero : int.chars.head? = some '0' → int.chars = ['0']
  frac : Option Digits
  /-- The exponent's letter, its sign if any, and its digits. -/
  exp : Option ({ e : Char // e = 'e' ∨ e = 'E' } × Option { s : Char // s = '+' ∨ s = '-' } ×
    Digits)

namespace Numeral

def sign (n : Numeral) : List Char := if n.negative then ['-'] else []

def fracText (n : Numeral) : List Char :=
  match n.frac with
  | none => []
  | some ds => '.' :: ds.chars

def expText (n : Numeral) : List Char :=
  match n.exp with
  | none => []
  | some (e, s, ds) => e.1 :: ((s.map Subtype.val).toList ++ ds.chars)

def text (n : Numeral) : List Char := n.sign ++ (n.int.chars ++ (n.fracText ++ n.expText))

/-- The integer written before any fraction or exponent. -/
def integer (n : Numeral) : Int := Parser.intOfDigits n.negative n.int.chars

/-- Neither fraction nor exponent, and in the range of `i128`. -/
def Fits (n : Numeral) : Prop :=
  n.frac = none ∧ n.exp = none ∧ -(2 ^ 127) ≤ n.integer ∧ n.integer < 2 ^ 127

def value? (n : Numeral) : Option I128 :=
  if n.frac.isNone ∧ n.exp.isNone then I128.ofInt? n.integer else none

theorem value?_eq_some_iff {n : Numeral} {i : I128} :
    n.value? = some i ↔ n.frac = none ∧ n.exp = none ∧ I128.ofInt? n.integer = some i := by
  rw [value?]
  split_ifs with h
  · simp only [Option.isNone_iff_eq_none] at h
    simp [h]
  · simp only [Option.isNone_iff_eq_none] at h
    constructor
    · intro hnone; cases hnone
    · intro hall; exact absurd ⟨hall.1, hall.2.1⟩ h

end Numeral

/-- A JSON text as RFC 8259 sees it. -/
inductive Json where
  | null
  | bool (b : Bool)
  | number (n : Numeral)
  | string (s : List Piece)
  | array (items : List Json)
  | object (fields : List (List Piece × Json))

namespace Json

mutual

/-- The number of containers around the innermost value. -/
def depth : Json → Nat
  | .array items => depthItems items
  | .object fields => depthFields fields
  | _ => 0

def depthItems : List Json → Nat
  | [] => 0
  | s :: rest => max (s.depth + 1) (depthItems rest)

def depthFields : List (List Piece × Json) → Nat
  | [] => 0
  | (_, s) :: rest => max (s.depth + 1) (depthFields rest)

end

mutual

def numerals : Json → List Numeral
  | .number n => [n]
  | .array items => numeralsItems items
  | .object fields => numeralsFields fields
  | _ => []

def numeralsItems : List Json → List Numeral
  | [] => []
  | s :: rest => s.numerals ++ numeralsItems rest

def numeralsFields : List (List Piece × Json) → List Numeral
  | [] => []
  | (_, s) :: rest => s.numerals ++ numeralsFields rest

end

mutual

/-- Every string literal of the text, keys included. -/
def strings : Json → List (List Piece)
  | .string s => [s]
  | .array items => stringsItems items
  | .object fields => stringsFields fields
  | _ => []

def stringsItems : List Json → List (List Piece)
  | [] => []
  | s :: rest => s.strings ++ stringsItems rest

def stringsFields : List (List Piece × Json) → List (List Piece)
  | [] => []
  | (k, s) :: rest => k :: (s.strings ++ stringsFields rest)

end

mutual

/-- What the text denotes, if anything. -/
def value? : Json → Option Value
  | .null => some .null
  | .bool b => some (.bool b)
  | .number n => Value.int <$> n.value?
  | .string s => (fun cs => .string (String.ofList cs)) <$> textOf? s
  | .array items => Value.array <$> values? items
  | .object fields => Value.object <$> members? fields

def values? : List Json → Option (List Value)
  | [] => some []
  | s :: rest => do
      let v ← s.value?
      let vs ← values? rest
      some (v :: vs)

def members? : List (List Piece × Json) → Option (List (String × Value))
  | [] => some []
  | (k, s) :: rest => do
      let key ← textOf? k
      let v ← s.value?
      let members ← members? rest
      some ((String.ofList key, v) :: members)

end

/-- The numbers are integers of `i128` and the strings pair their surrogates. -/
def Admissible (s : Json) : Prop := (∀ n ∈ s.numerals, n.Fits) ∧ ∀ q ∈ s.strings, Paired q

theorem depth_array_le {items : List Json} {n : Nat} :
    (Json.array items).depth ≤ n ↔ ∀ s ∈ items, s.depth + 1 ≤ n := by
  rw [depth]
  induction items with
  | nil => simp [depthItems]
  | cons s rest ih => rw [depthItems, Nat.max_le, List.forall_mem_cons, ih]

theorem depth_object_le {fields : List (List Piece × Json)} {n : Nat} :
    (Json.object fields).depth ≤ n ↔ ∀ e ∈ fields, e.2.depth + 1 ≤ n := by
  rw [depth]
  induction fields with
  | nil => simp [depthFields]
  | cons e rest ih => rw [depthFields, Nat.max_le, List.forall_mem_cons, ih]

end Json

/-! ## When a text denotes something -/

theorem isSome_textOf?_iff (ps : List Piece) : (textOf? ps).isSome ↔ Paired ps := by
  fun_induction textOf? ps with
  | case1 => exact ⟨fun _ => .nil, fun _ => rfl⟩
  | case2 c h rest ih =>
    rw [Option.map_eq_map, Option.isSome_map, ih]
    exact ⟨.plain, fun hp => by cases hp; assumption⟩
  | case3 e rest ih =>
    rw [Option.map_eq_map, Option.isSome_map, ih]
    exact ⟨.short, fun hp => by cases hp; assumption⟩
  | case4 rest u htrail =>
    refine ⟨fun h => absurd h (by simp), fun hp => ?_⟩
    cases hp with
    | scalar _ hnot _ => exact absurd htrail hnot
    | pair hlead _ _ =>
      have h1 := hlead.2
      have h2 := htrail.1
      omega
  | case5 u htrail hlead v rest hv ih =>
    rw [Option.map_eq_map, Option.isSome_map, ih]
    refine ⟨.pair hlead hv, fun hp => ?_⟩
    cases hp with
    | scalar hnot _ _ => exact absurd hlead hnot
    | pair _ _ hrest => exact hrest
  | case6 u htrail hlead v rest hv =>
    refine ⟨fun h => absurd h (by simp), fun hp => ?_⟩
    cases hp with
    | scalar hnot _ _ => exact absurd hlead hnot
    | pair _ htrail' _ => exact absurd htrail' hv
  | case7 rest u htrail hlead hnone =>
    refine ⟨fun h => absurd h (by simp), fun hp => ?_⟩
    cases hp with
    | scalar hnot _ _ => exact absurd hlead hnot
    | pair _ _ _ => exact (hnone _ _ rfl).elim
  | case8 rest u htrail hlead ih =>
    rw [Option.map_eq_map, Option.isSome_map, ih]
    refine ⟨.scalar hlead htrail, fun hp => ?_⟩
    cases hp with
    | scalar _ _ hrest => exact hrest
    | pair hlead' _ _ => exact absurd hlead' hlead

theorem Numeral.isSome_value?_iff (n : Numeral) : n.value?.isSome ↔ n.Fits := by
  rw [Option.isSome_iff_exists]
  constructor
  · rintro ⟨i, hi⟩
    obtain ⟨hfrac, hexp, hofInt⟩ := Numeral.value?_eq_some_iff.mp hi
    rw [I128.ofInt?] at hofInt
    split_ifs at hofInt with hrange
    exact ⟨hfrac, hexp, hrange⟩
  · rintro ⟨hfrac, hexp, hrange⟩
    exact ⟨⟨n.integer, hrange⟩, Numeral.value?_eq_some_iff.mpr ⟨hfrac, hexp, dif_pos hrange⟩⟩

namespace Json

mutual

theorem isSome_value?_iff : ∀ s : Json, s.value?.isSome ↔ s.Admissible
  | .null => by simp [value?, Admissible, numerals, strings]
  | .bool b => by simp [value?, Admissible, numerals, strings]
  | .number n => by
      simp [value?, Admissible, numerals, strings, n.isSome_value?_iff]
  | .string s => by
      simp [value?, Admissible, numerals, strings, isSome_textOf?_iff]
  | .array items => by
      rw [value?, Option.map_eq_map, Option.isSome_map]
      exact isSome_values?_iff items
  | .object fields => by
      rw [value?, Option.map_eq_map, Option.isSome_map]
      exact isSome_members?_iff fields

theorem isSome_values?_iff : ∀ items : List Json, (values? items).isSome ↔
    (∀ n ∈ numeralsItems items, n.Fits) ∧ ∀ q ∈ stringsItems items, Paired q
  | [] => by simp [values?, numeralsItems, stringsItems]
  | s :: rest => by
      have h1 := isSome_value?_iff s
      have h2 := isSome_values?_iff rest
      rw [Admissible] at h1
      simp only [values?, numeralsItems, stringsItems, List.forall_mem_append]
      rw [and_and_and_comm, ← h1, ← h2]
      cases s.value? <;> cases values? rest <;> simp

theorem isSome_members?_iff : ∀ fields : List (List Piece × Json), (members? fields).isSome ↔
    (∀ n ∈ numeralsFields fields, n.Fits) ∧ ∀ q ∈ stringsFields fields, Paired q
  | [] => by simp [members?, numeralsFields, stringsFields]
  | (k, s) :: rest => by
      have h0 := isSome_textOf?_iff k
      have h1 := isSome_value?_iff s
      have h2 := isSome_members?_iff rest
      rw [Admissible] at h1
      simp only [members?, numeralsFields, stringsFields, List.forall_mem_append,
        List.forall_mem_cons]
      rw [and_left_comm, and_and_and_comm, ← h0, ← h1, ← h2]
      cases textOf? k <;> cases s.value? <;> cases members? rest <;> simp

end

end Json

/-! ## Texts -/

def Ws (a : List Char) : Prop := ∀ c ∈ a, Parser.isWhitespace c

mutual

/-- The texts that spell a value. -/
inductive Derives : List Char → Json → Prop where
  | null : Derives "null".toList .null
  | true : Derives "true".toList (.bool true)
  | false : Derives "false".toList (.bool false)
  | number (n : Numeral) : Derives n.text (.number n)
  | string (s : List Piece) : Derives (stringText s) (.string s)
  | emptyArray {a : List Char} : Ws a → Derives ('[' :: (a ++ [']'])) (.array [])
  | array {body : List Char} {items : List Json} : DerivesItems body items →
      Derives ('[' :: (body ++ [']'])) (.array items)
  | emptyObject {a : List Char} : Ws a → Derives ('{' :: (a ++ ['}'])) (.object [])
  | object {body : List Char} {fields : List (List Piece × Json)} : DerivesFields body fields →
      Derives ('{' :: (body ++ ['}'])) (.object fields)

/-- One or more items with the whitespace around them, between commas. -/
inductive DerivesItems : List Char → List Json → Prop where
  | one {a t b : List Char} {s : Json} : Ws a → Derives t s → Ws b →
      DerivesItems (a ++ (t ++ b)) [s]
  | more {a t b body : List Char} {s : Json} {items : List Json} : Ws a → Derives t s → Ws b →
      DerivesItems body items → DerivesItems (a ++ (t ++ (b ++ ',' :: body))) (s :: items)

/-- One or more members with the whitespace around them, between commas. -/
inductive DerivesFields : List Char → List (List Piece × Json) → Prop where
  | one {a b c t d : List Char} {k : List Piece} {s : Json} : Ws a → Ws b → Ws c →
      Derives t s → Ws d →
      DerivesFields (a ++ (stringText k ++ (b ++ ':' :: (c ++ (t ++ d))))) [(k, s)]
  | more {a b c t d body : List Char} {k : List Piece} {s : Json}
      {fields : List (List Piece × Json)} : Ws a → Ws b → Ws c → Derives t s → Ws d →
      DerivesFields body fields →
      DerivesFields (a ++ (stringText k ++ (b ++ ':' :: (c ++ (t ++ (d ++ ',' :: body))))))
        ((k, s) :: fields)

end

/-- `text` is a JSON text that spells `s`. -/
def JsonText (text : String) (s : Json) : Prop :=
  ∃ a t b, Ws a ∧ Derives t s ∧ Ws b ∧ text.toList = a ++ (t ++ b)

end Cairn.Ports.Canonical
