import Cairn.Ports.Canonical.Recognition

/-!
# The decoder on bytes

`Value::from_json` once more, as the source keeps its state: the whole text and
a byte position into it. A byte is read by index. A slice of the text is taken
by position, and one that leaves the text or starts or ends inside a character is a
panic, as is an `expect` that fails; both are outcomes of the model here, next to
the refusals, and so is a loop that runs out of turns.

None of them is ever the outcome: this decoder and the one on characters agree
on every text, in the value and in the error. The relation between their states is that the
position is the byte offset of the characters still to read (`Cursor.At`). It is
lost in one place only, behind an escape whose second character has several
bytes, and there both refuse at once.
-/

namespace Cairn.Ports.Canonical

open Cairn.Verified

/-- How a run ends without a value. -/
inductive Stop where
  | refused (e : CanonicalError)
  /-- A slice outside the text or off a character boundary, or a failed `expect`. -/
  | panicked
  /-- A loop that used up its turns. -/
  | unfinished
deriving DecidableEq

/-- The characters from a byte position on; none inside a character or past the end. -/
def charsFrom : List Char → Nat → Option (List Char)
  | [], n => if n = 0 then some [] else none
  | c :: cs, n =>
    if n = 0 then some (c :: cs)
    else if c.utf8Size ≤ n then charsFrom cs (n - c.utf8Size) else none

def utf8 (chars : List Char) : List UInt8 := chars.flatMap String.utf8EncodeChar

/-- The source's `Parser`: a text and a byte position. -/
structure Cursor where
  text : String
  pos : Nat

namespace Cursor

def bytes (c : Cursor) : List UInt8 := c.text.toUTF8.data.toList

/-- The byte at the position, written as the character with its code. -/
def peek (c : Cursor) : Option Char := c.bytes[c.pos]?.map Char.ofUInt8

def advance (c : Cursor) (n : Nat) : Cursor := ⟨c.text, c.pos + n⟩

/-- `while matches!(self.peek(), …) { self.pos += 1 }`. -/
def skipWhile (matching : Char → Bool) (c : Cursor) : Cursor :=
  c.advance ((c.bytes.drop c.pos).takeWhile fun b => matching (Char.ofUInt8 b)).length

def skipWhitespace (c : Cursor) : Cursor := c.skipWhile Parser.isWhitespace

def malformed (c : Cursor) (why : String) : Stop :=
  .refused (.malformed (why ++ " at byte " ++ toString c.pos))

/-- `&self.text[self.pos..]`. -/
def sliceFrom (c : Cursor) : Except Stop (List Char) :=
  match charsFrom c.text.toList c.pos with
  | some chars => .ok chars
  | none => .error .panicked

/-- `self.text.get(start..self.pos)`. -/
def getFrom (start : Nat) (c : Cursor) : Option (List Char) := do
  let tail ← charsFrom c.text.toList start
  let after ← charsFrom c.text.toList c.pos
  if start ≤ c.pos then some (tail.take (tail.length - after.length)) else none

/-- `&self.text[start..self.pos]`. -/
def slice (start : Nat) (c : Cursor) : Except Stop (List Char) :=
  match c.getFrom start with
  | some chars => .ok chars
  | none => .error .panicked

def expect (c : Cursor) (byte : Char) : Except Stop Cursor :=
  if c.peek = some byte then .ok (c.advance 1)
  else .error (c.malformed ("expected '" ++ String.singleton byte ++ "'"))

def literal (c : Cursor) (word : String) (value : Value) : Except Stop (Value × Cursor) := do
  let chars ← c.sliceFrom
  if word.toList.isPrefixOf chars then .ok (value, c.advance word.length)
  else .error (c.malformed "invalid literal")

/-! ## Numbers -/

def peekDigit (c : Cursor) : Bool := c.peek.any Char.isDigit

/-- The digits before any fraction or exponent. -/
def skipIntPart (c : Cursor) : Except Stop Cursor :=
  match c.peek with
  | some '0' =>
    if (c.advance 1).peekDigit then .error ((c.advance 1).malformed "leading zero")
    else .ok (c.advance 1)
  | some byte =>
    if byte.isDigit then .ok (c.skipWhile Char.isDigit)
    else .error (c.malformed "expected a digit")
  | none => .error (c.malformed "expected a digit")

def skipFraction (c : Cursor) : Except Stop (Bool × Cursor) :=
  if c.peek = some '.' then
    if (c.advance 1).peekDigit then .ok (true, (c.advance 1).skipWhile Char.isDigit)
    else .error ((c.advance 1).malformed "expected a digit after '.'")
  else .ok (false, c)

def skipExponent (c : Cursor) : Except Stop (Bool × Cursor) :=
  if c.peek = some 'e' ∨ c.peek = some 'E' then
    let c := c.advance 1
    let c := if c.peek = some '+' ∨ c.peek = some '-' then c.advance 1 else c
    if c.peekDigit then .ok (true, c.skipWhile Char.isDigit)
    else .error (c.malformed "expected a digit in the exponent")
  else .ok (false, c)

/-- An optional sign, and what is behind it. -/
def splitSign : List Char → Bool × List Char
  | '-' :: digits => (true, digits)
  | '+' :: digits => (false, digits)
  | digits => (false, digits)

/-- `parse::<i128>`: an optional sign and at least one digit, in range. -/
def parseI128 (chars : List Char) : Option I128 :=
  let (negative, digits) := splitSign chars
  if digits ≠ [] ∧ digits.all Char.isDigit then
    I128.ofInt? (Parser.intOfDigits negative digits)
  else none

def parseNumber (path : String) (c : Cursor) : Except Stop (Value × Cursor) := do
  let start := c.pos
  let c := if c.peek = some '-' then c.advance 1 else c
  let c ← c.skipIntPart
  let (fraction, c) ← c.skipFraction
  let (exponent, c) ← c.skipExponent
  if fraction || exponent then
    .error (.refused (.float path))
  else do
    let chars ← c.slice start
    match parseI128 chars with
    | some i => .ok (.int i, c)
    | none => .error (.refused (.integerOutOfRange path))

/-! ## Strings -/

/-- `is_ascii_hexdigit` on every byte of a slice. -/
def allHexDigits (chars : List Char) : Bool :=
  (utf8 chars).all fun b => (Parser.hexDigitVal? (Char.ofUInt8 b)).isSome

/-- `u32::from_str_radix` in base 16. -/
def fromStrRadix16 (chars : List Char) : Option Nat := do
  -- an optional sign, as for signed integers; a minus is no digit of an unsigned one
  let digits := if chars.head? = some '+' then chars.tail else chars
  guard (digits ≠ [])
  let n ← digits.foldlM (fun n c => (n * 16 + ·) <$> Parser.hexDigitVal? c) 0
  guard (n < 2 ^ 32)
  some n

def hex4 (c : Cursor) : Except Stop (Nat × Cursor) :=
  match ((c.advance 4).getFrom c.pos).filter allHexDigits with
  | some chars =>
    match fromStrRadix16 chars with
    | some n => .ok (n, c.advance 4)
    | none => .error .panicked
  | none => .error (c.malformed "expected four hex digits")

/-- `char::from_u32`. -/
def charFromU32 (c : Cursor) (code : Nat) : Except Stop (Char × Cursor) :=
  if code.isValidChar then .ok (Char.ofNat code, c) else .error (c.malformed "invalid escape")

def parseUnicodeEscape (c : Cursor) : Except Stop (Char × Cursor) := do
  let (high, c) ← c.hex4
  if 0xDC00 ≤ high ∧ high ≤ 0xDFFF then
    .error (c.malformed "lone trailing surrogate")
  else if 0xD800 ≤ high ∧ high ≤ 0xDBFF then
    if c.peek ≠ some '\\' then .error (c.malformed "lone leading surrogate")
    else if (c.advance 1).peek ≠ some 'u' then
      .error ((c.advance 1).malformed "lone leading surrogate")
    else
      let (low, c) ← ((c.advance 1).advance 1).hex4
      if ¬(0xDC00 ≤ low ∧ low ≤ 0xDFFF) then .error (c.malformed "lone leading surrogate")
      else c.charFromU32 (0x10000 + (high - 0xD800) * 1024 + (low - 0xDC00))
  else c.charFromU32 high

/-- The byte after a backslash, with the position past it. -/
def parseEscape (escape : Char) (c : Cursor) : Except Stop (Char × Cursor) :=
  match escape with
  | '"' => .ok ('"', c)
  | '\\' => .ok ('\\', c)
  | '/' => .ok ('/', c)
  | 'b' => .ok ('\x08', c)
  | 'f' => .ok ('\x0c', c)
  | 'n' => .ok ('\n', c)
  | 'r' => .ok ('\r', c)
  | 't' => .ok ('\t', c)
  | 'u' => c.parseUnicodeEscape
  | _ => .error (c.malformed "unknown escape")

/-- The loop of `parse_string`. -/
def parseStringLoop : Nat → List Char → Cursor → Except Stop (List Char × Cursor)
  | 0, _, _ => .error .unfinished
  | fuel + 1, out, c =>
    match c.peek with
    | none => .error (c.malformed "unterminated string")
    | some '"' => .ok (out, c.advance 1)
    | some '\\' =>
      match (c.advance 1).peek with
      | none => .error ((c.advance 1).malformed "unterminated escape")
      | some escape => do
          let (ch, c) ← parseEscape escape ((c.advance 1).advance 1)
          parseStringLoop fuel (out ++ [ch]) c
    | some byte =>
      if byte.toNat < 0x20 then .error (c.malformed "raw control character in string")
      else if byte.toNat < 0x80 then parseStringLoop fuel (out ++ [byte]) (c.advance 1)
      else do
        -- the first byte of a longer character
        let chars ← c.sliceFrom
        match chars with
        | ch :: _ => parseStringLoop fuel (out ++ [ch]) (c.advance ch.utf8Size)
        | [] => .error .panicked

def parseString (c : Cursor) : Except Stop (String × Cursor) := do
  let c ← c.expect '"'
  let (out, c) ← parseStringLoop (c.bytes.length + 1) [] c
  .ok (String.ofList out, c)

/-! ## Containers -/

abbrev ItemParser := String → Cursor → Except Stop (Value × Cursor)

/-- The loop of `parse_array`. -/
def parseItems (item : ItemParser) (path : String) :
    Nat → List Value → Cursor → Except Stop (Value × Cursor)
  | 0, _, _ => .error .unfinished
  | fuel + 1, out, c => do
      let (v, c) ← item (path ++ "[" ++ toString out.length ++ "]") c
      let c := c.skipWhitespace
      match c.peek with
      | some ',' => parseItems item path fuel (out ++ [v]) (c.advance 1).skipWhitespace
      | some ']' => .ok (.array (out ++ [v]), c.advance 1)
      | _ => .error (c.malformed "expected ',' or ']'")

def parseArray (item : ItemParser) (path : String) (c : Cursor) :
    Except Stop (Value × Cursor) := do
  let c ← c.expect '['
  let c := c.skipWhitespace
  if c.peek = some ']' then .ok (.array [], c.advance 1)
  else parseItems item path (c.bytes.length + 1) [] c

/-- The loop of `parse_object`. -/
def parseFields (item : ItemParser) (path : String) :
    Nat → BTreeMap String Value → Cursor → Except Stop (Value × Cursor)
  | 0, _, _ => .error .unfinished
  | fuel + 1, out, c =>
    if c.peek ≠ some '"' then .error (c.malformed "expected a string key")
    else do
      let (key, c) ← c.parseString
      let c ← c.skipWhitespace.expect ':'
      let (v, c) ← item (path ++ "." ++ key) c.skipWhitespace
      let c := c.skipWhitespace
      match c.peek with
      | some ',' => parseFields item path fuel (out.insert key v) (c.advance 1).skipWhitespace
      | some '}' => .ok (.objectOf (out.insert key v), c.advance 1)
      | _ => .error (c.malformed "expected ',' or '\x7d'")

def parseObject (item : ItemParser) (path : String) (c : Cursor) :
    Except Stop (Value × Cursor) := do
  let c ← c.expect '{'
  let c := c.skipWhitespace
  if c.peek = some '}' then .ok (.objectOf .empty, c.advance 1)
  else parseFields item path (c.bytes.length + 1) .empty c

def parseValue : Nat → ItemParser
  | 0, _, _ => .error (.refused (.malformed "recursion limit exceeded"))
  | room + 1, path, c =>
    match c.peek with
    | some 'n' => c.literal "null" .null
    | some 't' => c.literal "true" (.bool true)
    | some 'f' => c.literal "false" (.bool false)
    | some '"' => do
        let (s, c) ← c.parseString
        .ok (.string s, c)
    | some '[' => parseArray (parseValue room) path c
    | some '{' => parseObject (parseValue room) path c
    | some byte =>
      if byte = '-' ∨ byte.isDigit then parseNumber path c
      else .error (c.malformed "unexpected character")
    | none => .error (c.malformed "unexpected end of input")

/-- `Value::from_json`. -/
def fromJson (text : String) : Except Stop Value := do
  let c : Cursor := ⟨text, 0⟩
  let (value, c) ← parseValue (MAX_DEPTH + 1) "$" c.skipWhitespace
  let c := c.skipWhitespace
  if c.pos ≠ c.bytes.length then .error (c.malformed "trailing characters after the value")
  else .ok value

/-! ## Positions and characters -/

end Cursor

theorem utf8_cons (ch : Char) (rest : List Char) :
    utf8 (ch :: rest) = String.utf8EncodeChar ch ++ utf8 rest := rfl

variable {ch : Char}

theorem utf8EncodeChar_ascii (h : ch.toNat < 128) :
    String.utf8EncodeChar ch = [UInt8.ofNat ch.toNat] := by
  rw [String.utf8EncodeChar]
  exact if_pos (Nat.le_of_lt_succ h)

theorem ofUInt8_ofNat (h : ch.toNat < 128) : Char.ofUInt8 (UInt8.ofNat ch.toNat) = ch := by
  apply Char.ext
  apply UInt32.toNat_inj.mp
  show (UInt8.ofNat ch.toNat).toNat = ch.toNat
  rw [UInt8.toNat_ofNat']
  omega

theorem utf8Size_ascii (h : ch.toNat < 128) : ch.utf8Size = 1 := by
  rw [← String.length_utf8EncodeChar, utf8EncodeChar_ascii h, List.length_singleton]

/-- A character beyond ASCII has no byte below 128. -/
theorem le_of_mem_utf8EncodeChar (h : 128 ≤ ch.toNat) {b : UInt8}
    (hb : b ∈ String.utf8EncodeChar ch) : 128 ≤ (Char.ofUInt8 b).toNat := by
  have hascii : ¬ch.val.toNat ≤ 0x7f := by
    have : 128 ≤ ch.val.toNat := h
    omega
  show 128 ≤ b.toNat
  rw [String.utf8EncodeChar] at hb
  simp only [if_neg hascii] at hb
  split_ifs at hb <;>
    simp only [List.mem_cons, List.not_mem_nil, or_false] at hb <;>
    rcases hb with rfl | rfl | rfl | rfl <;>
    · rw [UInt8.toNat_ofNat']
      omega

theorem charsFrom_zero (chars : List Char) : charsFrom chars 0 = some chars := by
  cases chars <;> rfl

/-- The bytes behind a character boundary are those of the characters behind it. -/
theorem drop_utf8 (chars : List Char) :
    ∀ {n : Nat} {rest : List Char}, charsFrom chars n = some rest →
      (utf8 chars).drop n = utf8 rest ∧ n ≤ (utf8 chars).length := by
  induction chars with
  | nil =>
    intro n rest h
    rw [charsFrom] at h
    split_ifs at h with hn
    cases h
    exact ⟨by rw [hn]; rfl, by rw [hn]; exact Nat.zero_le _⟩
  | cons ch chars ih =>
    intro n rest h
    rw [charsFrom] at h
    split_ifs at h with hn hle
    · cases h
      exact ⟨by rw [hn]; rfl, by rw [hn]; exact Nat.zero_le _⟩
    · obtain ⟨hdrop, hlen⟩ := ih h
      have hsize := String.length_utf8EncodeChar ch
      rw [utf8_cons]
      constructor
      · rw [List.drop_append, List.drop_eq_nil_of_le (by omega), List.nil_append, hsize, hdrop]
      · rw [List.length_append]
        omega

/-- Past one more character. -/
theorem charsFrom_add_utf8Size (chars : List Char) :
    ∀ {n : Nat} {ch : Char} {rest : List Char}, charsFrom chars n = some (ch :: rest) →
      charsFrom chars (n + ch.utf8Size) = some rest := by
  induction chars with
  | nil =>
    intro n ch rest h
    rw [charsFrom] at h
    split_ifs at h
    cases h
  | cons c chars ih =>
    intro n ch rest h
    rw [charsFrom] at h
    split_ifs at h with hn hle
    · cases h
      have hpos := Char.utf8Size_pos c
      rw [charsFrom, hn, Nat.zero_add, if_neg (by omega), if_pos (Nat.le_refl _), Nat.sub_self,
        charsFrom_zero]
    · rw [charsFrom, if_neg (by omega), if_pos (by omega),
        show n + ch.utf8Size - c.utf8Size = n - c.utf8Size + ch.utf8Size by omega]
      exact ih h

/-- A run of ASCII characters takes as many bytes. -/
theorem length_takeWhile_utf8 {matching : Char → Bool}
    (hascii : ∀ ch, matching ch → ch.toNat < 128) (chars : List Char) :
    ((utf8 chars).takeWhile fun b => matching (Char.ofUInt8 b)).length =
      (chars.takeWhile matching).length := by
  induction chars with
  | nil => rfl
  | cons ch chars ih =>
    rw [utf8_cons]
    by_cases hch : matching ch
    · have hlt := hascii ch hch
      rw [utf8EncodeChar_ascii hlt, List.singleton_append, List.takeWhile_cons,
        ofUInt8_ofNat hlt, if_pos hch, List.takeWhile_cons, if_pos hch, List.length_cons,
        List.length_cons, ih]
    · rw [List.takeWhile_cons, if_neg hch]
      by_cases hlt : ch.toNat < 128
      · rw [utf8EncodeChar_ascii hlt, List.singleton_append, List.takeWhile_cons,
          ofUInt8_ofNat hlt, if_neg hch]
        rfl
      · obtain ⟨b, bs, hbs⟩ := List.exists_cons_of_ne_nil (String.utf8EncodeChar_ne_nil (c := ch))
        have hb := le_of_mem_utf8EncodeChar (Nat.le_of_not_lt hlt) (b := b) (by rw [hbs]; simp)
        have hno : ¬matching (Char.ofUInt8 b) := fun h => by
          have := hascii _ h
          omega
        rw [hbs, List.cons_append, List.takeWhile_cons, if_neg hno]
        rfl

theorem charsFrom_takeWhile {matching : Char → Bool}
    (hascii : ∀ ch, matching ch → ch.toNat < 128) (chars rest : List Char) :
    ∀ {n : Nat}, charsFrom chars n = some rest →
      charsFrom chars (n + (rest.takeWhile matching).length) = some (rest.dropWhile matching) := by
  induction rest with
  | nil => intro n h; exact h
  | cons ch rest ih =>
    intro n h
    by_cases hch : matching ch
    · have hnext := charsFrom_add_utf8Size chars h
      rw [utf8Size_ascii (hascii ch hch)] at hnext
      rw [List.takeWhile_cons, if_pos hch, List.dropWhile_cons, if_pos hch, List.length_cons,
        ← Nat.add_assoc, Nat.add_right_comm]
      exact ih hnext
    · rw [List.takeWhile_cons, if_neg hch, List.dropWhile_cons, if_neg hch]
      exact h

namespace Cursor

theorem bytes_eq (c : Cursor) : c.bytes = utf8 c.text.toList := by
  have h : c.text.toByteArray = (utf8 c.text.toList).toByteArray :=
    String.utf8Encode_toList.symm
  show c.text.toByteArray.data.toList = utf8 c.text.toList
  rw [h, List.data_toByteArray]

/-- A byte position of `text` in front of the characters still to read. -/
structure At (text : String) (c : Cursor) (p : Parser) : Prop where
  text_eq : c.text = text
  chars : charsFrom c.text.toList c.pos = some p.rest
  pos_eq : c.pos = p.pos

variable {text : String} {c : Cursor} {p : Parser}

theorem At.drop_bytes (h : c.At text p) : c.bytes.drop c.pos = utf8 p.rest := by
  rw [bytes_eq]
  exact (drop_utf8 _ h.chars).1

theorem At.peek_eq (h : c.At text p) : c.peek = (utf8 p.rest).head?.map Char.ofUInt8 := by
  rw [← h.drop_bytes, List.head?_drop]
  rfl

/-- What the byte at the position says about the character there. -/
theorem At.peek_cases (h : c.At text p) :
    (p.rest = [] ∧ c.peek = none) ∨
    (∃ ch rest, p.rest = ch :: rest ∧ ch.toNat < 128 ∧ c.peek = some ch) ∨
    (∃ ch rest b, p.rest = ch :: rest ∧ 128 ≤ ch.toNat ∧ 128 ≤ b.toNat ∧ c.peek = some b) := by
  have hpeek := h.peek_eq
  cases hrest : p.rest with
  | nil =>
    rw [hrest] at hpeek
    exact .inl ⟨rfl, hpeek⟩
  | cons ch rest =>
    rw [hrest, utf8_cons] at hpeek
    by_cases hlt : ch.toNat < 128
    · rw [utf8EncodeChar_ascii hlt, List.singleton_append, List.head?_cons, Option.map_some,
        ofUInt8_ofNat hlt] at hpeek
      exact .inr (.inl ⟨ch, rest, rfl, hlt, hpeek⟩)
    · obtain ⟨b, bs, hbs⟩ := List.exists_cons_of_ne_nil (String.utf8EncodeChar_ne_nil (c := ch))
      have hb := le_of_mem_utf8EncodeChar (Nat.le_of_not_lt hlt) (b := b) (by rw [hbs]; simp)
      rw [hbs, List.cons_append, List.head?_cons, Option.map_some] at hpeek
      exact .inr (.inr ⟨ch, rest, _, rfl, Nat.le_of_not_lt hlt, hb, hpeek⟩)

variable {k ch escape : Char}

/-- An ASCII byte is there exactly when its character is. -/
theorem At.peek_iff (h : c.At text p) (hk : k.toNat < 128) : c.peek = some k ↔ p.peek = some k := by
  rcases h.peek_cases with ⟨hrest, hpeek⟩ | ⟨ch, rest, hrest, -, hpeek⟩ |
    ⟨ch, rest, b, hrest, hch, hb, hpeek⟩
  · simp [Parser.peek, hrest, hpeek]
  · simp [Parser.peek, hrest, hpeek]
  · have h1 : b ≠ k := by rintro rfl; omega
    have h2 : ch ≠ k := by rintro rfl; omega
    simp [Parser.peek, hrest, hpeek, h1, h2]

theorem At.bump (h : c.At text p) (hk : k.toNat < 128) (hpeek : p.peek = some k) :
    (c.advance 1).At text p.bump := by
  have hrest := Parser.rest_of_peek hpeek
  have hnext := charsFrom_add_utf8Size _ (h.chars.trans (congrArg some hrest))
  rw [utf8Size_ascii hk] at hnext
  exact ⟨h.text_eq, hnext, by rw [advance, Parser.bump, h.pos_eq]⟩

theorem At.skipWhile (h : c.At text p) {matching : Char → Bool}
    (hascii : ∀ ch, matching ch → ch.toNat < 128) :
    (c.skipWhile matching).At text
      ⟨p.rest.dropWhile matching, p.pos + (p.rest.takeWhile matching).length⟩ := by
  rw [Cursor.skipWhile, h.drop_bytes, length_takeWhile_utf8 hascii]
  exact ⟨h.text_eq, charsFrom_takeWhile hascii _ _ h.chars, by rw [advance, h.pos_eq]⟩

theorem isWhitespace_ascii (ch : Char) (h : Parser.isWhitespace ch) : ch.toNat < 128 := by
  simp only [Parser.isWhitespace, Bool.or_eq_true, decide_eq_true_eq] at h
  rcases h with ((rfl | rfl) | rfl) | rfl <;> decide

theorem isDigit_ascii (ch : Char) (h : ch.isDigit) : ch.toNat < 128 := by
  have hle : ch.toNat ≤ 57 := by
    simp only [Char.isDigit, Bool.and_eq_true, decide_eq_true_eq] at h
    exact h.2
  omega

theorem At.skipWhitespace (h : c.At text p) : c.skipWhitespace.At text p.skipWhitespace :=
  h.skipWhile isWhitespace_ascii

theorem At.malformed (h : c.At text p) (why : String) :
    c.malformed why = .refused (p.malformed why) := by
  rw [Cursor.malformed, Parser.malformed, h.pos_eq]

/-! ## Two runs side by side -/

/-- The run on bytes ends as the run on characters does. -/
def Simulates (text : String) {α : Type} (run : Except Stop (α × Cursor))
    (model : Except CanonicalError (α × Parser)) : Prop :=
  match model with
  | .ok (a, p) => ∃ c, run = .ok (a, c) ∧ c.At text p
  | .error e => run = .error (.refused e)

theorem Simulates.ok {α : Type} (a : α) (h : c.At text p) : Simulates text (.ok (a, c)) (.ok (a, p)) :=
  ⟨c, rfl, h⟩

theorem Simulates.malformed {α : Type} (h : c.At text p) (why : String) :
    Simulates text (α := α) (.error (c.malformed why)) (.error (p.malformed why)) :=
  congrArg Except.error (h.malformed why)

theorem Simulates.bind {α β : Type} {run : Except Stop (α × Cursor)}
    {model : Except CanonicalError (α × Parser)} {k : α × Cursor → Except Stop (β × Cursor)}
    {k' : α × Parser → Except CanonicalError (β × Parser)} (h : Simulates text run model)
    (hk : ∀ a c p, c.At text p → model = .ok (a, p) → Simulates text (k (a, c)) (k' (a, p))) :
    Simulates text (run >>= k) (model >>= k') := by
  cases model with
  | error e =>
    obtain rfl : run = .error (.refused e) := h
    exact rfl
  | ok x =>
    obtain ⟨a, p⟩ := x
    obtain ⟨c, rfl, hc⟩ := h
    exact hk a c p hc rfl

theorem expect_simulates (h : c.At text p) (hk : k.toNat < 128) :
    (∃ c', c.expect k = .ok c' ∧ p.expect k = .ok p.bump ∧ c'.At text p.bump) ∨
      ∃ e, c.expect k = .error (.refused e) ∧ p.expect k = .error e := by
  by_cases hpeek : p.peek = some k
  · refine .inl ⟨c.advance 1, ?_, if_pos hpeek, h.bump hk hpeek⟩
    rw [expect, if_pos ((h.peek_iff hk).mpr hpeek)]
  · refine .inr ⟨_, ?_, if_neg hpeek⟩
    rw [expect, if_neg fun hc => hpeek ((h.peek_iff hk).mp hc), h.malformed]

/-- Going on behind one expected character. -/
theorem Simulates.expect_bind {β : Type} {k : Cursor → Except Stop (β × Cursor)}
    {k' : Parser → Except CanonicalError (β × Parser)} (h : c.At text p) {mark : Char}
    (hmark : mark.toNat < 128)
    (hk : ∀ c', c'.At text p.bump → p.peek = some mark → Simulates text (k c') (k' p.bump)) :
    Simulates text (c.expect mark >>= k) (p.expect mark >>= k') := by
  rcases expect_simulates h hmark with ⟨c', hc, hp, hat⟩ | ⟨e, hc, hp⟩
  · rw [hc, hp]
    exact hk c' hat (Parser.expect_eq_ok_iff.mp hp).1
  · rw [hc, hp]
    exact rfl

theorem At.sliceFrom (h : c.At text p) : c.sliceFrom = .ok p.rest := by
  rw [Cursor.sliceFrom, h.chars]

theorem charsFrom_length (chars : List Char) :
    ∀ {n : Nat} {rest : List Char}, charsFrom chars n = some rest → rest.length ≤ chars.length := by
  induction chars with
  | nil =>
    intro n rest h
    rw [charsFrom] at h
    split_ifs at h
    cases h
    exact Nat.le_refl _
  | cons ch chars ih =>
    intro n rest h
    rw [charsFrom] at h
    split_ifs at h
    · cases h
      exact Nat.le_refl _
    · exact Nat.le_succ_of_le (ih h)

theorem length_le_utf8 (chars : List Char) : chars.length ≤ (utf8 chars).length := by
  induction chars with
  | nil => exact Nat.le_refl _
  | cons ch chars ih =>
    have hsize := String.length_utf8EncodeChar ch
    have hpos := Char.utf8Size_pos ch
    rw [utf8_cons, List.length_append, List.length_cons]
    omega

/-- A loop with a turn for each byte has one for each character still to read. -/
theorem At.length_lt (h : c.At text p) : p.rest.length < c.bytes.length + 1 := by
  have h1 := charsFrom_length _ h.chars
  have h2 := length_le_utf8 c.text.toList
  rw [bytes_eq]
  omega

/-- ASCII characters in a row are skipped together. -/
theorem At.advance_ascii (word : List Char) :
    ∀ {c : Cursor} {p : Parser} {rest : List Char}, c.At text p → p.rest = word ++ rest →
      (∀ ch ∈ word, ch.toNat < 128) →
      (c.advance word.length).At text ⟨rest, p.pos + word.length⟩ := by
  induction word with
  | nil =>
    intro c p rest h hrest hascii
    exact ⟨h.text_eq, h.chars.trans (congrArg some hrest), h.pos_eq⟩
  | cons ch word ih =>
    intro c p rest h hrest hascii
    have hpeek : p.peek = some ch := by rw [Parser.peek, hrest]; rfl
    have hbump : p.bump.rest = word ++ rest := by rw [Parser.bump, hrest]; rfl
    have hnext := ih (h.bump (hascii ch (by simp)) hpeek) hbump
      fun x hx => hascii x (List.mem_cons_of_mem _ hx)
    have hadd : 1 + word.length = word.length + 1 := Nat.add_comm _ _
    rw [List.length_cons, ← hadd, ← Nat.add_assoc]
    have hpos : c.advance (1 + word.length) = (c.advance 1).advance word.length := by
      rw [advance, advance, advance, ← Nat.add_assoc]
    rw [hpos]
    exact hnext

theorem literal_simulates (h : c.At text p) (word : String) (value : Value)
    (hascii : ∀ ch ∈ word.toList, ch.toNat < 128) :
    Simulates text (c.literal word value) (p.literal word value) := by
  rw [literal, Parser.literal, h.sliceFrom]
  show Simulates text (if word.toList.isPrefixOf p.rest then _ else _) _
  split_ifs with hprefix
  · obtain ⟨tail, htail⟩ := List.isPrefixOf_iff_prefix.mp hprefix
    have hat := h.advance_ascii word.toList htail.symm hascii
    rw [String.length_toList] at hat
    refine ⟨_, rfl, ?_⟩
    rw [← htail, ← String.length_toList, List.drop_left, String.length_toList]
    exact hat
  · exact .malformed h _

/-! ## Numbers -/

theorem At.peekDigit_eq (h : c.At text p) : c.peekDigit = p.peekDigit := by
  rcases h.peek_cases with ⟨hrest, hpeek⟩ | ⟨ch, rest, hrest, -, hpeek⟩ |
    ⟨ch, rest, b, hrest, hch, hb, hpeek⟩
  · rw [peekDigit, Parser.peekDigit, hpeek, Parser.peek, hrest]
    rfl
  · rw [peekDigit, Parser.peekDigit, hpeek, Parser.peek, hrest]
    rfl
  · have h1 : b.isDigit = false := by
      by_contra hd
      have := isDigit_ascii b (by simpa using hd)
      omega
    have h2 : ch.isDigit = false := by
      by_contra hd
      have := isDigit_ascii ch (by simpa using hd)
      omega
    rw [peekDigit, Parser.peekDigit, hpeek, Parser.peek, hrest]
    simp [h1, h2]

theorem skipIntPart_simulates (h : c.At text p) :
    match p.parseIntPart with
    | .ok (_, q) => ∃ c', c.skipIntPart = .ok c' ∧ c'.At text q
    | .error e => c.skipIntPart = .error (.refused e) := by
  by_cases hzero : p.peek = some '0'
  · have hzero' := (h.peek_iff (by decide)).mpr hzero
    have hbump := h.bump (by decide) hzero
    rw [Parser.parseIntPart, hzero, skipIntPart, hzero']
    simp only [hbump.peekDigit_eq]
    cases hnext : p.bump.peekDigit with
    | true => exact congrArg Except.error (hbump.malformed _)
    | false => exact ⟨_, rfl, hbump⟩
  · have hdigits : p.parseIntPart = if p.peekDigit then .ok p.takeDigits
        else .error (p.malformed "expected a digit") := by
      rw [Parser.parseIntPart, show p.peekDigit = p.peek.any Char.isDigit from rfl]
      split
      · next hc => exact absurd hc hzero
      · next ch _ hc => rw [hc]; rfl
      · next hc => rw [hc]; rfl
    have hskip : c.skipIntPart = if c.peekDigit then .ok (c.skipWhile Char.isDigit)
        else .error (c.malformed "expected a digit") := by
      rw [skipIntPart, show c.peekDigit = c.peek.any Char.isDigit from rfl]
      split
      · next hc => exact absurd ((h.peek_iff (by decide)).mp hc) hzero
      · next ch _ hc => rw [hc]; rfl
      · next hc => rw [hc]; rfl
    rw [hdigits, hskip, h.peekDigit_eq]
    cases p.peekDigit with
    | true => exact ⟨_, rfl, h.skipWhile isDigit_ascii⟩
    | false => exact congrArg Except.error (h.malformed _)

theorem skipFraction_simulates (h : c.At text p) : Simulates text c.skipFraction p.parseFraction := by
  rw [skipFraction, Parser.parseFraction]
  by_cases hpoint : p.peek = some '.'
  · have hbump := h.bump (by decide) hpoint
    rw [if_pos hpoint, if_pos ((h.peek_iff (by decide)).mpr hpoint), hbump.peekDigit_eq]
    cases p.bump.peekDigit with
    | true => exact .ok true (hbump.skipWhile isDigit_ascii)
    | false => exact .malformed hbump _
  · rw [if_neg hpoint, if_neg fun hc => hpoint ((h.peek_iff (by decide)).mp hc)]
    exact .ok false h

/-- The sign of an exponent, if there is one. -/
theorem skipSign_at (h : c.At text p) :
    (if c.peek = some '+' ∨ c.peek = some '-' then c.advance 1 else c).At text
      (if p.peek = some '+' ∨ p.peek = some '-' then p.bump else p) := by
  simp only [h.peek_iff (k := '+') (by decide), h.peek_iff (k := '-') (by decide)]
  split_ifs with hsign
  · rcases hsign with hsign | hsign
    · exact h.bump (by decide) hsign
    · exact h.bump (by decide) hsign
  · exact h

theorem skipExponent_simulates (h : c.At text p) : Simulates text c.skipExponent p.parseExponent := by
  rw [skipExponent, Parser.parseExponent]
  have hiff : c.peek = some 'e' ∨ c.peek = some 'E' ↔ p.peek = some 'e' ∨ p.peek = some 'E' :=
    or_congr (h.peek_iff (by decide)) (h.peek_iff (by decide))
  by_cases hexp : p.peek = some 'e' ∨ p.peek = some 'E'
  · have hbump : (c.advance 1).At text p.bump := by
      rcases hexp with hexp | hexp
      · exact h.bump (by decide) hexp
      · exact h.bump (by decide) hexp
    have hsign := skipSign_at hbump
    rw [if_pos hexp, if_pos (hiff.mpr hexp)]
    simp only
    rw [hsign.peekDigit_eq]
    generalize (if p.bump.peek = some '+' ∨ p.bump.peek = some '-' then p.bump.bump
      else p.bump) = q at hsign ⊢
    cases q.peekDigit with
    | true => exact .ok true (hsign.skipWhile isDigit_ascii)
    | false => exact .malformed hsign _
  · rw [if_neg hexp, if_neg fun hc => hexp (hiff.mp hc)]
    exact .ok false h

/-- The slice between two positions is the characters between them. -/
theorem getFrom_eq {c : Cursor} {start : Nat} {word rest : List Char}
    (hstart : charsFrom c.text.toList start = some (word ++ rest))
    (hstop : charsFrom c.text.toList c.pos = some rest) (hle : start ≤ c.pos) :
    c.getFrom start = some word := by
  rw [getFrom, hstart, hstop]
  show (if start ≤ c.pos then some ((word ++ rest).take ((word ++ rest).length - rest.length))
    else none) = some word
  rw [if_pos hle, List.length_append, Nat.add_sub_cancel, List.take_left]

theorem charsFrom_le (chars : List Char) :
    ∀ {n m : Nat} {rest rest' : List Char}, charsFrom chars n = some rest →
      charsFrom chars m = some rest' → rest'.length ≤ rest.length → n ≤ m := by
  induction chars with
  | nil =>
    intro n m rest rest' hn hm hle
    rw [charsFrom] at hn
    split_ifs at hn
    omega
  | cons ch chars ih =>
    intro n m rest rest' hn hm hle
    rw [charsFrom] at hn hm
    split_ifs at hn with h1 h2
    · omega
    · split_ifs at hm with h3 h4
      · -- the later position is at the front, and nothing is shorter than the whole
        cases hm
        have := charsFrom_length _ hn
        simp only [List.length_cons] at hle
        omega
      · have := ih hn hm hle
        omega

theorem splitSign_digits {negative : Bool} {digits : List Char}
    (hdigits : ∀ ch ∈ digits, ch.isDigit) :
    splitSign ((if negative then ['-'] else []) ++ digits) = (negative, digits) := by
  cases negative with
  | true => rfl
  | false =>
    rw [if_neg (by decide), List.nil_append]
    unfold splitSign
    split
    · next digits => exact absurd (hdigits '-' (by simp)) (by decide)
    · next digits => exact absurd (hdigits '+' (by simp)) (by decide)
    · rfl

theorem parseI128_eq {negative : Bool} {digits : List Char} (hdigits : ∀ ch ∈ digits, ch.isDigit)
    (hne : digits ≠ []) : parseI128 ((if negative then ['-'] else []) ++ digits) =
      I128.ofInt? (Parser.intOfDigits negative digits) := by
  rw [parseI128, splitSign_digits hdigits]
  exact if_pos ⟨hne, List.all_eq_true.mpr hdigits⟩

theorem parseNumber_simulates (h : c.At text p) (path : String) :
    Simulates text (parseNumber path c) (Parser.parseNumber path p) := by
  rw [parseNumber, Parser.parseNumber]
  -- behind the sign
  have hsign : (if c.peek = some '-' then c.advance 1 else c).At text
      (if (p.peek == some '-') = true then p.bump else p) := by
    simp only [h.peek_iff (k := '-') (by decide), beq_iff_eq]
    split_ifs with hminus
    · exact h.bump (by decide) hminus
    · exact h
  have hint := skipIntPart_simulates hsign
  have htext : (if c.peek = some '-' then c.advance 1 else c).text = c.text := by
    split_ifs <;> rfl
  have hdigits := @Parser.parseIntPart_sound
    (if (p.peek == some '-') = true then p.bump else p)
  simp only
  generalize hmodel : (if (p.peek == some '-') = true then p.bump else p).parseIntPart = model at *
  cases model with
  | error e =>
    simp only at hint
    rw [hint]
    exact rfl
  | ok x =>
    obtain ⟨digits, p1⟩ := x
    obtain ⟨c1, hc1, hat1⟩ := hint
    obtain ⟨⟨hall, hne, -⟩, hrest⟩ := hdigits rfl
    rw [hc1]
    refine Simulates.bind (skipFraction_simulates hat1) fun fraction c2 p2 hat2 hfrac => ?_
    refine Simulates.bind (skipExponent_simulates hat2) fun exponent c3 p3 hat3 hexp => ?_
    simp only
    split_ifs with hfloat
    · exact rfl
    · -- An integer: nothing was read behind its digits.
      obtain ⟨rfl, rfl⟩ : fraction = false ∧ exponent = false := by simpa using hfloat
      obtain rfl := Parser.parseExponent_sound hexp
      obtain rfl := Parser.parseFraction_sound hfrac
      have hword : p.rest = (if p.peek == some '-' then ['-'] else []) ++ digits ++ p3.rest := by
        rw [List.append_assoc, ← hrest]
        split_ifs with hminus
        · exact Parser.rest_of_peek (beq_iff_eq.mp hminus)
        · rfl
      have hslice : c3.slice c.pos = .ok ((if p.peek == some '-' then ['-'] else []) ++ digits) := by
        have hstart : charsFrom c3.text.toList c.pos = some
            ((if p.peek == some '-' then ['-'] else []) ++ digits ++ p3.rest) := by
          rw [hat3.text_eq, ← h.text_eq, h.chars, hword]
        have hle : c.pos ≤ c3.pos := by
          refine charsFrom_le _ hstart hat3.chars ?_
          rw [List.length_append]
          omega
        rw [slice, getFrom_eq hstart hat3.chars hle]
      rw [hslice]
      show Simulates text (match parseI128 _ with | some i => _ | none => _) _
      rw [parseI128_eq hall hne]
      cases I128.ofInt? (Parser.intOfDigits (p.peek == some '-') digits) with
      | some i => exact .ok _ hat3
      | none => exact rfl

/-! ## Strings -/

theorem hexDigit_ascii (h : (Parser.hexDigitVal? ch).isSome) : ch.toNat < 128 := by
  rw [Parser.hexDigitVal?] at h
  split_ifs at h with h1 h2 h3
  · have : ch.toNat ≤ '9'.toNat := h1.2
    have : '9'.toNat = 57 := rfl
    omega
  · have : ch.toNat ≤ 'f'.toNat := h2.2
    have : 'f'.toNat = 102 := rfl
    omega
  · have : ch.toNat ≤ 'F'.toNat := h3.2
    have : 'F'.toNat = 70 := rfl
    omega
  · cases h

/-- Bytes that are all hexadecimal digits are those of characters that are. -/
theorem allHexDigits_iff (word : List Char) :
    allHexDigits word ↔ ∀ ch ∈ word, (Parser.hexDigitVal? ch).isSome := by
  rw [allHexDigits, List.all_eq_true]
  constructor
  · intro h ch hch
    have hbytes : ∀ b ∈ String.utf8EncodeChar ch, (Parser.hexDigitVal? (Char.ofUInt8 b)).isSome :=
      fun b hb => h b (List.mem_flatMap.mpr ⟨ch, hch, hb⟩)
    by_cases hlt : ch.toNat < 128
    · have := hbytes (UInt8.ofNat ch.toNat) (by rw [utf8EncodeChar_ascii hlt]; simp)
      rwa [ofUInt8_ofNat hlt] at this
    · obtain ⟨b, bs, hbs⟩ := List.exists_cons_of_ne_nil (String.utf8EncodeChar_ne_nil (c := ch))
      have hb := le_of_mem_utf8EncodeChar (Nat.le_of_not_lt hlt) (b := b) (by rw [hbs]; simp)
      have := hexDigit_ascii (hbytes b (by rw [hbs]; simp))
      omega
  · intro h b hb
    obtain ⟨ch, hch, hb⟩ := List.mem_flatMap.mp hb
    have hsome := h ch hch
    have hlt := hexDigit_ascii hsome
    rw [utf8EncodeChar_ascii hlt, List.mem_singleton] at hb
    rw [hb, ofUInt8_ofNat hlt]
    exact hsome

theorem length_utf8_ascii {word : List Char} (h : ∀ ch ∈ word, ch.toNat < 128) :
    (utf8 word).length = word.length := by
  induction word with
  | nil => rfl
  | cons ch word ih =>
    rw [utf8_cons, utf8EncodeChar_ascii (h ch (by simp)), List.length_append,
      ih fun x hx => h x (List.mem_cons_of_mem _ hx), List.length_singleton, List.length_cons,
      Nat.add_comm]

/-- Between two boundaries stand whole characters. -/
theorem charsFrom_split (chars : List Char) :
    ∀ {n m : Nat} {rest rest' : List Char}, charsFrom chars n = some rest →
      charsFrom chars m = some rest' → n ≤ m →
      ∃ word, rest = word ++ rest' ∧ (utf8 word).length = m - n := by
  induction chars with
  | nil =>
    intro n m rest rest' hn hm hle
    rw [charsFrom] at hn hm
    split_ifs at hn with h1
    split_ifs at hm with h2
    cases hn
    cases hm
    exact ⟨[], rfl, by rw [h1, h2]; rfl⟩
  | cons ch chars ih =>
    intro n m rest rest' hn hm hle
    rw [charsFrom] at hn hm
    split_ifs at hn with h1 h2
    · cases hn
      split_ifs at hm with h3 h4
      · cases hm
        exact ⟨[], rfl, by rw [h1, h3]; rfl⟩
      · obtain ⟨word, hword, hlen⟩ := ih (charsFrom_zero chars) hm (Nat.zero_le _)
        have hsize := String.length_utf8EncodeChar ch
        refine ⟨ch :: word, congrArg (ch :: ·) hword, ?_⟩
        rw [utf8_cons, List.length_append]
        omega
    · rw [if_neg (by omega), if_pos (by omega)] at hm
      obtain ⟨word, hword, hlen⟩ := ih hn hm (by omega)
      exact ⟨word, hword, by omega⟩

theorem mem_digits_isSome {u : CodeUnit} (h : ch ∈ u.digits) : (Parser.hexDigitVal? ch).isSome := by
  simp only [CodeUnit.digits, List.mem_cons, List.not_mem_nil, or_false] at h
  rcases h with rfl | rfl | rfl | rfl
  · rw [u.a.spells]; rfl
  · rw [u.b.spells]; rfl
  · rw [u.c.spells]; rfl
  · rw [u.d.spells]; rfl

/-- Four digits of base 16 never overflow. -/
theorem fromStrRadix16_digits (u : CodeUnit) : fromStrRadix16 u.digits = some u.val := by
  have hplus : u.a.char ≠ '+' := fun h => by
    have := u.a.spells
    rw [h] at this
    exact absurd this (by simp [show Parser.hexDigitVal? '+' = none from rfl])
  have hlt := u.val_lt
  have hfold : u.digits.foldlM (fun n c => (n * 16 + ·) <$> Parser.hexDigitVal? c) 0 =
      some u.val := by
    simp [CodeUnit.digits, u.a.spells, u.b.spells, u.c.spells, u.d.spells, CodeUnit.val]
  have hhead : u.digits.head? ≠ some '+' := by simpa [CodeUnit.digits] using hplus
  have hne : u.digits ≠ [] := by simp [CodeUnit.digits]
  have hrange : u.val < 4294967296 := by omega
  rw [fromStrRadix16, if_neg hhead]
  simp only [hfold]
  simp [guard, hne, hrange]

theorem hex4_eq_error {p : Parser} {e : CanonicalError} (h : p.hex4 = .error e) :
    e = p.malformed "expected four hex digits" := by
  rw [Parser.hex4] at h
  split at h
  · split at h
    · cases h
    · cases h
      rfl
  · cases h
    rfl

theorem hex4_simulates (h : c.At text p) : Simulates text c.hex4 p.hex4 := by
  cases hmodel : p.hex4 with
  | ok x =>
    obtain ⟨n, q⟩ := x
    obtain ⟨u, rfl, hu⟩ := Parser.hex4_sound hmodel
    have hq : q = ⟨q.rest, p.pos + 4⟩ := by
      have hcomplete := Parser.hex4_complete u q.rest p.pos
      rw [← hu] at hcomplete
      exact (Prod.mk.inj (Except.ok.inj (hmodel.symm.trans hcomplete))).2
    have hascii : ∀ ch ∈ u.digits, ch.toNat < 128 :=
      fun ch hch => hexDigit_ascii (mem_digits_isSome hch)
    have hat : (c.advance 4).At text ⟨q.rest, p.pos + 4⟩ := h.advance_ascii u.digits hu hascii
    have hget : (c.advance 4).getFrom c.pos = some u.digits :=
      getFrom_eq (h.chars.trans (congrArg some hu)) hat.chars (Nat.le_add_right _ _)
    have hall : allHexDigits u.digits := (allHexDigits_iff _).mpr fun _ => mem_digits_isSome
    rw [hq]
    refine ⟨c.advance 4, ?_, hat⟩
    rw [hex4, hget, Option.filter_some, if_pos hall]
    simp only [fromStrRadix16_digits]
  | error e =>
    obtain rfl := hex4_eq_error hmodel
    show c.hex4 = _
    rw [hex4]
    split
    · next word hword =>
        obtain ⟨hget, hall⟩ := Option.filter_eq_some_iff.mp hword
        -- Four bytes that are all digits would have been read.
        have hsome := (allHexDigits_iff word).mp hall
        rw [getFrom] at hget
        obtain ⟨tail, htail, hrest⟩ := Option.bind_eq_some_iff.mp hget
        obtain ⟨after, hafter, hslice⟩ := Option.bind_eq_some_iff.mp hrest
        obtain rfl : p.rest = tail := Option.some.inj (h.chars.symm.trans htail)
        obtain ⟨word', hsplit, hlen⟩ := charsFrom_split _ h.chars hafter (Nat.le_add_right _ _)
        rw [if_pos (show c.pos ≤ (c.advance 4).pos from Nat.le_add_right _ _), hsplit, List.length_append, Nat.add_sub_cancel,
          List.take_left, Option.some.injEq] at hslice
        subst hslice
        rw [length_utf8_ascii fun ch hch => hexDigit_ascii (hsome ch hch)] at hlen
        have hfour : word'.length = 4 := by
          rw [hlen]
          show c.pos + 4 - c.pos = 4
          omega
        obtain ⟨x, y, z, w, rfl⟩ := List.length_eq_four.mp hfour
        obtain ⟨x', hx⟩ := Option.isSome_iff_exists.mp (hsome x (by simp))
        obtain ⟨y', hy⟩ := Option.isSome_iff_exists.mp (hsome y (by simp))
        obtain ⟨z', hz⟩ := Option.isSome_iff_exists.mp (hsome z (by simp))
        obtain ⟨w', hw⟩ := Option.isSome_iff_exists.mp (hsome w (by simp))
        have hok := Parser.hex4_complete ⟨⟨x, x', hx⟩, ⟨y, y', hy⟩, ⟨z, z', hz⟩, ⟨w, w', hw⟩⟩
          after p.pos
        have hp : (⟨[x, y, z, w] ++ after, p.pos⟩ : Parser) = p := by rw [← hsplit]
        rw [CodeUnit.digits, hp, hmodel] at hok
        cases hok
    · exact congrArg Except.error (h.malformed _)

theorem charFromU32_simulates (h : c.At text p) (code : Nat) :
    Simulates text (c.charFromU32 code) (p.charFromU32 code) := by
  rw [charFromU32, Parser.charFromU32]
  split_ifs
  · exact .ok _ h
  · exact .malformed h _

theorem parseUnicodeEscape_simulates (h : c.At text p) :
    Simulates text c.parseUnicodeEscape p.parseUnicodeEscape := by
  rw [parseUnicodeEscape, Parser.parseUnicodeEscape]
  refine Simulates.bind (hex4_simulates h) fun high c1 p1 h1 _ => ?_
  simp only
  by_cases htrail : 0xDC00 ≤ high ∧ high ≤ 0xDFFF
  · rw [if_pos htrail, if_pos htrail]
    exact .malformed h1 _
  · rw [if_neg htrail, if_neg htrail]
    by_cases hlead : 0xD800 ≤ high ∧ high ≤ 0xDBFF
    · rw [if_pos hlead, if_pos hlead]
      by_cases hback : p1.peek = some '\\'
      · have h2 := h1.bump (by decide) hback
        rw [if_neg (not_not.mpr hback), if_neg (not_not.mpr ((h1.peek_iff (by decide)).mpr hback))]
        by_cases hletter : p1.bump.peek = some 'u'
        · have h3 := h2.bump (by decide) hletter
          rw [if_neg (not_not.mpr hletter),
            if_neg (not_not.mpr ((h2.peek_iff (by decide)).mpr hletter))]
          refine Simulates.bind (hex4_simulates h3) fun low c4 p4 h4 _ => ?_
          simp only
          generalize 0x10000 + (high - 0xD800) * 1024 + (low - 0xDC00) = code
          split_ifs
          · exact charFromU32_simulates h4 code
          · exact .malformed h4 _
        · rw [if_pos hletter, if_pos fun hc => hletter ((h2.peek_iff (by decide)).mp hc)]
          exact .malformed h2 _
      · rw [if_pos hback, if_pos fun hc => hback ((h1.peek_iff (by decide)).mp hc)]
        exact .malformed h1 _
    · rw [if_neg hlead, if_neg hlead]
      exact charFromU32_simulates h1 _

theorem parseEscape_unknown (hshort : ∀ e : ShortEscape, escape ≠ e.letter)
    (hunicode : escape ≠ 'u') (c : Cursor) (p : Parser) :
    parseEscape escape c = .error (c.malformed "unknown escape") ∧
      Parser.parseEscape escape p = .error (p.malformed "unknown escape") := by
  constructor
  · rw [parseEscape]
    exacts [hshort .quote, hshort .backslash, hshort .slash, hshort .b, hshort .f, hshort .n,
      hshort .r, hshort .t, hunicode]
  · rw [Parser.parseEscape]
    exacts [hshort .quote, hshort .backslash, hshort .slash, hshort .b, hshort .f, hshort .n,
      hshort .r, hshort .t, hunicode]

/-- No byte of a longer character, and no such character, is an escape. -/
theorem parseEscape_high (h : 128 ≤ escape.toNat) (c : Cursor) (p : Parser) :
    parseEscape escape c = .error (c.malformed "unknown escape") ∧
      Parser.parseEscape escape p = .error (p.malformed "unknown escape") := by
  refine parseEscape_unknown (fun e he => ?_) (fun he => ?_) c p
  · rw [he] at h
    cases e <;> exact absurd h (by decide)
  · rw [he] at h
    exact absurd h (by decide)

theorem parseEscape_simulates (escape : Char) (h : c.At text p) :
    Simulates text (parseEscape escape c) (Parser.parseEscape escape p) := by
  by_cases hunicode : escape = 'u'
  · subst hunicode
    exact parseUnicodeEscape_simulates h
  · by_cases hshort : ∃ e : ShortEscape, escape = e.letter
    · obtain ⟨e, rfl⟩ := hshort
      rw [Parser.parseEscape_short]
      cases e <;> exact .ok _ h
    · obtain ⟨hrun, hmodel⟩ := parseEscape_unknown (fun e he => hshort ⟨e, he⟩) hunicode c p
      rw [hrun, hmodel]
      exact .malformed h _

theorem parseUnicodeEscape_length {q : Parser} (h : p.parseUnicodeEscape = .ok (ch, q)) :
    q.rest.length ≤ p.rest.length := by
  have hsame : ∀ {r : Parser} {code : Nat}, r.charFromU32 code = .ok (ch, q) → q = r := by
    intro r code hr
    rw [Parser.charFromU32] at hr
    split_ifs at hr
    exact (Prod.mk.inj (Except.ok.inj hr)).2.symm
  rw [Parser.parseUnicodeEscape] at h
  obtain ⟨⟨high, p1⟩, hhigh, h1⟩ := bind_eq_ok.mp h
  obtain ⟨u, -, hu⟩ := Parser.hex4_sound hhigh
  have hlen := congrArg List.length hu
  rw [List.length_append] at hlen
  simp only at h1
  split_ifs at h1 with htrail hlead hback hletter
  · obtain ⟨⟨low, p2⟩, hlow, h2⟩ := bind_eq_ok.mp h1
    obtain ⟨v, -, hv⟩ := Parser.hex4_sound hlow
    have hlen' := congrArg List.length hv
    rw [List.length_append] at hlen'
    simp only at h2
    split_ifs at h2
    rw [hsame h2]
    simp only [Parser.bump, List.length_tail] at hlen'
    omega
  · rw [hsame h1]
    omega

theorem parseEscape_length {q : Parser} (h : Parser.parseEscape escape p = .ok (ch, q)) :
    q.rest.length ≤ p.rest.length := by
  by_cases hunicode : escape = 'u'
  · subst hunicode
    exact parseUnicodeEscape_length h
  · unfold Parser.parseEscape at h
    split at h
    all_goals first
      | exact absurd rfl hunicode
      | (cases h; exact Nat.le_refl _)
      | cases h

/-- A byte that neither ends the string nor starts an escape. -/
theorem parseStringLoop_byte {byte : Char} (hpeek : c.peek = some byte) (hquote : byte ≠ '"')
    (hback : byte ≠ '\\') (turns : Nat) (out : List Char) : parseStringLoop (turns + 1) out c =
      if byte.toNat < 0x20 then .error (c.malformed "raw control character in string")
      else if byte.toNat < 0x80 then parseStringLoop turns (out ++ [byte]) (c.advance 1)
      else (do
        let chars ← c.sliceFrom
        match chars with
        | ch :: _ => parseStringLoop turns (out ++ [ch]) (c.advance ch.utf8Size)
        | [] => .error .panicked) := by
  rw [parseStringLoop, hpeek]
  split
  · next h => cases h
  · next h => cases h; exact absurd rfl hquote
  · next h => cases h; exact absurd rfl hback
  · next h => cases h; rfl

theorem parseStringLoop_control (hquote : ch ≠ '"') (hback : ch ≠ '\\') (hcontrol : ch.toNat < 0x20)
    (fuel : Nat) (out rest : List Char) (pos : Nat) :
    Parser.parseStringLoop (fuel + 1) out ⟨ch :: rest, pos⟩ =
      .error (Parser.malformed ⟨ch :: rest, pos⟩ "raw control character in string") := by
  rw [Parser.parseStringLoop]
  split
  · next h => cases h
  · next h => cases h; exact absurd rfl hquote
  · next h => cases h; exact absurd rfl hback
  · next h => cases h; exact absurd rfl hback
  · next h =>
      cases h
      exact if_pos hcontrol

/-- The string loop, with turns to spare on both sides. -/
theorem parseStringLoop_simulates (fuel : Nat) :
    ∀ (turns : Nat) (out : List Char) {c : Cursor} {p : Parser}, c.At text p →
      p.rest.length < fuel → p.rest.length < turns →
      Simulates text (parseStringLoop turns out c) (Parser.parseStringLoop fuel out p) := by
  induction fuel with
  | zero => intro turns out c p h hfuel; exact absurd hfuel (Nat.not_lt_zero _)
  | succ fuel ih =>
    intro turns out c p h hfuel hturns
    obtain ⟨turns, rfl⟩ : ∃ n, turns = n + 1 := ⟨turns - 1, by omega⟩
    obtain ⟨chars, pos⟩ := p
    rcases h.peek_cases with ⟨hrest, hpeek⟩ | ⟨ch, rest, hrest, hlt, hpeek⟩ |
      ⟨ch, rest, b, hrest, hch, hb, hpeek⟩
    · obtain rfl : chars = [] := hrest
      rw [parseStringLoop, hpeek]
      exact .malformed h _
    · obtain rfl : chars = ch :: rest := hrest
      have hbump := h.bump hlt rfl
      simp only [List.length_cons] at hfuel hturns
      by_cases hquote : ch = '"'
      · subst hquote
        rw [parseStringLoop, hpeek]
        exact .ok _ hbump
      · by_cases hback : ch = '\\'
        · subst hback
          rw [parseStringLoop, hpeek]
          simp only
          rcases hbump.peek_cases with ⟨hrest, hpeek'⟩ | ⟨escape, rest', hrest, hlt', hpeek'⟩ |
            ⟨escape, rest', b, hrest, hch, hb, hpeek'⟩
          · obtain rfl : rest = [] := hrest
            rw [hpeek']
            exact .malformed hbump _
          · obtain rfl : rest = escape :: rest' := hrest
            have hnext := hbump.bump hlt' rfl
            rw [hpeek']
            refine Simulates.bind (parseEscape_simulates escape hnext) fun x c1 p1 h1 hx => ?_
            have hlen := parseEscape_length hx
            have hlen' : p1.rest.length ≤ rest'.length := hlen
            simp only [List.length_cons] at hfuel hturns
            exact ih turns (out ++ [x]) h1 (by omega) (by omega)
          · obtain rfl : rest = escape :: rest' := hrest
            -- Two bytes on is inside the character; both sides stop here.
            have hstop := (parseEscape_high hch ((c.advance 1).advance 1) ⟨rest', pos + 2⟩).2
            have hrun := (parseEscape_high hb ((c.advance 1).advance 1) ⟨rest', pos + 2⟩).1
            have hmodel : Parser.parseStringLoop (fuel + 1) out
                ⟨'\\' :: escape :: rest', pos⟩ = (Parser.parseEscape escape ⟨rest', pos + 2⟩ >>=
              fun q => Parser.parseStringLoop fuel (out ++ [q.1]) q.2) := rfl
            rw [hpeek', hmodel, hstop]
            simp only [hrun]
            have hpos : c.pos = pos := h.pos_eq
            show Except.error _ = Except.error _
            rw [Cursor.malformed, Parser.malformed, advance, advance, hpos]
        · have hrun := parseStringLoop_byte hpeek hquote hback turns out
          rw [if_pos hlt] at hrun
          by_cases hcontrol : ch.toNat < 0x20
          · rw [hrun, if_pos hcontrol, parseStringLoop_control hquote hback hcontrol]
            exact .malformed h _
          · rw [hrun, if_neg hcontrol, Parser.parseStringLoop_plain
              ⟨hquote, hback, Nat.le_of_not_lt hcontrol⟩, utf8Size_ascii hlt]
            have hless : rest.length < fuel ∧ rest.length < turns := by omega
            exact ih turns (out ++ [ch]) hbump hless.1 hless.2
    · obtain rfl : chars = ch :: rest := hrest
      simp only [List.length_cons] at hfuel hturns
      have hne : ∀ {x k : Char}, 128 ≤ x.toNat → k.toNat < 128 → x ≠ k := by
        rintro x k hx hk rfl
        omega
      have hrun := parseStringLoop_byte hpeek (hne hb (by decide)) (hne hb (by decide)) turns out
      rw [if_neg (by omega), if_neg (by omega), h.sliceFrom] at hrun
      rw [hrun, Parser.parseStringLoop_plain
        ⟨hne hch (by decide), hne hch (by decide), by omega⟩]
      have hnext : (c.advance ch.utf8Size).At text ⟨rest, pos + ch.utf8Size⟩ := by
        refine ⟨h.text_eq, charsFrom_add_utf8Size _ h.chars, ?_⟩
        show c.pos + ch.utf8Size = pos + ch.utf8Size
        rw [h.pos_eq]
      have hless : rest.length < fuel ∧ rest.length < turns := by omega
      exact ih turns (out ++ [ch]) hnext hless.1 hless.2

theorem parseString_simulates (h : c.At text p) :
    Simulates text c.parseString p.parseString := by
  rw [parseString, Parser.parseString]
  refine Simulates.expect_bind h (by decide) fun c1 h1 _ => ?_
  refine Simulates.bind (parseStringLoop_simulates _ _ [] h1 (Nat.lt_succ_self _) h1.length_lt)
    fun out c2 p2 h2 _ => ?_
  exact .ok (String.ofList out) h2

/-! ## Containers -/

/-- One value of the two decoders, side by side; what is read is not read again. -/
def ItemSimulates (text : String) (item : ItemParser) (model : Parser.ItemParser) : Prop :=
  ∀ (path : String) {c : Cursor} {p : Parser}, c.At text p →
    Simulates text (item path c) (model path p) ∧
      ∀ v q, model path p = .ok (v, q) → q.rest.length ≤ p.rest.length

variable {item : ItemParser} {model : Parser.ItemParser}

/-- Behind a separator and the whitespace after it there is less to read. -/
theorem length_bump_lt (hpeek : p.peek = some k) :
    p.bump.skipWhitespace.rest.length < p.rest.length := by
  obtain ⟨a, -, ha⟩ := Parser.skipWhitespace_split p.bump
  have h1 := congrArg List.length ha
  have h2 := congrArg List.length (Parser.rest_of_peek hpeek)
  simp only [List.length_append, List.length_cons] at h1 h2
  omega

theorem length_skipWhitespace_le (p : Parser) : p.skipWhitespace.rest.length ≤ p.rest.length := by
  obtain ⟨a, -, ha⟩ := Parser.skipWhitespace_split p
  have h1 := congrArg List.length ha
  simp only [List.length_append] at h1
  omega

/-- A byte that is a separator, that closes the container, or neither. -/
theorem At.mark_cases (h : c.At text p) {comma close : Char} (hcomma : comma.toNat < 128)
    (hclose : close.toNat < 128) :
    (c.peek = some comma ∧ p.peek = some comma ∧ (c.advance 1).At text p.bump) ∨
    (c.peek = some close ∧ p.peek = some close ∧ (c.advance 1).At text p.bump) ∨
    (c.peek ≠ some comma ∧ c.peek ≠ some close ∧ p.peek ≠ some comma ∧ p.peek ≠ some close) := by
  by_cases h1 : p.peek = some comma
  · exact .inl ⟨(h.peek_iff hcomma).mpr h1, h1, h.bump hcomma h1⟩
  · by_cases h2 : p.peek = some close
    · exact .inr (.inl ⟨(h.peek_iff hclose).mpr h2, h2, h.bump hclose h2⟩)
    · exact .inr (.inr ⟨fun hc => h1 ((h.peek_iff hcomma).mp hc),
        fun hc => h2 ((h.peek_iff hclose).mp hc), h1, h2⟩)

theorem parseItems_simulates (hitem : ItemSimulates text item model) (path : String)
    (fuel : Nat) :
    ∀ (turns : Nat) (out : List Value) {c : Cursor} {p : Parser}, c.At text p →
      p.rest.length < fuel → p.rest.length < turns →
      Simulates text (parseItems item path turns out c)
        (Parser.parseItems model path fuel out p) := by
  induction fuel with
  | zero => intro turns out c p h hfuel; exact absurd hfuel (Nat.not_lt_zero _)
  | succ fuel ih =>
    intro turns out c p h hfuel hturns
    obtain ⟨turns, rfl⟩ : ∃ n, turns = n + 1 := ⟨turns - 1, by omega⟩
    obtain ⟨hone, hless⟩ := hitem (path ++ "[" ++ toString out.length ++ "]") h
    rw [parseItems, Parser.parseItems]
    refine Simulates.bind hone fun v c1 p1 h1 hv => ?_
    have hlen := hless v p1 hv
    have hskip := length_skipWhitespace_le p1
    have h2 := h1.skipWhitespace
    simp only
    rcases h2.mark_cases (show ','.toNat < 128 by decide) (show ']'.toNat < 128 by decide) with
      ⟨hc, hp, hbump⟩ | ⟨hc, hp, hbump⟩ | ⟨hc1, hc2, hp1, hp2⟩
    · have hlt := length_bump_lt hp
      rw [hc, hp]
      exact ih turns (out ++ [v]) hbump.skipWhitespace (by omega) (by omega)
    · rw [hc, hp]
      exact .ok _ hbump
    · -- neither mark, on both sides
      split <;> try split
      all_goals first
        | exact .malformed h2 _
        | contradiction

theorem parseFields_simulates (hitem : ItemSimulates text item model) (path : String)
    (fuel : Nat) :
    ∀ (turns : Nat) (out : BTreeMap String Value) {c : Cursor} {p : Parser}, c.At text p →
      p.rest.length < fuel → p.rest.length < turns →
      Simulates text (parseFields item path turns out c)
        (Parser.parseFields model path fuel out p) := by
  induction fuel with
  | zero => intro turns out c p h hfuel; exact absurd hfuel (Nat.not_lt_zero _)
  | succ fuel ih =>
    intro turns out c p h hfuel hturns
    obtain ⟨turns, rfl⟩ : ∃ n, turns = n + 1 := ⟨turns - 1, by omega⟩
    rw [parseFields, Parser.parseFields]
    by_cases hquote : p.peek = some '"'
    · rw [if_neg (not_not.mpr hquote), if_neg (not_not.mpr ((h.peek_iff (by decide)).mpr hquote))]
      refine Simulates.bind (parseString_simulates h) fun key c1 p1 h1 hkey => ?_
      refine Simulates.expect_bind h1.skipWhitespace (by decide) fun c2 h2 hcolon => ?_
      obtain ⟨hone, hless⟩ := hitem (path ++ "." ++ key) h2.skipWhitespace
      refine Simulates.bind hone fun v c3 p3 h3 hv => ?_
      -- every part of the member is behind the one before it
      obtain ⟨ps, cs, hrest, -, -⟩ := Parser.parseString_sound hkey
      have hlen1 := congrArg List.length hrest
      rw [List.length_append] at hlen1
      have hlen2 := length_skipWhitespace_le p1
      have hlen3 := length_bump_lt hcolon
      have hlen4 := hless v p3 hv
      have hlen5 := length_skipWhitespace_le p3
      have h4 := h3.skipWhitespace
      simp only
      rcases h4.mark_cases (show ','.toNat < 128 by decide) (show '}'.toNat < 128 by decide) with
        ⟨hc, hp, hbump⟩ | ⟨hc, hp, hbump⟩ | ⟨hc1, hc2, hp1, hp2⟩
      · have hlt := length_bump_lt hp
        rw [hc, hp]
        exact ih turns (out.insert key v) hbump.skipWhitespace (by omega) (by omega)
      · rw [hc, hp]
        exact .ok _ hbump
      · split <;> try split
        all_goals first
          | exact .malformed h4 _
          | contradiction
    · rw [if_pos hquote, if_pos fun hc => hquote ((h.peek_iff (by decide)).mp hc)]
      exact .malformed h _

theorem parseArray_simulates (hitem : ItemSimulates text item model) (path : String)
    (h : c.At text p) :
    Simulates text (parseArray item path c) (Parser.parseArray model path p) := by
  rw [parseArray, Parser.parseArray]
  refine Simulates.expect_bind h (by decide) fun c1 h1 _ => ?_
  have h2 := h1.skipWhitespace
  simp only
  by_cases hclose : p.bump.skipWhitespace.peek = some ']'
  · rw [if_pos hclose, if_pos ((h2.peek_iff (by decide)).mpr hclose)]
    exact .ok _ (h2.bump (by decide) hclose)
  · rw [if_neg hclose, if_neg fun hc => hclose ((h2.peek_iff (by decide)).mp hc)]
    exact parseItems_simulates hitem path _ _ [] h2 (Nat.lt_succ_self _) h2.length_lt

theorem parseObject_simulates (hitem : ItemSimulates text item model) (path : String)
    (h : c.At text p) :
    Simulates text (parseObject item path c) (Parser.parseObject model path p) := by
  rw [parseObject, Parser.parseObject]
  refine Simulates.expect_bind h (by decide) fun c1 h1 _ => ?_
  have h2 := h1.skipWhitespace
  simp only
  by_cases hclose : p.bump.skipWhitespace.peek = some '}'
  · rw [if_pos hclose, if_pos ((h2.peek_iff (by decide)).mpr hclose)]
    exact .ok _ (h2.bump (by decide) hclose)
  · rw [if_neg hclose, if_neg fun hc => hclose ((h2.peek_iff (by decide)).mp hc)]
    exact parseFields_simulates hitem path _ _ .empty h2 (Nat.lt_succ_self _) h2.length_lt

/-- A byte that starts neither a word nor a string nor a container. -/
theorem parseValue_other {byte : Char} (hpeek : c.peek = some byte)
    (hother : byte ∉ ['n', 't', 'f', '"', '[', '{']) (room : Nat) (path : String) :
    parseValue (room + 1) path c = if byte = '-' ∨ byte.isDigit then parseNumber path c
      else .error (c.malformed "unexpected character") := by
  rw [parseValue, hpeek]
  split
  all_goals first
    | next h => cases h; rfl
    | next h => cases h; exact absurd (by decide) hother
    | next h => cases h

theorem parseValue_other' {ch : Char} (hpeek : p.peek = some ch)
    (hother : ch ∉ ['n', 't', 'f', '"', '[', '{']) (room : Nat) (path : String) :
    Parser.parseValue (room + 1) path p = if ch = '-' ∨ ch.isDigit then Parser.parseNumber path p
      else .error (p.malformed "unexpected character") := by
  rw [Parser.parseValue, hpeek]
  split
  all_goals first
    | next h => cases h; rfl
    | next h => cases h; exact absurd (by decide) hother
    | next h => cases h

theorem high_not_mem (h : 128 ≤ ch.toNat) :
    ch ∉ ['n', 't', 'f', '"', '[', '{'] ∧ ¬(ch = '-' ∨ ch.isDigit) := by
  constructor
  · intro hmem
    simp only [List.mem_cons, List.not_mem_nil, or_false] at hmem
    rcases hmem with rfl | rfl | rfl | rfl | rfl | rfl <;> exact absurd h (by decide)
  · rintro (rfl | hdigit)
    · exact absurd h (by decide)
    · have := isDigit_ascii ch hdigit
      omega

theorem parseValue_simulates (room : Nat) :
    ItemSimulates text (parseValue room) (Parser.parseValue room) := by
  induction room with
  | zero =>
    intro path c p h
    exact ⟨rfl, fun v q hv => by cases hv⟩
  | succ room ih =>
    intro path c p h
    refine ⟨?_, fun v q hv => ?_⟩
    · rcases h.peek_cases with ⟨hrest, hpeek⟩ | ⟨ch, rest, hrest, hlt, hpeek⟩ |
        ⟨ch, rest, b, hrest, hch, hb, hpeek⟩
      · have hpeek' : p.peek = none := by rw [Parser.peek, hrest]; rfl
        rw [parseValue, hpeek, Parser.parseValue, hpeek']
        exact .malformed h _
      · have hpeek' : p.peek = some ch := by rw [Parser.peek, hrest]; rfl
        by_cases hword : ch ∈ ['n', 't', 'f', '"', '[', '{']
        · rw [parseValue, hpeek, Parser.parseValue, hpeek']
          simp only [List.mem_cons, List.not_mem_nil, or_false] at hword
          rcases hword with rfl | rfl | rfl | rfl | rfl | rfl
          · exact literal_simulates h "null" .null (by simp)
          · exact literal_simulates h "true" (.bool true) (by simp)
          · exact literal_simulates h "false" (.bool false) (by simp)
          · exact Simulates.bind (parseString_simulates h) fun s c1 p1 h1 _ =>
              .ok (Value.string s) h1
          · exact parseArray_simulates ih path h
          · exact parseObject_simulates ih path h
        · rw [parseValue_other hpeek hword, parseValue_other' hpeek' hword]
          split_ifs
          · exact parseNumber_simulates h path
          · exact .malformed h _
      · have hpeek' : p.peek = some ch := by rw [Parser.peek, hrest]; rfl
        obtain ⟨hb1, hb2⟩ := high_not_mem hb
        obtain ⟨hch1, hch2⟩ := high_not_mem hch
        rw [parseValue_other hpeek hb1, parseValue_other' hpeek' hch1, if_neg hb2, if_neg hch2]
        exact .malformed h _
    · obtain ⟨t, s, hrest, -⟩ := Parser.parseValue_sound _ _ _ _ _ hv
      have hlen := congrArg List.length hrest
      rw [List.length_append] at hlen
      omega

/-! ## Whole texts -/

/-- Nothing is left to read exactly at the end of the bytes. -/
theorem At.end_iff (h : c.At text p) : c.pos = c.bytes.length ↔ p.rest = [] := by
  have hdrop := h.drop_bytes
  have hle : c.pos ≤ c.bytes.length := by
    rw [bytes_eq]
    exact (drop_utf8 _ h.chars).2
  constructor
  · intro hend
    rw [hend, List.drop_length] at hdrop
    have hlen := length_le_utf8 p.rest
    rw [← hdrop] at hlen
    exact List.length_eq_zero_iff.mp (Nat.le_zero.mp hlen)
  · intro hrest
    rw [hrest] at hdrop
    have hlen := congrArg List.length hdrop
    rw [List.length_drop] at hlen
    have : (utf8 []).length = 0 := rfl
    omega

/-- **The two decoders agree** on every text, in the value and in the error. -/
theorem fromJson_eq (text : String) :
    fromJson text = match Value.fromJson text with
      | .ok v => .ok v
      | .error e => .error (.refused e) := by
  have hstart : (⟨text, 0⟩ : Cursor).At text ⟨text.toList, 0⟩ := ⟨rfl, charsFrom_zero _, rfl⟩
  have hvalue := (parseValue_simulates (MAX_DEPTH + 1) "$" hstart.skipWhitespace).1
  rw [fromJson, Value.fromJson, Value.fromJsonWithin]
  generalize Parser.parseValue (MAX_DEPTH + 1) "$" _ = model at hvalue ⊢
  cases model with
  | error e =>
    have hrun : parseValue (MAX_DEPTH + 1) "$" (skipWhitespace ⟨text, 0⟩) =
      .error (.refused e) := hvalue
    simp only [hrun]
    rfl
  | ok x =>
    obtain ⟨v, p⟩ := x
    obtain ⟨c, hrun, hat⟩ := hvalue
    have h := hat.skipWhitespace
    simp only [hrun, bind, Except.bind]
    by_cases hend : p.skipWhitespace.rest = []
    · rw [if_neg (not_not.mpr hend), if_neg (not_not.mpr (h.end_iff.mpr hend))]
    · rw [if_pos hend, if_pos fun hc => hend (h.end_iff.mp hc)]
      exact congrArg Except.error (h.malformed _)

/-- **What `from_json` accepts.** It returns a value exactly on the texts of the grammar whose
numbers are integers that fit, whose strings pair their surrogates and which nest no deeper
than the limit, and the value is what the text denotes. On every other text it returns an
error: no slice leaves the text or cuts a character, and no loop goes on for ever. -/
theorem fromJson_exact (text : String) :
    (∀ v, fromJson text = .ok v ↔ ∃ s, JsonText text s ∧ s.Admissible ∧ s.depth ≤ 128 ∧
      s.value? = some v) ∧
    (∀ s, JsonText text s → s.Admissible → s.depth ≤ 128 → ∃ v, fromJson text = .ok v) ∧
    ((∃ v, fromJson text = .ok v) ∨ ∃ e, fromJson text = .error (.refused e)) := by
  have hok : ∀ v, fromJson text = .ok v ↔ Value.fromJson text = .ok v := by
    intro v
    rw [fromJson_eq]
    cases Value.fromJson text with
    | ok w => rw [Except.ok.injEq, Except.ok.injEq]
    | error e => exact ⟨(nomatch ·), (nomatch ·)⟩
  have hexact : ∀ v, fromJson text = .ok v ↔ ∃ s, JsonText text s ∧ s.Admissible ∧
      s.depth ≤ 128 ∧ s.value? = some v := by
    intro v
    rw [hok, Value.fromJson_eq_ok_iff]
    constructor
    · rintro ⟨s, htext, hdepth, hval⟩
      have hadmissible := (Json.isSome_value?_iff s).mp (by rw [hval]; rfl)
      exact ⟨s, htext, hadmissible, hdepth, hval⟩
    · rintro ⟨s, htext, -, hdepth, hval⟩
      exact ⟨s, htext, hdepth, hval⟩
  refine ⟨hexact, fun s htext hadmissible hdepth => ?_, ?_⟩
  · obtain ⟨v, hval⟩ := Option.isSome_iff_exists.mp ((Json.isSome_value?_iff s).mpr hadmissible)
    exact ⟨v, (hexact v).mpr ⟨s, htext, hadmissible, hdepth, hval⟩⟩
  · rw [fromJson_eq]
    cases Value.fromJson text with
    | ok v => exact .inl ⟨v, rfl⟩
    | error e => exact .inr ⟨e, rfl⟩

end Cursor

end Cairn.Ports.Canonical
