import Cairn.Ports.Canonical.Encode

/-!
# The canonical decoder

`Value::from_json` and the `Parser` behind it. The source keeps the whole
text and a byte position; a position in a `&str` that the parser can reach is
always a character boundary, so the state here is the characters still to
read together with that byte position, which only the error texts look at.

The recursion counter is turned round: `parseValue room` may open `room - 1`
further levels, and `room = MAX_DEPTH + 1 - depth`. The two loops that have no
structural argument (`loop` over the items of a container and over the
characters of a string) run on the number of characters left, which each
turn lowers.
-/

namespace Cairn.Ports.Canonical

open Cairn.Verified

inductive CanonicalError where
  /-- A float appeared in the input, at this path. -/
  | float (path : String)
  /-- An integer outside the signed 128-bit range, at this path. -/
  | integerOutOfRange (path : String)
  | malformed (why : String)
deriving DecidableEq

/-- Recursion ceiling for `fromJson`. -/
def MAX_DEPTH : Nat := 128

structure Parser where
  rest : List Char
  pos : Nat
deriving DecidableEq

namespace Parser

def peek (p : Parser) : Option Char := p.rest.head?

def isWhitespace (c : Char) : Bool := c = ' ' || c = '\t' || c = '\n' || c = '\r'

def skipWhitespace (p : Parser) : Parser :=
  ⟨p.rest.dropWhile isWhitespace, p.pos + (p.rest.takeWhile isWhitespace).length⟩

def malformed (p : Parser) (why : String) : CanonicalError :=
  .malformed (why ++ " at byte " ++ toString p.pos)

/-- Consume one ASCII character that the caller has already seen. -/
def bump (p : Parser) : Parser := ⟨p.rest.tail, p.pos + 1⟩

def expect (p : Parser) (c : Char) : Except CanonicalError Parser :=
  if p.peek = some c then .ok p.bump
  else .error (p.malformed ("expected '" ++ String.singleton c ++ "'"))

def literal (p : Parser) (word : String) (value : Value) :
    Except CanonicalError (Value × Parser) :=
  if word.toList.isPrefixOf p.rest then
    .ok (value, ⟨p.rest.drop word.length, p.pos + word.length⟩)
  else .error (p.malformed "invalid literal")

/-! ## Numbers -/

def peekDigit (p : Parser) : Bool := p.peek.any Char.isDigit

/-- The run of digits at the front, and the parser past it. -/
def takeDigits (p : Parser) : List Char × Parser :=
  (p.rest.takeWhile Char.isDigit,
    ⟨p.rest.dropWhile Char.isDigit, p.pos + (p.rest.takeWhile Char.isDigit).length⟩)

/-- `0`, or a nonzero digit followed by more. -/
def parseIntPart (p : Parser) : Except CanonicalError (List Char × Parser) :=
  match p.peek with
  | some '0' =>
    if p.bump.peekDigit then .error (p.bump.malformed "leading zero") else .ok (['0'], p.bump)
  | some c => if c.isDigit then .ok p.takeDigits else .error (p.malformed "expected a digit")
  | none => .error (p.malformed "expected a digit")

/-- An optional fraction; says whether there was one. -/
def parseFraction (p : Parser) : Except CanonicalError (Bool × Parser) :=
  if p.peek = some '.' then
    if p.bump.peekDigit then .ok (true, p.bump.takeDigits.2)
    else .error (p.bump.malformed "expected a digit after '.'")
  else .ok (false, p)

/-- An optional exponent; says whether there was one. -/
def parseExponent (p : Parser) : Except CanonicalError (Bool × Parser) :=
  if p.peek = some 'e' ∨ p.peek = some 'E' then
    let q := p.bump
    let q := if q.peek = some '+' ∨ q.peek = some '-' then q.bump else q
    if q.peekDigit then .ok (true, q.takeDigits.2)
    else .error (q.malformed "expected a digit in the exponent")
  else .ok (false, p)

/-- `parse::<i128>` on an optional sign and a run of digits. -/
def intOfDigits (negative : Bool) (digits : List Char) : Int :=
  if negative then -(Nat.ofDigitChars 10 digits 0 : Int) else Nat.ofDigitChars 10 digits 0

def parseNumber (path : String) (p : Parser) : Except CanonicalError (Value × Parser) := do
  let negative := p.peek == some '-'
  let start := if negative then p.bump else p
  let (digits, p) ← parseIntPart start
  let (fraction, p) ← parseFraction p
  let (exponent, p) ← parseExponent p
  -- The whole grammar is consumed before the float refusal.
  if fraction || exponent then
    .error (.float path)
  else
    match I128.ofInt? (intOfDigits negative digits) with
    | some i => .ok (.int i, p)
    | none => .error (.integerOutOfRange path)

/-! ## Strings -/

/-- The value of a hexadecimal digit of either case. -/
def hexDigitVal? (c : Char) : Option Nat :=
  if '0' ≤ c ∧ c ≤ '9' then some (c.toNat - '0'.toNat)
  else if 'a' ≤ c ∧ c ≤ 'f' then some (c.toNat - 'a'.toNat + 10)
  else if 'A' ≤ c ∧ c ≤ 'F' then some (c.toNat - 'A'.toNat + 10)
  else none

def hex4 (p : Parser) : Except CanonicalError (Nat × Parser) :=
  match p.rest with
  | a :: b :: c :: d :: rest =>
    match hexDigitVal? a, hexDigitVal? b, hexDigitVal? c, hexDigitVal? d with
    | some a, some b, some c, some d =>
      .ok (((a * 16 + b) * 16 + c) * 16 + d, ⟨rest, p.pos + 4⟩)
    | _, _, _, _ => .error (p.malformed "expected four hex digits")
  | _ => .error (p.malformed "expected four hex digits")

/-- `char::from_u32`. -/
def charFromU32 (p : Parser) (code : Nat) : Except CanonicalError (Char × Parser) :=
  if code.isValidChar then .ok (Char.ofNat code, p) else .error (p.malformed "invalid escape")

/-- `\uXXXX`, with a surrogate pair combined into one character. -/
def parseUnicodeEscape (p : Parser) : Except CanonicalError (Char × Parser) := do
  let (high, p) ← p.hex4
  if 0xDC00 ≤ high ∧ high ≤ 0xDFFF then
    .error (p.malformed "lone trailing surrogate")
  else if 0xD800 ≤ high ∧ high ≤ 0xDBFF then
    if p.peek ≠ some '\\' then .error (p.malformed "lone leading surrogate")
    else if p.bump.peek ≠ some 'u' then .error (p.bump.malformed "lone leading surrogate")
    else
      let (low, p) ← p.bump.bump.hex4
      if ¬(0xDC00 ≤ low ∧ low ≤ 0xDFFF) then .error (p.malformed "lone leading surrogate")
      else p.charFromU32 (0x10000 + (high - 0xD800) * 1024 + (low - 0xDC00))
  else p.charFromU32 high

/-- The character after a backslash, with the parser past it. -/
def parseEscape (escape : Char) (p : Parser) : Except CanonicalError (Char × Parser) :=
  match escape with
  | '"' => .ok ('"', p)
  | '\\' => .ok ('\\', p)
  | '/' => .ok ('/', p)
  | 'b' => .ok ('\x08', p)
  | 'f' => .ok ('\x0c', p)
  | 'n' => .ok ('\n', p)
  | 'r' => .ok ('\r', p)
  | 't' => .ok ('\t', p)
  | 'u' => p.parseUnicodeEscape
  | _ => .error (p.malformed "unknown escape")

/-- The characters of a string literal up to and past its closing quote. -/
def parseStringLoop : Nat → List Char → Parser → Except CanonicalError (List Char × Parser)
  | 0, _, p => .error (p.malformed "unterminated string")
  | fuel + 1, out, p =>
    match p.rest with
    | [] => .error (p.malformed "unterminated string")
    | '"' :: _ => .ok (out, p.bump)
    | ['\\'] => .error (p.bump.malformed "unterminated escape")
    | '\\' :: escape :: rest => do
        let (ch, p) ← parseEscape escape ⟨rest, p.pos + 2⟩
        parseStringLoop fuel (out ++ [ch]) p
    | ch :: rest =>
      if ch.toNat < 0x20 then .error (p.malformed "raw control character in string")
      else parseStringLoop fuel (out ++ [ch]) ⟨rest, p.pos + ch.utf8Size⟩

def parseString (p : Parser) : Except CanonicalError (String × Parser) := do
  let p ← p.expect '"'
  let (out, p) ← parseStringLoop (p.rest.length + 1) [] p
  .ok (String.ofList out, p)

/-! ## Containers -/

/-- A parser for one value at a given path, one level down. -/
abbrev ItemParser := String → Parser → Except CanonicalError (Value × Parser)

/-- The loop of `parse_array`. -/
def parseItems (item : ItemParser) (path : String) :
    Nat → List Value → Parser → Except CanonicalError (Value × Parser)
  | 0, _, p => .error (p.malformed "expected ',' or ']'")
  | fuel + 1, out, p => do
      let (v, p) ← item (path ++ "[" ++ toString out.length ++ "]") p
      let p := p.skipWhitespace
      match p.peek with
      | some ',' => parseItems item path fuel (out ++ [v]) p.bump.skipWhitespace
      | some ']' => .ok (.array (out ++ [v]), p.bump)
      | _ => .error (p.malformed "expected ',' or ']'")

def parseArray (item : ItemParser) (path : String) (p : Parser) :
    Except CanonicalError (Value × Parser) := do
  let p ← p.expect '['
  let p := p.skipWhitespace
  if p.peek = some ']' then .ok (.array [], p.bump)
  else parseItems item path (p.rest.length + 1) [] p

/-- The loop of `parse_object`. -/
def parseFields (item : ItemParser) (path : String) :
    Nat → BTreeMap String Value → Parser → Except CanonicalError (Value × Parser)
  | 0, _, p => .error (p.malformed "expected ',' or '\x7d'")
  | fuel + 1, out, p =>
    if p.peek ≠ some '"' then .error (p.malformed "expected a string key")
    else do
      let (key, p) ← p.parseString
      let p ← p.skipWhitespace.expect ':'
      let (v, p) ← item (path ++ "." ++ key) p.skipWhitespace
      let p := p.skipWhitespace
      match p.peek with
      | some ',' => parseFields item path fuel (out.insert key v) p.bump.skipWhitespace
      | some '}' => .ok (.objectOf (out.insert key v), p.bump)
      | _ => .error (p.malformed "expected ',' or '\x7d'")

def parseObject (item : ItemParser) (path : String) (p : Parser) :
    Except CanonicalError (Value × Parser) := do
  let p ← p.expect '{'
  let p := p.skipWhitespace
  if p.peek = some '}' then .ok (.objectOf .empty, p.bump)
  else parseFields item path (p.rest.length + 1) .empty p

/-- One value, with `room` levels left before the recursion limit. -/
def parseValue : Nat → ItemParser
  | 0, _, _ => .error (.malformed "recursion limit exceeded")
  | room + 1, path, p =>
    match p.peek with
    | some 'n' => p.literal "null" .null
    | some 't' => p.literal "true" (.bool true)
    | some 'f' => p.literal "false" (.bool false)
    | some '"' => do
        let (s, p) ← p.parseString
        .ok (.string s, p)
    | some '[' => parseArray (parseValue room) path p
    | some '{' => parseObject (parseValue room) path p
    | some c =>
      if c = '-' ∨ c.isDigit then parseNumber path p
      else .error (p.malformed "unexpected character")
    | none => .error (p.malformed "unexpected end of input")

end Parser

/-- `from_json` with the recursion ceiling as an argument. -/
def Value.fromJsonWithin (ceiling : Nat) (text : String) : Except CanonicalError Value := do
  let p : Parser := ⟨text.toList, 0⟩
  let (value, p) ← Parser.parseValue (ceiling + 1) "$" p.skipWhitespace
  let p := p.skipWhitespace
  if p.rest ≠ [] then .error (p.malformed "trailing characters after the value")
  else .ok value

/-- Parse JSON text into a canonical value, refusing floats at the boundary. -/
def Value.fromJson (text : String) : Except CanonicalError Value :=
  Value.fromJsonWithin MAX_DEPTH text

end Cairn.Ports.Canonical
