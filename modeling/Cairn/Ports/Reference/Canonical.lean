import Cairn.Ports.Canonical.Merkle

/-!
# The canonical layer of the second implementation

`reference/rust/src/canonical.rs`, a second crate that derives the same bytes,
roots and paths. It declares the same `Value` and the same path, so those are
shared, as is the cursor of the decoder: the characters still to read and the
byte position. Everything that computes is translated again, in the shape this
crate gives it: the writer appends to what is there, a number is sliced out of
the text and parsed, and the tree is walked over a list of level widths.
-/

namespace Cairn.Ports.Reference

open Cairn.Verified
open Cairn.Ports.Canonical

/-- The only field is the text. -/
structure CanonicalError where
  text : String

/-- Recursion ceiling for the decoder. -/
def MAX_DEPTH : Nat := 128

/-! ## Writing -/

/-- One character of a string literal, appended. -/
def escapeChar (out : List Char) (ch : Char) : List Char :=
  if ch = '"' then out ++ ['\\', '"']
  else if ch = '\\' then out ++ ['\\', '\\']
  else if ch = '\x08' then out ++ ['\\', 'b']
  else if ch = '\t' then out ++ ['\\', 't']
  else if ch = '\n' then out ++ ['\\', 'n']
  else if ch = '\x0c' then out ++ ['\\', 'f']
  else if ch = '\r' then out ++ ['\\', 'r']
  else if ch.toNat < 0x20 then out ++ '\\' :: 'u' :: (Nat.toDigits 16 ch.toNat).leftpad 4 '0'
  else out ++ [ch]

def escape (text : String) (out : List Char) : List Char :=
  text.toList.foldl escapeChar (out ++ ['"']) ++ ['"']

mutual

def write : Tree → List Char → List Char
  | .null, out => out ++ ['n', 'u', 'l', 'l']
  | .bool true, out => out ++ ['t', 'r', 'u', 'e']
  | .bool false, out => out ++ ['f', 'a', 'l', 's', 'e']
  | .int value, out => out ++ writeInt value.val
  | .string text, out => escape text out
  | .array items, out => writeItems 0 items (out ++ ['[']) ++ [']']
  | .object map, out => writeFields 0 map (out ++ ['{']) ++ ['}']

/-- The items from `index` on. -/
def writeItems : Nat → List Tree → List Char → List Char
  | _, [], out => out
  | index, item :: items, out =>
    writeItems (index + 1) items (write item (if index > 0 then out ++ [','] else out))

/-- The fields from `index` on. -/
def writeFields : Nat → List (String × Tree) → List Char → List Char
  | _, [], out => out
  | index, (key, item) :: fields, out =>
    let out := if index > 0 then out ++ [','] else out
    writeFields (index + 1) fields (write item (escape key out ++ [':']))

end

def canonicalString (v : Value) : String := String.ofList (write v.tree [])

def canonicalBytes (v : Value) : ByteArray := (canonicalString v).toUTF8

/-! ## Decoding -/

namespace Parser

def bad (p : Parser) (why : String) : CanonicalError :=
  ⟨"malformed JSON: " ++ why ++ " at byte " ++ toString p.pos⟩

/-- `skip_space` on what is left of the text. -/
def skipSpaceFrom : List Char → Nat → Parser
  | [], pos => ⟨[], pos⟩
  | c :: rest, pos =>
    if c = ' ' ∨ c = '\t' ∨ c = '\n' ∨ c = '\r' then skipSpaceFrom rest (pos + 1)
    else ⟨c :: rest, pos⟩

def skipSpace (p : Parser) : Parser := skipSpaceFrom p.rest p.pos

def literal (p : Parser) (word : List Char) (value : Value) :
    Except CanonicalError (Value × Parser) :=
  if word <+: p.rest then .ok (value, ⟨p.rest.drop word.length, p.pos + word.length⟩)
  else .error (bad p "invalid literal")

/-! ### Numbers -/

def isDigit (c : Char) : Bool := '0' ≤ c && c ≤ '9'

/-- The loops over a run of digits. -/
def skipDigitsFrom : List Char → Nat → Parser
  | [], pos => ⟨[], pos⟩
  | c :: rest, pos => if isDigit c then skipDigitsFrom rest (pos + 1) else ⟨c :: rest, pos⟩

def skipDigits (p : Parser) : Parser := skipDigitsFrom p.rest p.pos

def atDigit (p : Parser) : Bool := p.peek.any isDigit

/-- `str::parse::<i128>`. -/
def parseI128 (text : List Char) : Option I128 :=
  let negative := text.head? == some '-'
  let digits := if negative || text.head? == some '+' then text.tail else text
  if digits.isEmpty || !digits.all isDigit then none
  else I128.ofInt? (Parser.intOfDigits negative digits)

def intPart (p : Parser) : Except CanonicalError Parser :=
  match p.peek with
  | some '0' => if atDigit p.bump then .error (bad p.bump "leading zero") else .ok p.bump
  | some c => if isDigit c then .ok (skipDigits p) else .error (bad p "expected a digit")
  | none => .error (bad p "expected a digit")

def fraction (p : Parser) : Except CanonicalError (Bool × Parser) :=
  if p.peek = some '.' then
    if atDigit p.bump then .ok (true, skipDigits p.bump)
    else .error (bad p.bump "expected a digit after '.'")
  else .ok (false, p)

def exponent (isFloat : Bool) (p : Parser) : Except CanonicalError (Bool × Parser) :=
  if p.peek = some 'e' ∨ p.peek = some 'E' then
    let p := if p.bump.peek = some '+' ∨ p.bump.peek = some '-' then p.bump.bump else p.bump
    if atDigit p then .ok (true, skipDigits p)
    else .error (bad p "expected a digit in the exponent")
  else .ok (isFloat, p)

def number (path : String) (start : Parser) : Except CanonicalError (Value × Parser) := do
  let p ← intPart (if start.peek = some '-' then start.bump else start)
  let (isFloat, p) ← fraction p
  let (isFloat, p) ← exponent isFloat p
  if isFloat then .error ⟨path ++ ": float values are not canonically serializable"⟩
  else
    match parseI128 (start.rest.take (p.pos - start.pos)) with
    | some i => .ok (.int i, p)
    | none => .error ⟨path ++ ": integer outside the signed 128-bit canonical range"⟩

/-! ### Strings -/

def isHexDigit (c : Char) : Bool :=
  ('0' ≤ c && c ≤ '9') || ('a' ≤ c && c ≤ 'f') || ('A' ≤ c && c ≤ 'F')

def hex4 (p : Parser) : Except CanonicalError (Nat × Parser) :=
  let slice := p.rest.take 4
  if slice.length = 4 ∧ slice.all isHexDigit then
    .ok ((fromStrRadix16 (2 ^ 32) slice).getD 0, ⟨p.rest.drop 4, p.pos + 4⟩)
  else .error (bad p "expected four hex digits")

/-- `char::from_u32`. -/
def charFromU32 (p : Parser) (code : Nat) : Except CanonicalError (Char × Parser) :=
  if code.isValidChar then .ok (Char.ofNat code, p) else .error (bad p "invalid escape")

def unicodeEscape (p : Parser) : Except CanonicalError (Char × Parser) := do
  let (high, p) ← hex4 p
  if 0xDC00 ≤ high ∧ high ≤ 0xDFFF then .error (bad p "lone trailing surrogate")
  else if 0xD800 ≤ high ∧ high ≤ 0xDBFF then
    if p.peek ≠ some '\\' then .error (bad p "lone leading surrogate")
    else if p.bump.peek ≠ some 'u' then .error (bad p.bump "lone leading surrogate")
    else
      let (low, p) ← hex4 p.bump.bump
      if 0xDC00 ≤ low ∧ low ≤ 0xDFFF then
        charFromU32 p (0x10000 + ((high - 0xD800) <<< 10) + (low - 0xDC00))
      else .error (bad p "lone leading surrogate")
  else charFromU32 p high

/-- The character an escape stands for; `p` is past its letter. -/
def escaped (letter : Char) (p : Parser) : Except CanonicalError (Char × Parser) :=
  if letter = '"' then .ok ('"', p)
  else if letter = '\\' then .ok ('\\', p)
  else if letter = '/' then .ok ('/', p)
  else if letter = 'b' then .ok ('\x08', p)
  else if letter = 'f' then .ok ('\x0c', p)
  else if letter = 'n' then .ok ('\n', p)
  else if letter = 'r' then .ok ('\r', p)
  else if letter = 't' then .ok ('\t', p)
  else if letter = 'u' then unicodeEscape p
  else .error (bad p "unknown escape")

/-- The loop of `string`, on the number of characters left. -/
def stringLoop : Nat → List Char → Parser → Except CanonicalError (List Char × Parser)
  | 0, _, p => .error (bad p "unterminated string")
  | fuel + 1, out, p =>
    match p.peek with
    | none => .error (bad p "unterminated string")
    | some byte =>
      if byte = '"' then .ok (out, p.bump)
      else if byte = '\\' then
        match p.bump.peek with
        | none => .error (bad p.bump "unterminated escape")
        | some letter => do
            let (ch, p) ← escaped letter p.bump.bump
            stringLoop fuel (out ++ [ch]) p
      else if byte.toNat < 0x20 then .error (bad p "raw control character in string")
      else stringLoop fuel (out ++ [byte]) ⟨p.rest.tail, p.pos + byte.utf8Size⟩

/-- The caller has seen the opening quote. -/
def string (p : Parser) : Except CanonicalError (String × Parser) := do
  let (out, p) ← stringLoop (p.bump.rest.length + 1) [] p.bump
  .ok (String.ofList out, p)

/-! ### Containers -/

/-- A decoder for one value at a path, one level down. -/
abbrev ItemParser := String → Parser → Except CanonicalError (Value × Parser)

def arrayLoop (item : ItemParser) (path : String) :
    Nat → List Value → Parser → Except CanonicalError (Value × Parser)
  | 0, _, p => .error (bad p "expected ',' or ']'")
  | fuel + 1, out, p => do
      let (v, p) ← item (path ++ "[" ++ toString out.length ++ "]") p
      let p := skipSpace p
      if p.peek = some ',' then arrayLoop item path fuel (out ++ [v]) (skipSpace p.bump)
      else if p.peek = some ']' then .ok (.array (out ++ [v]), p.bump)
      else .error (bad p "expected ',' or ']'")

/-- The caller has seen the bracket. -/
def array (item : ItemParser) (path : String) (p : Parser) :
    Except CanonicalError (Value × Parser) :=
  let p := skipSpace p.bump
  if p.peek = some ']' then .ok (.array [], p.bump)
  else arrayLoop item path (p.rest.length + 1) [] p

def mapLoop (item : ItemParser) (path : String) :
    Nat → BTreeMap String Value → Parser → Except CanonicalError (Value × Parser)
  | 0, _, p => .error (bad p "expected ',' or '\x7d'")
  | fuel + 1, out, p =>
    if p.peek ≠ some '"' then .error (bad p "expected a string key")
    else do
      let (key, p) ← string p
      let p := skipSpace p
      if p.peek ≠ some ':' then .error (bad p "expected ':'")
      else
        let (v, p) ← item (path ++ "." ++ key) (skipSpace p.bump)
        -- the last value of a key wins
        let out := out.insert key v
        let p := skipSpace p
        if p.peek = some ',' then mapLoop item path fuel out (skipSpace p.bump)
        else if p.peek = some '\x7d' then .ok (.objectOf out, p.bump)
        else .error (bad p "expected ',' or '\x7d'")

/-- The caller has seen the brace. -/
def map (item : ItemParser) (path : String) (p : Parser) :
    Except CanonicalError (Value × Parser) :=
  let p := skipSpace p.bump
  if p.peek = some '\x7d' then .ok (.objectOf .empty, p.bump)
  else mapLoop item path (p.rest.length + 1) .empty p

/-- `value`, with `room` levels left before the ceiling. -/
def value : Nat → ItemParser
  | 0, _, _ => .error ⟨"malformed JSON: too deeply nested"⟩
  | room + 1, path, p =>
    match p.peek with
    | none => .error (bad p "unexpected end of input")
    | some c =>
      if c = 'n' then literal p ['n', 'u', 'l', 'l'] .null
      else if c = 't' then literal p ['t', 'r', 'u', 'e'] (.bool true)
      else if c = 'f' then literal p ['f', 'a', 'l', 's', 'e'] (.bool false)
      else if c = '"' then do
        let (text, p) ← string p
        .ok (.string text, p)
      else if c = '[' then array (value room) path p
      else if c = '{' then map (value room) path p
      else if c = '-' ∨ isDigit c then number path p
      else .error (bad p "unexpected character")

end Parser

def fromJson (text : String) : Except CanonicalError Value := do
  let (value, p) ← Parser.value (MAX_DEPTH + 1) "$" (Parser.skipSpace ⟨text.toList, 0⟩)
  let p := Parser.skipSpace p
  if p.rest ≠ [] then .error (Parser.bad p "trailing characters after the value")
  else .ok value

/-! ## The tree -/

section Tree

variable [Sha256]

/-- Two lowercase digits per byte. -/
def hexLower (bytes : List UInt8) : List Char :=
  (bytes.map fun b => (Nat.toDigits 16 b.toNat).leftpad 2 '0').flatten

def digestBytes (data : ByteArray) : String :=
  DIGEST_PREFIX ++ String.ofList (hexLower (Sha256.hash data).toList)

def digest (v : Value) : String := digestBytes (canonicalBytes v)

/-- The level above a level of this width: the pairs at the even positions,
and the odd last node. -/
def nextLevel (width : Nat) (level : List String) : List String :=
  ((List.range (width / 2)).map fun i =>
    digestBytes (level.getD (2 * i) "" ++ level.getD (2 * i + 1) "").toUTF8) ++
    if width % 2 = 1 then [level.getD (width - 1) ""] else []

/-- The loop of `merkle_root`; each turn at least halves, rounding up. -/
def rootLoop : Nat → List String → List String
  | 0, level => level
  | fuel + 1, level =>
    if 1 < level.length then rootLoop fuel (nextLevel level.length level) else level

def merkleRoot (leaves : List String) : Option String :=
  if leaves.isEmpty then none else (rootLoop leaves.length leaves).head?

/-- The loop of `level_widths`. -/
def widthsFrom : Nat → Nat → List Nat
  | 0, _ => []
  | fuel + 1, width => if 1 < width then width :: widthsFrom fuel ((width + 1) / 2) else []

/-- The widths of every level of a tree, bottom up. -/
def levelWidths (leaves : Nat) : List Nat := widthsFrom leaves leaves

/-- The siblings on the way up from a position. -/
def siblingsFrom : List Nat → List String → Nat → List String
  | [], _, _ => []
  | width :: widths, level, here =>
    (if width % 2 = 1 ∧ here = width - 1 then []
      else [level.getD (if here % 2 = 0 then here + 1 else here - 1) ""]) ++
      siblingsFrom widths (nextLevel width level) (here / 2)

def merkleProof (leaves : List String) (index : Nat) : Option Inclusion :=
  if leaves.length ≤ index then none
  else
    some { index, leaves := leaves.length
           siblings := siblingsFrom (levelWidths leaves.length) leaves index }

/-- The loop of `verify`: the hash arrived at and the siblings left over, or
nothing when the path runs out. -/
def climb : List Nat → String → Nat → List String → Option (String × List String)
  | [], hash, _, supplied => some (hash, supplied)
  | width :: widths, hash, here, supplied =>
    if width % 2 = 1 ∧ here = width - 1 then climb widths hash (here / 2) supplied
    else
      match supplied with
      | [] => none
      | sibling :: supplied =>
        let joined := if here % 2 = 0 then hash ++ sibling else sibling ++ hash
        climb widths (digestBytes joined.toUTF8) (here / 2) supplied

/-- Walk a path from `leaf` and report whether it arrives at `root`. -/
def verify (p : Inclusion) (leaf root : String) : Bool :=
  if p.leaves ≤ p.index then false
  else
    match climb (levelWidths p.leaves) leaf p.index p.siblings with
    | none => false
    | some (hash, supplied) => supplied.isEmpty && hash == root

end Tree

end Cairn.Ports.Reference
