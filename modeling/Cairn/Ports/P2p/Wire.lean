import Cairn.Ports.Canonical.RoundTrip
import Cairn.Ports.Canonical.Merkle
import Cairn.Verified.Abort

/-!
# Reading what a peer sent

What the message decoders of `src/p2p/` share: from bytes to a value, fields
that are lists with a ceiling, and slices of a text by byte positions, which
panic off a character boundary.
-/

namespace Cairn.Ports.Wire

open Cairn.Verified
open Cairn.Ports.Canonical

/-- How a text is quoted in an error, `{:?}`. -/
class DebugText where
  quoted : String → String

/-- `{:?}` of a text that may be absent. -/
def quotedOption [DebugText] : Option String → String
  | some text => "Some(" ++ DebugText.quoted text ++ ")"
  | none => "None"

/-- The text of an error of the canonical decoder. -/
def display : CanonicalError → String
  | .float path => path ++ ": float values are not canonically serializable; carry a " ++
      "scaled integer or a decimal string instead"
  | .integerOutOfRange path => path ++ ": integer outside the signed 128-bit canonical range"
  | .malformed why => "malformed JSON: " ++ why

section Fields

variable {ε : Type} (malformed : String → ε) (tooMany : Nat → Nat → ε)

/-- The value a message's bytes are the text of. -/
def valueOf (bytes : ByteArray) : Except (Abort ε) Value := do
  let text ← orError (malformed "not UTF-8") (String.fromUTF8? bytes)
  calling (fun error => malformed (display error)) (Value.fromJson text)

/-- A field that is a list. -/
def arrayOf (value : Value) (field : String) : Except (Abort ε) (List Value) :=
  orError (malformed (field ++ " is not an array")) ((value.get field).bind Value.asArray)

/-- A field that is a list with no more items than the limit. -/
def boundedArray (value : Value) (field : String) (limit : Nat) :
    Except (Abort ε) (List Value) := do
  let items ← arrayOf malformed value field
  require (items.length ≤ limit) (tooMany limit items.length)
  .ok items

/-- A list of texts. -/
def stringsOf (field : String) (items : List Value) : Except (Abort ε) (List String) :=
  collect (fun item => orError (malformed (field ++ " contains a non-string")) item.asStr) items

@[simp] theorem returns_valueOf (bytes : ByteArray) : Returns (valueOf malformed bytes) := by
  unfold valueOf
  rw [returns_bind]
  exact ⟨returns_orError _ _, fun _ _ => returns_calling _ _⟩

@[simp] theorem returns_arrayOf (value : Value) (field : String) :
    Returns (arrayOf malformed value field) := returns_orError _ _

@[simp] theorem returns_boundedArray (value : Value) (field : String) (limit : Nat) :
    Returns (boundedArray malformed tooMany value field limit) := by
  unfold boundedArray
  rw [returns_bind]
  refine ⟨returns_orError _ _, fun items _ => ?_⟩
  rw [returns_bind]
  exact ⟨returns_require _ _, fun _ _ => returns_ok _⟩

@[simp] theorem returns_stringsOf (field : String) (items : List Value) :
    Returns (stringsOf malformed field items) :=
  returns_collect_of (fun _ => returns_orError _ _) items

theorem valueOf_eq_ok {bytes : ByteArray} {value : Value} :
    valueOf malformed bytes = .ok value ↔
      ∃ text, String.fromUTF8? bytes = some text ∧ Value.fromJson text = .ok value := by
  simp [valueOf]

theorem fromUTF8?_toUTF8 (text : String) : String.fromUTF8? text.toUTF8 = some text :=
  dif_pos text.isValidUTF8

/-- What was encoded is the value of its bytes. -/
theorem valueOf_canonicalBytes {v : Value} (h : v.depth ≤ MAX_DEPTH) :
    valueOf malformed v.canonicalBytes = .ok v :=
  (valueOf_eq_ok malformed).mpr
    ⟨v.canonicalString, fromUTF8?_toUTF8 _, Value.fromJson_canonicalString v h⟩

theorem stringsOf_map (field : String) (texts : List String) :
    stringsOf malformed field (texts.map Value.string) = .ok texts := by
  have hcollect : collect (fun item : Value =>
      orError (malformed (field ++ " contains a non-string")) item.asStr) (texts.map .string) =
        .ok (texts.map fun text => text) :=
    collect_map_ok fun text _ => by simp [Value.asStr]
  rw [stringsOf, hcollect, List.map_id']

end Fields

/-! ## Slices -/

/-- The characters of the first so many bytes, and the rest; none where the cut is
inside a character or past the end. -/
def takeBytes : List Char → Nat → Option (List Char × List Char)
  | text, 0 => some ([], text)
  | [], _ + 1 => none
  | c :: text, n + 1 =>
    if c.utf8Size ≤ n + 1 then
      (takeBytes text (n + 1 - c.utf8Size)).map fun taken => (c :: taken.1, taken.2)
    else none

/-- `text[first..last]`. -/
def slice (text : List Char) (first last : Nat) : Option (List Char) :=
  (takeBytes text first).bind fun cut => (takeBytes cut.2 (last - first)).map Prod.fst

/-- How many bytes a text has. -/
def byteLength (text : List Char) : Nat := (text.map Char.utf8Size).sum

@[simp] theorem byteLength_nil : byteLength [] = 0 := rfl

@[simp] theorem byteLength_cons (c : Char) (text : List Char) :
    byteLength (c :: text) = c.utf8Size + byteLength text := by simp [byteLength]

@[simp] theorem byteLength_append (text rest : List Char) :
    byteLength (text ++ rest) = byteLength text + byteLength rest := by simp [byteLength]

theorem takeBytes_append (text rest : List Char) :
    takeBytes (text ++ rest) (byteLength text) = some (text, rest) := by
  induction text with
  | nil =>
    rw [byteLength_nil, List.nil_append]
    cases rest <;> rfl
  | cons c text ih =>
    have hpos := Char.utf8Size_pos c
    rw [byteLength_cons, List.cons_append]
    obtain ⟨n, hn⟩ : ∃ n, c.utf8Size + byteLength text = n + 1 :=
      ⟨c.utf8Size + byteLength text - 1, by omega⟩
    rw [hn, takeBytes, if_pos (by omega), ← hn, Nat.add_sub_cancel_left, ih]
    rfl

theorem takeBytes_eq_some {text taken rest : List Char} {n : Nat}
    (h : takeBytes text n = some (taken, rest)) : text = taken ++ rest ∧ byteLength taken = n := by
  induction text generalizing n taken with
  | nil =>
    cases n with
    | zero =>
      cases h
      exact ⟨rfl, rfl⟩
    | succ n => cases h
  | cons c text ih =>
    cases n with
    | zero =>
      cases h
      exact ⟨rfl, rfl⟩
    | succ n =>
      rw [takeBytes] at h
      split at h
      · rename_i hle
        rcases Option.map_eq_some_iff.mp h with ⟨⟨taken', rest'⟩, htake, heq⟩
        cases heq
        rcases ih htake with ⟨hsplit, hlength⟩
        refine ⟨?_, ?_⟩
        · rw [hsplit]
          rfl
        · rw [byteLength_cons, hlength]
          omega
      · cases h

/-- A slice behind some text is one of what follows it. -/
theorem slice_append (text rest : List Char) (n : Nat) :
    slice (text ++ rest) (byteLength text) (byteLength text + n) =
      (takeBytes rest n).map Prod.fst := by
  unfold slice
  rw [takeBytes_append, Nat.add_sub_cancel_left]
  rfl

end Cairn.Ports.Wire
