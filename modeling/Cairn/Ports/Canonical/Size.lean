import Cairn.Ports.Canonical.Cursor
import Cairn.Ports.Canonical.Merkle

/-!
# The length of a canonical text

How many bytes a value's text has, counted over the bytes of its strings and
without writing it. A digest by length is then found without the text.
-/

namespace Cairn.Ports.Canonical

open Cairn.Verified

/-- What `write_escaped` spends on a byte. -/
def escapedByte (b : UInt8) : Nat :=
  if 35 ≤ b.toNat then if b.toNat = 92 then 2 else 1
  else if b.toNat = 34 then 2
  else if 32 ≤ b.toNat then 1
  else if b.toNat = 11 ∨ b.toNat < 8 ∨ 13 < b.toNat then 6
  else 2

/-- The bytes of a string literal, with its quotes. -/
def escapedSize (s : String) : Nat := 2 + (s.toUTF8.data.toList.map escapedByte).sum

/-- The bytes of a text. -/
def utf8Length (text : List Char) : Nat := (text.map Char.utf8Size).sum

@[simp] theorem utf8Length_nil : utf8Length [] = 0 := rfl

@[simp] theorem utf8Length_cons (c : Char) (text : List Char) :
    utf8Length (c :: text) = c.utf8Size + utf8Length text := rfl

@[simp] theorem utf8Length_append (xs ys : List Char) :
    utf8Length (xs ++ ys) = utf8Length xs + utf8Length ys := by
  simp [utf8Length]

theorem utf8ByteSize_ofList (text : List Char) :
    (String.ofList text).utf8ByteSize = utf8Length text := by
  induction text with
  | nil => rfl
  | cons c text ih =>
    rw [String.ofList_cons]
    simp [String.utf8ByteSize_append, ih]

theorem escapedByte_of_le {b : UInt8} (h : 128 ≤ b.toNat) : escapedByte b = 1 := by
  unfold escapedByte
  rw [if_pos (by omega), if_neg (by omega)]

theorem escapeChar_of_le {c : Char} (h : 128 ≤ c.toNat) : escapeChar c = [c] := by
  have hne : ∀ d : Char, d.toNat < 128 → c ≠ d := by
    rintro d hd rfl
    omega
  unfold escapeChar
  rw [if_neg (hne _ (by decide)), if_neg (hne _ (by decide)), if_neg (hne _ (by decide)),
    if_neg (hne _ (by decide)), if_neg (hne _ (by decide)), if_neg (hne _ (by decide)),
    if_neg (hne _ (by decide)), if_neg (by omega)]

/-- A character is escaped as its bytes are counted: only ASCII has escapes. -/
theorem utf8Length_escapeChar (c : Char) :
    utf8Length (escapeChar c) = ((String.utf8EncodeChar c).map escapedByte).sum := by
  by_cases hascii : c.toNat < 128
  · have hall : ∀ n : Fin 128, utf8Length (escapeChar (Char.ofNat n)) =
        ((String.utf8EncodeChar (Char.ofNat n)).map escapedByte).sum := by decide +kernel
    have hc := hall ⟨c.toNat, hascii⟩
    rwa [Char.ofNat_toNat] at hc
  · have hlong : 128 ≤ c.toNat := by omega
    have hone : ∀ b ∈ String.utf8EncodeChar c, escapedByte b = 1 := fun b hb =>
      escapedByte_of_le (le_of_mem_utf8EncodeChar hlong hb)
    rw [escapeChar_of_le hlong, List.map_congr_left hone, List.map_const',
      String.length_utf8EncodeChar]
    simp

theorem utf8Length_flatMap_escapeChar (text : List Char) :
    utf8Length (text.flatMap escapeChar) = ((utf8 text).map escapedByte).sum := by
  induction text with
  | nil => rfl
  | cons c text ih =>
    rw [List.flatMap_cons, utf8Length_append, utf8Length_escapeChar, ih, utf8_cons,
      List.map_append, List.sum_append]

theorem utf8Length_writeEscaped (s : String) : utf8Length (writeEscaped s) = escapedSize s := by
  have hbytes : s.toUTF8.data.toList = utf8 s.toList := Cursor.bytes_eq ⟨s, 0⟩
  have hquote : '"'.utf8Size = 1 := by decide
  rw [writeEscaped, utf8Length_cons, utf8Length_append, utf8Length_flatMap_escapeChar, escapedSize,
    hbytes, utf8Length_cons, utf8Length_nil, hquote]
  omega

mutual

/-- The bytes `write_canonical` spends on a tree. -/
def Tree.size : Tree → Nat
  | .null => 4
  | .bool true => 4
  | .bool false => 5
  | .int i => (writeInt i.val).length
  | .string s => escapedSize s
  | .array items => 2 + Tree.sizeItems items
  | .object fields => 2 + Tree.sizeFields fields

def Tree.sizeItems : List Tree → Nat
  | [] => 0
  | t :: ts => t.size + Tree.sizeMoreItems ts

def Tree.sizeMoreItems : List Tree → Nat
  | [] => 0
  | t :: ts => 1 + (t.size + Tree.sizeMoreItems ts)

def Tree.sizeFields : List (String × Tree) → Nat
  | [] => 0
  | (k, t) :: fs => escapedSize k + (1 + (t.size + Tree.sizeMoreFields fs))

def Tree.sizeMoreFields : List (String × Tree) → Nat
  | [] => 0
  | (k, t) :: fs => 1 + (escapedSize k + (1 + (t.size + Tree.sizeMoreFields fs)))

end

theorem utf8Length_ascii {text : List Char} (h : ∀ c ∈ text, c.toNat < 128) :
    utf8Length text = text.length := by
  induction text with
  | nil => rfl
  | cons c text ih =>
    rw [utf8Length_cons, utf8Size_ascii (h c List.mem_cons_self),
      ih fun d hd => h d (List.mem_cons_of_mem _ hd), List.length_cons, Nat.add_comm]

theorem utf8Length_writeInt (i : Int) : utf8Length (writeInt i) = (writeInt i).length := by
  have hdigits : ∀ c ∈ Nat.toDigits 10 i.natAbs, c.toNat < 128 := by
    intro c hc
    have hdigit := Nat.isDigit_of_mem_toDigits (b := 10) (by decide) (by decide) hc
    simp only [Char.isDigit, Bool.and_eq_true, decide_eq_true_eq] at hdigit
    have hhigh : c.toNat ≤ 57 := hdigit.2
    omega
  apply utf8Length_ascii
  rw [writeInt]
  split_ifs
  · intro c hc
    rcases List.mem_cons.mp hc with rfl | hc
    · decide
    · exact hdigits c hc
  · exact hdigits

mutual

theorem utf8Length_writeCanonical : ∀ t : Tree, utf8Length t.writeCanonical = t.size
  | .null => by decide
  | .bool true => by decide
  | .bool false => by decide
  | .int i => utf8Length_writeInt i.val
  | .string s => utf8Length_writeEscaped s
  | .array items => by
      rw [Tree.writeCanonical, utf8Length_cons, utf8Length_append, utf8Length_writeItems items,
        Tree.size, show utf8Length [']'] = 1 from rfl, show '['.utf8Size = 1 from rfl]
      omega
  | .object fields => by
      rw [Tree.writeCanonical, utf8Length_cons, utf8Length_append, utf8Length_writeFields fields,
        Tree.size, show utf8Length ['}'] = 1 from rfl, show '{'.utf8Size = 1 from rfl]
      omega

theorem utf8Length_writeItems : ∀ ts : List Tree,
    utf8Length (Tree.writeItems ts) = Tree.sizeItems ts
  | [] => rfl
  | t :: ts => by
      rw [Tree.writeItems, utf8Length_append, utf8Length_writeCanonical t,
        utf8Length_writeMoreItems ts, Tree.sizeItems]

theorem utf8Length_writeMoreItems : ∀ ts : List Tree,
    utf8Length (Tree.writeMoreItems ts) = Tree.sizeMoreItems ts
  | [] => rfl
  | t :: ts => by
      rw [Tree.writeMoreItems, utf8Length_cons, utf8Length_append, utf8Length_writeCanonical t,
        utf8Length_writeMoreItems ts, Tree.sizeMoreItems, show ','.utf8Size = 1 from rfl]

theorem utf8Length_writeFields : ∀ fs : List (String × Tree),
    utf8Length (Tree.writeFields fs) = Tree.sizeFields fs
  | [] => rfl
  | (k, t) :: fs => by
      rw [Tree.writeFields, utf8Length_append, utf8Length_cons, utf8Length_append,
        utf8Length_writeEscaped, utf8Length_writeCanonical t, utf8Length_writeMoreFields fs,
        Tree.sizeFields, show ':'.utf8Size = 1 from rfl]

theorem utf8Length_writeMoreFields : ∀ fs : List (String × Tree),
    utf8Length (Tree.writeMoreFields fs) = Tree.sizeMoreFields fs
  | [] => rfl
  | (k, t) :: fs => by
      rw [Tree.writeMoreFields, utf8Length_cons, utf8Length_append, utf8Length_cons,
        utf8Length_append, utf8Length_writeEscaped, utf8Length_writeCanonical t,
        utf8Length_writeMoreFields fs, Tree.sizeMoreFields, show ','.utf8Size = 1 from rfl,
        show ':'.utf8Size = 1 from rfl]

end

namespace Value

theorem size_canonicalBytes (v : Value) : v.canonicalBytes.size = v.tree.size :=
  (utf8ByteSize_ofList v.write).trans (utf8Length_writeCanonical v.tree)

/-- A digest that depends on the length alone. -/
theorem digest_of_size [Sha256] {v : Value} {n : Nat} {text : String}
    (hhash : ∀ data : ByteArray, data.size = n → digestBytes data = text)
    (hsize : v.tree.size = n) : v.digest = text :=
  hhash _ ((size_canonicalBytes v).trans hsize)

/-- Where digests go by length, a value's is the row of its length. -/
theorem digest_ofLengths (rows : List (Nat × Nat)) {v : Value} {n : Nat} {text : String}
    (hsize : v.tree.size = n)
    (htext : DIGEST_PREFIX ++ String.ofList (hexEncode (digestOfNat
      (((rows.find? fun row => row.1 = n).map Prod.snd).getD 0)).toList) = text) :
    @digest (.ofLengths rows) v = text := by
  subst hsize
  rw [← htext, ← size_canonicalBytes v]
  rfl

end Value

/-- A table finds a text by itself. -/
theorem Sha256.hash_ofTable (rows : List (String × Nat)) (text : String) :
    (Sha256.ofTable rows).hash text.toUTF8 =
      digestOfNat (((rows.find? fun row => row.1 = text).map Prod.snd).getD 0) := by
  have hsame : ∀ row : String × Nat, (row.1.toUTF8 = text.toUTF8) = (row.1 = text) := fun row =>
    propext String.toByteArray_inj
  show digestOfNat (((rows.find? fun row => row.1.toUTF8 = text.toUTF8).map Prod.snd).getD 0) = _
  simp only [hsame]

end Cairn.Ports.Canonical
