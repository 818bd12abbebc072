import Cairn.Ports.Canonical.Value
import Mathlib.Tactic.IntervalCases

/-!
# The canonical encoder

`write_canonical` and `write_escaped` of `src/canonical.rs`. The writer works
on characters; `canonicalString` packs them into a string and
`canonicalBytes` takes its UTF-8 bytes, which is what gets hashed.

Nesting is measured by `Value.depth`: the length of the longest chain of
containers each holding the next, so a scalar and an empty container both
have depth zero. That is the number the decoder's recursion counter reaches.
-/

namespace Cairn.Ports.Canonical

open Cairn.Verified

/-- One character of a string literal, as `write_escaped` spells it. -/
def escapeChar (ch : Char) : List Char :=
  if ch = '"' then ['\\', '"']
  else if ch = '\\' then ['\\', '\\']
  else if ch = '\x08' then ['\\', 'b']
  else if ch = '\t' then ['\\', 't']
  else if ch = '\n' then ['\\', 'n']
  else if ch = '\x0c' then ['\\', 'f']
  else if ch = '\r' then ['\\', 'r']
  else if ch.toNat < 0x20 then
    -- `{:04x}`: four lowercase hexadecimal digits.
    ['\\', 'u', Nat.digitChar (ch.toNat / 4096 % 16), Nat.digitChar (ch.toNat / 256 % 16),
      Nat.digitChar (ch.toNat / 16 % 16), Nat.digitChar (ch.toNat % 16)]
  else [ch]

def writeEscaped (s : String) : List Char :=
  '"' :: (s.toList.flatMap escapeChar ++ ['"'])

/-- `i128::to_string`. -/
def writeInt (i : Int) : List Char :=
  if i < 0 then '-' :: Nat.toDigits 10 i.natAbs else Nat.toDigits 10 i.natAbs

mutual

def Tree.writeCanonical : Tree → List Char
  | .null => ['n', 'u', 'l', 'l']
  | .bool true => ['t', 'r', 'u', 'e']
  | .bool false => ['f', 'a', 'l', 's', 'e']
  | .int i => writeInt i.val
  | .string s => writeEscaped s
  | .array items => '[' :: (Tree.writeItems items ++ [']'])
  | .object fields => '{' :: (Tree.writeFields fields ++ ['}'])

/-- The items of an array, with a comma before each but the first. -/
def Tree.writeItems : List Tree → List Char
  | [] => []
  | t :: ts => t.writeCanonical ++ Tree.writeMoreItems ts

def Tree.writeMoreItems : List Tree → List Char
  | [] => []
  | t :: ts => ',' :: (t.writeCanonical ++ Tree.writeMoreItems ts)

/-- The fields of an object, with a comma before each but the first. -/
def Tree.writeFields : List (String × Tree) → List Char
  | [] => []
  | (k, t) :: fs => writeEscaped k ++ ':' :: (t.writeCanonical ++ Tree.writeMoreFields fs)

def Tree.writeMoreFields : List (String × Tree) → List Char
  | [] => []
  | (k, t) :: fs =>
    ',' :: (writeEscaped k ++ ':' :: (t.writeCanonical ++ Tree.writeMoreFields fs))

end

mutual

/-- Levels of nesting below the root. -/
def Tree.depth : Tree → Nat
  | .null => 0
  | .bool _ => 0
  | .int _ => 0
  | .string _ => 0
  | .array items => Tree.depthItems items
  | .object fields => Tree.depthFields fields

def Tree.depthItems : List Tree → Nat
  | [] => 0
  | t :: ts => max (t.depth + 1) (Tree.depthItems ts)

def Tree.depthFields : List (String × Tree) → Nat
  | [] => 0
  | (_, t) :: fs => max (t.depth + 1) (Tree.depthFields fs)

end

namespace Value

def write (v : Value) : List Char := v.tree.writeCanonical

def depth (v : Value) : Nat := v.tree.depth

def canonicalString (v : Value) : String := String.ofList v.write

/-- The one canonical byte encoding of a value. -/
def canonicalBytes (v : Value) : ByteArray := v.canonicalString.toUTF8

@[simp] theorem toList_canonicalString (v : Value) : v.canonicalString.toList = v.write :=
  String.toList_ofList

/-! ## The writer on the declared constructors -/

/-- Items after the first. -/
def writeMore (vs : List Value) : List Char := vs.flatMap fun v => ',' :: v.write

/-- A field as the writer spells it. -/
def writeField (e : String × Value) : List Char := writeEscaped e.1 ++ ':' :: e.2.write

/-- Fields after the first. -/
def writeMoreFields (es : List (String × Value)) : List Char :=
  es.flatMap fun e => ',' :: writeField e

theorem writeMoreItems_map (vs : List Value) :
    Tree.writeMoreItems (vs.map tree) = writeMore vs := by
  induction vs with
  | nil => rfl
  | cons v vs ih => simp [Tree.writeMoreItems, writeMore, write, ih]

theorem tree_writeMoreFields_map (es : List (String × Value)) :
    Tree.writeMoreFields (es.map fun e => (e.1, e.2.tree)) = writeMoreFields es := by
  induction es with
  | nil => rfl
  | cons e es ih => simp [Tree.writeMoreFields, writeMoreFields, writeField, write, ih]

@[simp] theorem write_null : null.write = ['n', 'u', 'l', 'l'] := rfl

@[simp] theorem write_true : (bool true).write = ['t', 'r', 'u', 'e'] := rfl

@[simp] theorem write_false : (bool false).write = ['f', 'a', 'l', 's', 'e'] := rfl

@[simp] theorem write_int (i : I128) : (int i).write = writeInt i.val := rfl

@[simp] theorem write_string (s : String) : (string s).write = writeEscaped s := rfl

@[simp] theorem write_array_nil : (array []).write = ['[', ']'] := rfl

theorem write_array_cons (v : Value) (vs : List Value) :
    (array (v :: vs)).write = '[' :: (v.write ++ (writeMore vs ++ [']'])) := by
  simp [write, array, Tree.writeCanonical, Tree.writeItems, writeMoreItems_map]

variable {map : BTreeMap String Value} {n : Nat}

theorem write_objectOf :
    (objectOf map).write =
      '{' :: (Tree.writeFields (map.entries.map fun e => (e.1, e.2.tree)) ++ ['}']) := rfl

theorem write_objectOf_nil (h : map.entries = []) :
    (objectOf map).write = ['{', '}'] := by
  rw [write_objectOf, h]
  rfl

theorem write_objectOf_cons {e : String × Value}
    {es : List (String × Value)} (h : map.entries = e :: es) :
    (objectOf map).write = '{' :: (writeField e ++ (writeMoreFields es ++ ['}'])) := by
  rw [write_objectOf, h]
  simp [Tree.writeFields, tree_writeMoreFields_map, writeField, write]

/-! ## Depth of the declared constructors -/

@[simp] theorem depth_null : null.depth = 0 := rfl

@[simp] theorem depth_bool (b : Bool) : (bool b).depth = 0 := rfl

@[simp] theorem depth_int (i : I128) : (int i).depth = 0 := rfl

@[simp] theorem depth_string (s : String) : (string s).depth = 0 := rfl

theorem depth_array_le {vs : List Value} :
    (array vs).depth ≤ n ↔ ∀ v ∈ vs, v.depth + 1 ≤ n := by
  show Tree.depthItems (vs.map tree) ≤ n ↔ _
  induction vs with
  | nil => simp [Tree.depthItems]
  | cons v vs ih =>
    simp only [List.map_cons, Tree.depthItems, Nat.max_le, ih, List.forall_mem_cons]
    rfl

theorem depth_objectOf_le :
    (objectOf map).depth ≤ n ↔ ∀ e ∈ map.entries, e.2.depth + 1 ≤ n := by
  show Tree.depthFields (map.entries.map fun e => (e.1, e.2.tree)) ≤ n ↔ _
  induction map.entries with
  | nil => simp [Tree.depthFields]
  | cons e es ih =>
    simp only [List.map_cons, Tree.depthFields, Nat.max_le, ih, List.forall_mem_cons]
    rfl

/-! ## No control characters -/

/-- Whether no character of the text is a control character. -/
def Printable (text : List Char) : Prop := ∀ c ∈ text, 0x20 ≤ c.toNat

theorem Printable.append {xs ys : List Char} (hxs : Printable xs) (hys : Printable ys) :
    Printable (xs ++ ys) := by
  intro c hc
  rcases List.mem_append.mp hc with hc | hc
  · exact hxs c hc
  · exact hys c hc

theorem Printable.cons {c : Char} {xs : List Char} (hc : 0x20 ≤ c.toNat) (hxs : Printable xs) :
    Printable (c :: xs) := by
  intro d hd
  rcases List.mem_cons.mp hd with rfl | hd
  · exact hc
  · exact hxs d hd

theorem Printable.flatMap {α : Type} {f : α → List Char} {xs : List α}
    (h : ∀ x ∈ xs, Printable (f x)) : Printable (xs.flatMap f) := by
  intro c hc
  obtain ⟨x, hx, hcx⟩ := List.mem_flatMap.mp hc
  exact h x hx c hcx

theorem printable_of_all {text : List Char}
    (h : text.all (fun c => 0x20 ≤ c.toNat) = true) : Printable text := by
  intro c hc
  exact of_decide_eq_true (List.all_eq_true.mp h c hc)

theorem printable_digitChar (h : n < 16) : 0x20 ≤ (Nat.digitChar n).toNat := by
  interval_cases n <;> decide

theorem printable_escapeChar (c : Char) : Printable (escapeChar c) := by
  have hhex : ∀ n, 0x20 ≤ (Nat.digitChar (n % 16)).toNat :=
    fun n => printable_digitChar (Nat.mod_lt _ (by decide))
  have hshort : ∀ d, 0x20 ≤ d.toNat → Printable ['\\', d] :=
    fun d hd => .cons (by decide) (.cons hd (by simp [Printable]))
  unfold escapeChar
  split_ifs with h1 h2 h3 h4 h5 h6 h7 h8
  · exact hshort _ (by decide)
  · exact hshort _ (by decide)
  · exact hshort _ (by decide)
  · exact hshort _ (by decide)
  · exact hshort _ (by decide)
  · exact hshort _ (by decide)
  · exact hshort _ (by decide)
  · refine .append (hshort 'u' (by decide)) ?_
    exact .cons (hhex _) (.cons (hhex _) (.cons (hhex _) (.cons (hhex _) (by simp [Printable]))))
  · exact .cons (Nat.le_of_not_lt h8) (by simp [Printable])

theorem printable_writeEscaped (s : String) : Printable (writeEscaped s) := by
  refine .cons (by decide) (.append (.flatMap fun c _ => printable_escapeChar c) ?_)
  exact .cons (by decide) (by simp [Printable])

theorem printable_writeInt (i : Int) : Printable (writeInt i) := by
  have hdigits : Printable (Nat.toDigits 10 i.natAbs) := by
    intro c hc
    have hdigit := Nat.isDigit_of_mem_toDigits (b := 10) (by decide) (by decide) hc
    simp only [Char.isDigit, Bool.and_eq_true, decide_eq_true_eq] at hdigit
    have hlow : 48 ≤ c.toNat := hdigit.1
    omega
  rw [writeInt]
  split_ifs
  · exact .cons (by decide) hdigits
  · exact hdigits

/-- The writer escapes every control character. -/
theorem printable_write (v : Value) : Printable v.write := by
  induction v using induct with
  | hnull => exact printable_of_all rfl
  | hbool b =>
    cases b with
    | false => exact printable_of_all rfl
    | true => exact printable_of_all rfl
  | hint i => exact printable_writeInt i.val
  | hstring s => exact printable_writeEscaped s
  | harray items ih =>
    cases items with
    | nil => exact printable_of_all rfl
    | cons v vs =>
      rw [write_array_cons]
      refine .cons (by decide) (.append (ih v (by simp)) (.append (.flatMap ?_) ?_))
      · intro w hw
        exact .cons (by decide) (ih w (by simp [hw]))
      · exact .cons (by decide) (by simp [Printable])
  | hobject map ih =>
    have hfield : ∀ e ∈ map.entries, Printable (writeField e) := fun e he =>
      .append (printable_writeEscaped e.1) (.cons (by decide) (ih e he))
    cases hentries : map.entries with
    | nil =>
      rw [write_objectOf_nil hentries]
      exact printable_of_all rfl
    | cons e es =>
      rw [hentries] at hfield
      rw [write_objectOf_cons hentries]
      refine .cons (by decide) (.append (hfield e (by simp)) (.append (.flatMap ?_) ?_))
      · intro f hf
        exact .cons (by decide) (hfield f (by simp [hf]))
      · exact .cons (by decide) (by simp [Printable])

end Value

end Cairn.Ports.Canonical
