import Cairn.Ports.Canonical.Size
import Mathlib.Algebra.Order.BigOperators.Group.List

/-!
# The length of an object, a list and a plain string

The bytes of a canonical text from the bytes of its parts, for values that are
not written out. The order in which an object lists its fields does not change
how long it is.
-/

namespace Cairn.Ports.Canonical

open Cairn.Verified

/-- Pairs under different keys are all listed. -/
theorem entries_ofList_perm {κ ν : Type} [LinearOrder κ] {pairs : List (κ × ν)}
    (hnodup : (pairs.map Prod.fst).Nodup) : (BTreeMap.ofList pairs).entries.Perm pairs := by
  rw [List.perm_ext_iff_of_nodup (BTreeMap.nodup_entries _) hnodup.of_map]
  intro e
  rw [← BTreeMap.get?_eq_some_iff (x := e.2), BTreeMap.get?_ofList_eq_some_iff hnodup]

theorem Tree.sizeMoreFields_eq (fs : List (String × Tree)) :
    Tree.sizeMoreFields fs = (fs.map fun f => escapedSize f.1 + f.2.size + 2).sum := by
  induction fs with
  | nil => rfl
  | cons f fs ih =>
    rw [Tree.sizeMoreFields, ih, List.map_cons, List.sum_cons]
    omega

theorem Tree.sizeMoreItems_eq (ts : List Tree) :
    Tree.sizeMoreItems ts = (ts.map fun t => t.size + 1).sum := by
  induction ts with
  | nil => rfl
  | cons t ts ih =>
    rw [Tree.sizeMoreItems, ih, List.map_cons, List.sum_cons]
    omega

/-- How many bytes the text of a value has. -/
def Value.size (v : Value) : Nat := v.canonicalBytes.size

namespace Value

theorem size_eq (v : Value) : v.size = v.tree.size := v.size_canonicalBytes

/-- An object of different keys: per field its key, its value and two bytes, and
one byte more. -/
theorem size_object {pairs : List (String × Value)} (hnodup : (pairs.map Prod.fst).Nodup)
    (hne : pairs ≠ []) :
    (object pairs).size = 1 + (pairs.map fun e => escapedSize e.1 + e.2.size + 2).sum := by
  have hperm := entries_ofList_perm hnodup
  have hsum := (hperm.map fun e : String × Value => escapedSize e.1 + e.2.size + 2).sum_eq
  rw [size_eq, ← hsum]
  show 2 + Tree.sizeFields ((BTreeMap.ofList pairs).entries.map fun e => (e.1, e.2.tree)) = _
  cases hentries : (BTreeMap.ofList pairs).entries with
  | nil =>
    rw [hentries] at hperm
    exact absurd hperm.symm.eq_nil hne
  | cons e es =>
    rw [List.map_cons, Tree.sizeFields, Tree.sizeMoreFields_eq, List.map_map, List.map_cons,
      List.sum_cons]
    simp only [Function.comp_def, size_eq]
    omega

/-- A list: per item its text and one byte, and one byte more. -/
theorem size_array {items : List Value} (hne : items ≠ []) :
    (array items).size = 1 + (items.map fun v => v.size + 1).sum := by
  rw [size_eq]
  show 2 + Tree.sizeItems (items.map tree) = _
  cases items with
  | nil => exact absurd rfl hne
  | cons v vs =>
    rw [List.map_cons, Tree.sizeItems, Tree.sizeMoreItems_eq, List.map_map, List.map_cons,
      List.sum_cons]
    simp only [Function.comp_def, size_eq]
    omega

/-- A list of as many items, none longer than the bound. -/
theorem size_array_le {items : List Value} {count bound : Nat} (hcount : items.length ≤ count)
    (hbound : ∀ v ∈ items, v.size ≤ bound) :
    (array items).size ≤ 2 + count * (bound + 1) := by
  by_cases hne : items = []
  · subst hne
    have hnil : (array []).size = 2 := by
      rw [size_eq]
      rfl
    omega
  · have hsum : (items.map fun v => v.size + 1).sum ≤ items.length * (bound + 1) := by
      have h := List.sum_le_card_nsmul (items.map fun v => v.size + 1) (bound + 1) (by
        intro n hn
        obtain ⟨v, hv, rfl⟩ := List.mem_map.mp hn
        exact Nat.succ_le_succ (hbound v hv))
      rwa [List.length_map, Nat.nsmul_eq_mul] at h
    have hmono : items.length * (bound + 1) ≤ count * (bound + 1) :=
      Nat.mul_le_mul_right _ hcount
    rw [size_array hne]
    omega

end Value

/-! ## Numbers -/

/-- How many decimal digits a number has. -/
def decimalDigits (n : Nat) : Nat := (Nat.toDigits 10 n).length

theorem decimalDigits_le {n k : Nat} (hk : 0 < k) (h : n < 10 ^ k) : decimalDigits n ≤ k :=
  (Nat.length_toDigits_le_iff (by decide) hk).mpr h

theorem size_ofUInt64 (n : UInt64) : (Value.int (.ofUInt64 n)).size = decimalDigits n.toNat := by
  rw [Value.size_eq]
  show (writeInt (n.toNat : Int)).length = _
  rw [writeInt, if_neg (by omega), Int.natAbs_natCast, decimalDigits]

/-! ## Strings without escapes -/

/-- A character that is written as itself, in one byte. -/
def Plain (c : Char) : Prop := escapeChar c = [c] ∧ c.utf8Size = 1

theorem escapedSize_plain {s : String} (h : ∀ c ∈ s.toList, Plain c) :
    escapedSize s = 2 + s.toList.length := by
  have hflat : ∀ text : List Char, (∀ c ∈ text, Plain c) →
      utf8Length (text.flatMap escapeChar) = text.length := by
    intro text htext
    induction text with
    | nil => rfl
    | cons c text ih =>
      obtain ⟨⟨hescape, hsize⟩, hrest⟩ := List.forall_mem_cons.mp htext
      rw [List.flatMap_cons, utf8Length_append, hescape, utf8Length_cons, utf8Length_nil, hsize,
        ih hrest, List.length_cons]
      omega
  rw [← utf8Length_writeEscaped, writeEscaped, utf8Length_cons, utf8Length_append, hflat _ h,
    utf8Length_cons, utf8Length_nil, show '"'.utf8Size = 1 from rfl]
  omega

theorem size_string (s : String) : (Value.string s).size = escapedSize s := Value.size_eq _

/-- Hexadecimal digits are plain. -/
theorem plain_of_isHexDigit {c : Char} (h : isHexDigit c = true) : Plain c := by
  simp only [isHexDigit, Char.isDigit, Bool.or_eq_true, Bool.and_eq_true, decide_eq_true_eq,
    Char.le_def] at h
  have hrange : (48 ≤ c.toNat ∧ c.toNat ≤ 57) ∨ (97 ≤ c.toNat ∧ c.toNat ≤ 102) := h
  have hne : ∀ d : Char, d.toNat < 48 ∨ d.toNat = 92 → c ≠ d := by
    rintro d hd rfl
    omega
  constructor
  · unfold escapeChar
    rw [if_neg (hne _ (by decide)), if_neg (hne _ (by decide)), if_neg (hne _ (by decide)),
      if_neg (hne _ (by decide)), if_neg (hne _ (by decide)), if_neg (hne _ (by decide)),
      if_neg (hne _ (by decide)), if_neg (by omega)]
  · refine Char.utf8Size_eq_one_iff.mpr ?_
    show c.toNat ≤ 127
    omega

/-- A digest is a string of 73 bytes. -/
theorem size_digestBytes [Sha256] (data : ByteArray) :
    (Value.string (digestBytes data)).size = 73 := by
  have hplain : ∀ c ∈ (digestBytes data).toList, Plain c := by
    intro c hc
    rw [toList_digestBytes] at hc
    rcases List.mem_append.mp hc with hc | hc
    · have hall : ∀ d ∈ ['s', 'h', 'a', '2', '5', '6', ':'], Plain d := by
        simp only [List.forall_mem_cons, List.not_mem_nil, false_implies, implies_true, and_true,
          Plain]
        decide
      exact hall c hc
    · exact plain_of_isHexDigit (isHexDigit_of_mem_hexEncode hc)
  rw [size_string, escapedSize_plain hplain, length_digestBytes]

end Cairn.Ports.Canonical
