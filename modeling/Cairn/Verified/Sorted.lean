import Mathlib.Data.List.Sort

/-!
# Sorting a part of a list

Insertion sort is stable, so a part of a list picked out by a predicate is
sorted the same alone or among the rest; and sorting by a linear order forgets
the order the list came in.
-/

namespace Cairn.Verified

universe u

variable {α : Type u} {r : α → α → Prop} [DecidableRel r]

theorem filter_orderedInsert (p : α → Bool) (a : α) {l : List α} (hs : l.Pairwise r)
    (htrans : ∀ x y z, r x y → r y z → r x z) :
    (l.orderedInsert r a).filter p =
      if p a = true then (l.filter p).orderedInsert r a else l.filter p := by
  induction l with
  | nil =>
    rw [List.orderedInsert_nil]
    by_cases ha : p a = true
    · rw [if_pos ha, List.filter_cons_of_pos ha]
      rfl
    · rw [if_neg ha, List.filter_cons_of_neg ha]
  | cons b l ih =>
    obtain ⟨hb, hl⟩ := List.pairwise_cons.mp hs
    by_cases hab : r a b
    · rw [List.orderedInsert_cons_of_le r l hab]
      by_cases ha : p a = true
      · -- what follows in the picked part comes after `a` too
        have hall : ∀ c ∈ (b :: l).filter p, r a c := by
          intro c hc
          obtain rfl | hc := List.mem_cons.mp (List.mem_of_mem_filter hc)
          · exact hab
          · exact htrans a b c hab (hb c hc)
        rw [if_pos ha, List.filter_cons_of_pos ha]
        cases hfilter : (b :: l).filter p with
        | nil => rfl
        | cons c rest =>
          rw [hfilter] at hall
          rw [List.orderedInsert_cons_of_le r rest (hall c (by simp))]
      · rw [if_neg ha, List.filter_cons_of_neg ha]
    · rw [List.orderedInsert_of_not_le r l hab]
      by_cases hpb : p b = true
      · rw [List.filter_cons_of_pos hpb, List.filter_cons_of_pos hpb, ih hl]
        by_cases ha : p a = true
        · rw [if_pos ha, if_pos ha, List.orderedInsert_of_not_le r _ hab]
        · rw [if_neg ha, if_neg ha]
      · rw [List.filter_cons_of_neg hpb, List.filter_cons_of_neg hpb, ih hl]

/-- Picking out and sorting commute. -/
theorem filter_insertionSort (p : α → Bool) (l : List α) (htotal : ∀ x y, r x y ∨ r y x)
    (htrans : ∀ x y z, r x y → r y z → r x z) :
    (l.insertionSort r).filter p = (l.filter p).insertionSort r := by
  induction l with
  | nil => rfl
  | cons a l ih =>
    have hsorted : (l.insertionSort r).Pairwise r := by
      have : IsTrans α r := ⟨htrans⟩
      have : Std.Total r := ⟨htotal⟩
      exact List.pairwise_insertionSort r l
    rw [List.insertionSort_cons, filter_orderedInsert p a hsorted htrans, ih]
    by_cases ha : p a = true
    · rw [if_pos ha, List.filter_cons_of_pos ha, List.insertionSort_cons]
    · rw [if_neg ha, List.filter_cons_of_neg ha]

omit [DecidableRel r] in
/-- What comes first in a sorted list is picked out by any part that is closed
downwards and large enough. -/
theorem take_filter_of_pairwise {p : α → Bool} (hdown : ∀ x y, r x y → p y = true → p x = true)
    {l : List α} (hs : l.Pairwise r) {k : Nat} (hk : k ≤ (l.filter p).length) :
    (l.filter p).take k = l.take k := by
  induction l generalizing k with
  | nil => rfl
  | cons a l ih =>
    obtain ⟨ha, hl⟩ := List.pairwise_cons.mp hs
    cases k with
    | zero => rfl
    | succ k =>
      by_cases hpa : p a = true
      · rw [List.filter_cons_of_pos hpa] at hk ⊢
        rw [List.take_succ_cons, List.take_succ_cons, ih hl (Nat.le_of_succ_le_succ hk)]
      · -- nothing behind `a` is in the part either
        have hnone : (a :: l).filter p = [] := by
          rw [List.filter_eq_nil_iff]
          intro b hb hpb
          obtain rfl | hb := List.mem_cons.mp hb
          · exact hpa hpb
          · exact hpa (hdown a b (ha b hb) hpb)
        rw [hnone] at hk
        exact absurd hk (Nat.not_succ_le_zero k)

/-- The first places of a sorted list depend on the elements ahead of them. -/
theorem take_insertionSort_filter {p : α → Bool}
    (hdown : ∀ x y, r x y → p y = true → p x = true) {l : List α} {k : Nat}
    (htotal : ∀ x y, r x y ∨ r y x) (htrans : ∀ x y z, r x y → r y z → r x z)
    (hk : k ≤ (l.filter p).length) :
    ((l.filter p).insertionSort r).take k = (l.insertionSort r).take k := by
  have hsorted : (l.insertionSort r).Pairwise r := by
    have : IsTrans α r := ⟨htrans⟩
    have : Std.Total r := ⟨htotal⟩
    exact List.pairwise_insertionSort r l
  rw [← filter_insertionSort p l htotal htrans]
  apply take_filter_of_pairwise hdown hsorted
  rw [filter_insertionSort p l htotal htrans, List.length_insertionSort]
  exact hk

end Cairn.Verified
