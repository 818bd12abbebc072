import Mathlib.Algebra.BigOperators.Fin
import Mathlib.Algebra.BigOperators.Group.Finset.Basic
import Mathlib.Algebra.Order.BigOperators.Group.Finset
import Mathlib.Data.Fintype.BigOperators

/-!
# Columns that share a reserve

Units stand in columns. A promised unit is backed by a held unit of its own column
or of one distinguished column, the reserve, and no held unit backs two. Whether
all promises can be backed at once is a matching question; the answer is one
comparison of numbers.
-/

namespace Cairn.Verified.Reserve

variable {ι : Type*}

/-- The units of all columns, where column `k` has `n k` of them. -/
abbrev Units (n : ι → Nat) := (k : ι) × Fin (n k)

/-- A held unit for each promised one. -/
structure Assignment (reserve : ι) (held promised : ι → Nat) where
  backing : Units promised → Units held
  distinct : Function.Injective backing
  covers : ∀ x, (backing x).1 = reserve ∨ (backing x).1 = x.1

variable [DecidableEq ι]

/-- The units of a column that only its own promises use: the reserve has none. -/
def kept (reserve : ι) (held : ι → Nat) (k : ι) : Nat := if k = reserve then 0 else held k

/-- What a column promises beyond the units it keeps. -/
def spill (reserve : ι) (held promised : ι → Nat) (k : ι) : Nat :=
  promised k - kept reserve held k

variable [Fintype ι] {reserve : ι} {held promised : ι → Nat}

theorem card_column (n : ι → Nat) (k : ι) :
    (Finset.univ.filter fun x : Units n => x.1 = k).card = n k := by
  have hmap : (Finset.univ.filter fun x : Units n => x.1 = k) =
      Finset.univ.map (Function.Embedding.sigmaMk k) := by
    ext ⟨j, i⟩
    simp only [Finset.mem_filter, Finset.mem_univ, true_and, Finset.mem_map,
      Function.Embedding.sigmaMk_apply]
    constructor
    · rintro rfl
      exact ⟨i, rfl⟩
    · rintro ⟨i', h⟩
      exact (congrArg Sigma.fst h).symm
  rw [hmap, Finset.card_map, Finset.card_univ, Fintype.card_fin]

/-- The promises of a column that the reserve backs are at least its spill. -/
theorem spill_le_card (a : Assignment reserve held promised) (k : ι) :
    spill reserve held promised k ≤
      (Finset.univ.filter fun x : Units promised =>
        (a.backing x).1 = reserve ∧ x.1 = k).card := by
  have hsplit := Finset.card_filter_add_card_filter_not (s := Finset.univ.filter
    fun x : Units promised => x.1 = k) (fun x => (a.backing x).1 = reserve)
  rw [card_column, Finset.filter_filter, Finset.filter_filter] at hsplit
  have hown : (Finset.univ.filter fun x : Units promised =>
      x.1 = k ∧ ¬(a.backing x).1 = reserve).card ≤ kept reserve held k := by
    by_cases hk : k = reserve
    · rw [kept, if_pos hk, Nat.le_zero, Finset.card_eq_zero, Finset.filter_eq_empty_iff]
      rintro x - ⟨hx, hne⟩
      rcases a.covers x with h | h
      · exact hne h
      · exact hne (h.trans (hx.trans hk))
    · rw [kept, if_neg hk, ← card_column held k]
      refine Finset.card_le_card_of_injOn a.backing (fun x hx => ?_) a.distinct.injOn
      have hx' := (Finset.mem_filter.mp hx).2
      refine Finset.mem_filter.mpr ⟨Finset.mem_univ _, ?_⟩
      exact ((a.covers x).resolve_left hx'.2).trans hx'.1
  have hswap : (Finset.univ.filter fun x : Units promised =>
      (a.backing x).1 = reserve ∧ x.1 = k) = Finset.univ.filter fun x : Units promised =>
      x.1 = k ∧ (a.backing x).1 = reserve := by
    simp only [and_comm]
  unfold spill
  rw [hswap]
  omega

theorem sum_spill_le (a : Assignment reserve held promised) :
    ∑ k, spill reserve held promised k ≤ held reserve := by
  have hfibres := Finset.card_eq_sum_card_fiberwise (f := Sigma.fst) (t := Finset.univ)
    (s := Finset.univ.filter fun x : Units promised => (a.backing x).1 = reserve)
    (fun x _ => Finset.mem_coe.mpr (Finset.mem_univ _))
  have hreserve : (Finset.univ.filter fun x : Units promised =>
      (a.backing x).1 = reserve).card ≤ held reserve := by
    rw [← card_column held reserve]
    refine Finset.card_le_card_of_injOn a.backing (fun x hx => ?_) a.distinct.injOn
    exact Finset.mem_filter.mpr ⟨Finset.mem_univ _, (Finset.mem_filter.mp hx).2⟩
  rw [hfibres] at hreserve
  refine le_trans (Finset.sum_le_sum fun k _ => ?_) hreserve
  rw [Finset.filter_filter]
  exact spill_le_card a k

/-- What a column keeps backs its first promises, and the rest has a place in the reserve. -/
def assign (place : Units (spill reserve held promised) ↪ Fin (held reserve))
    (x : Units promised) : Units held :=
  if h : x.2 < kept reserve held x.1 then
    ⟨x.1, x.2, lt_of_lt_of_le h (by unfold kept; split_ifs <;> omega)⟩
  else ⟨reserve, place ⟨x.1, x.2 - kept reserve held x.1, by
    have := x.2.isLt
    unfold spill
    omega⟩⟩

omit [Fintype ι] in
theorem assign_injective (place : Units (spill reserve held promised) ↪ Fin (held reserve)) :
    Function.Injective (assign place) := by
  -- A kept unit is never one of the reserve, so the two cases do not meet.
  have happart : ∀ x y : Units promised, x.2 < kept reserve held x.1 →
      ¬y.2 < kept reserve held y.1 → assign place x ≠ assign place y := by
    intro x y hx hy heq
    unfold assign at heq
    rw [dif_pos hx, dif_neg hy] at heq
    have hcolumn : x.1 = reserve := congrArg Sigma.fst heq
    have hkept : kept reserve held x.1 = 0 := if_pos hcolumn
    omega
  rintro ⟨k, i⟩ ⟨k', i'⟩ heq
  by_cases hx : i.val < kept reserve held k
  · by_cases hy : i'.val < kept reserve held k'
    · unfold assign at heq
      rw [dif_pos hx, dif_pos hy] at heq
      obtain rfl : k = k' := congrArg Sigma.fst heq
      have hval := congrArg Fin.val (eq_of_heq (Sigma.mk.inj heq).2)
      exact congrArg (Sigma.mk k) (Fin.ext hval)
    · exact absurd heq (happart _ _ hx hy)
  · by_cases hy : i'.val < kept reserve held k'
    · exact absurd heq.symm (happart _ _ hy hx)
    · unfold assign at heq
      rw [dif_neg hx, dif_neg hy] at heq
      have hplace := place.injective (eq_of_heq (Sigma.mk.inj heq).2)
      obtain rfl : k = k' := congrArg Sigma.fst hplace
      have hval := congrArg Fin.val (eq_of_heq (Sigma.mk.inj hplace).2)
      have hrest : i.val - kept reserve held k = i'.val - kept reserve held k := hval
      exact congrArg (Sigma.mk k) (Fin.ext (by omega))

/-- The promises can all be backed exactly when the reserve covers every spill. -/
theorem nonempty_assignment_iff :
    Nonempty (Assignment reserve held promised) ↔
      ∑ k, spill reserve held promised k ≤ held reserve := by
  constructor
  · rintro ⟨a⟩
    exact sum_spill_le a
  · intro h
    have hcard : Fintype.card (Units (spill reserve held promised)) ≤
        Fintype.card (Fin (held reserve)) := by
      rw [Fintype.card_sigma]
      simpa using h
    obtain ⟨place⟩ := Function.Embedding.nonempty_of_card_le hcard
    refine ⟨⟨assign place, assign_injective place, fun x => ?_⟩⟩
    unfold assign
    split_ifs
    · exact Or.inr rfl
    · exact Or.inl rfl

end Cairn.Verified.Reserve
