import Mathlib.Algebra.Order.Round
import Mathlib.Data.Rat.Floor
import Mathlib.Order.Compare
import Mathlib.Tactic.FieldSimp
import Mathlib.Tactic.Linarith

/-!
# Comparing by whole parts

Two numbers of an ordered field with a floor are compared by their whole parts,
and when these agree by their fractional parts; two positive ones by their
reciprocals the other way round. Iterated on fractions of integers, this is the
comparison of their continued fractions, and nothing in it is larger than the
fractions themselves.
-/

namespace Cairn.Verified.Fractions

section Compare

variable {α β : Type*} [LinearOrder α] [LinearOrder β]

theorem compare_congr {x y : α} {x' y' : β} (hlt : x < y ↔ x' < y') (hgt : y < x ↔ y' < x') :
    compare x y = compare x' y' := by
  rcases lt_trichotomy x y with h | h | h
  · rw [compare_lt_iff_lt.mpr h, compare_lt_iff_lt.mpr (hlt.mp h)]
  · have h' : x' = y' := by
      apply le_antisymm
      · exact not_lt.mp fun h' => (hgt.mpr h').ne h.symm
      · exact not_lt.mp fun h' => (hlt.mpr h').ne h
    rw [compare_eq_iff_eq.mpr h, compare_eq_iff_eq.mpr h']
  · rw [compare_gt_iff_gt.mpr h, compare_gt_iff_gt.mpr (hgt.mp h)]

theorem swap_compare (x y : α) : (compare x y).swap = compare y x := by
  rcases lt_trichotomy x y with h | h | h
  · rw [compare_lt_iff_lt.mpr h, compare_gt_iff_gt.mpr h]
    rfl
  · rw [compare_eq_iff_eq.mpr h, compare_eq_iff_eq.mpr h.symm]
    rfl
  · rw [compare_gt_iff_gt.mpr h, compare_lt_iff_lt.mpr h]
    rfl

end Compare

section Field

variable {K : Type*} [Field K] [LinearOrder K]

/-- Whole parts decide when they differ. -/
theorem compare_floor [FloorRing K] {x y : K} (h : ⌊x⌋ ≠ ⌊y⌋) : compare ⌊x⌋ ⌊y⌋ = compare x y := by
  apply compare_congr
  · constructor
    · exact fun hlt => lt_of_not_ge fun hle => absurd (Int.floor_mono hle) (not_le.mpr hlt)
    · exact fun hlt => lt_of_le_of_ne (Int.floor_mono hlt.le) h
  · constructor
    · exact fun hlt => lt_of_not_ge fun hle => absurd (Int.floor_mono hle) (not_le.mpr hlt)
    · exact fun hlt => lt_of_le_of_ne (Int.floor_mono hlt.le) h.symm

variable [IsStrictOrderedRing K]

/-- Reciprocals turn the order around. -/
theorem compare_inv {x y : K} (hx : 0 < x) (hy : 0 < y) :
    (compare x⁻¹ y⁻¹).swap = compare x y := by
  rw [swap_compare]
  exact compare_congr (inv_lt_inv₀ hy hx) (inv_lt_inv₀ hx hy)

variable [FloorRing K]

/-- Fractional parts decide when whole parts agree. -/
theorem compare_fract {x y : K} (h : ⌊x⌋ = ⌊y⌋) :
    compare (Int.fract x) (Int.fract y) = compare x y := by
  have hx := Int.self_sub_floor x
  have hy := Int.self_sub_floor y
  rw [h] at hx
  rw [← hx, ← hy]
  exact compare_congr (sub_lt_sub_iff_right _) (sub_lt_sub_iff_right _)

end Field

section Int

variable {n d : Int}

theorem floor_div (hd : 0 < d) : ⌊(n / d : ℚ)⌋ = n / d := by
  obtain ⟨d, rfl⟩ := Int.eq_ofNat_of_zero_le hd.le
  exact Rat.floor_intCast_div_natCast n d

theorem fract_div (hd : 0 < d) : Int.fract (n / d : ℚ) = (n % d : Int) / d := by
  have hd' : (d : ℚ) ≠ 0 := by exact_mod_cast hd.ne'
  have hsplit : (d * (n / d : Int) + (n % d : Int) : ℚ) = n := by
    exact_mod_cast Int.mul_ediv_add_emod n d
  rw [Int.fract, floor_div hd, sub_eq_iff_eq_add, ← hsplit, add_div, mul_div_cancel_left₀ _ hd',
    add_comm]

/-- A sum over a common multiple of the denominators. -/
theorem add_over_common {a b p q g : Int} (hp : p ≠ 0) (hq : q ≠ 0) (hgp : g ∣ p) (hgq : g ∣ q) :
    ((a * (q / g) + b * (p / g) : Int) / (p * (q / g) : Int) : ℚ) = a / p + b / q := by
  obtain ⟨x, rfl⟩ := hgp
  obtain ⟨y, rfl⟩ := hgq
  obtain ⟨hg, hx⟩ := Int.mul_ne_zero_iff.mp hp
  obtain ⟨-, hy⟩ := Int.mul_ne_zero_iff.mp hq
  have hg' : (g : ℚ) ≠ 0 := by exact_mod_cast hg
  have hx' : (x : ℚ) ≠ 0 := by exact_mod_cast hx
  have hy' : (y : ℚ) ≠ 0 := by exact_mod_cast hy
  rw [Int.mul_ediv_cancel_left _ hg, Int.mul_ediv_cancel_left _ hg]
  push_cast
  field_simp

/-- A product with a factor of each numerator cancelled against the other
denominator. -/
theorem mul_cancelled {a b p q g g' : Int} (hp : p ≠ 0) (hq : q ≠ 0) (hga : g ∣ a) (hgq : g ∣ q)
    (hgb : g' ∣ b) (hgp : g' ∣ p) :
    ((a / g * (b / g') : Int) / (p / g' * (q / g) : Int) : ℚ) = a / p * (b / q) := by
  obtain ⟨x, rfl⟩ := hgp
  obtain ⟨y, rfl⟩ := hgq
  obtain ⟨z, rfl⟩ := hga
  obtain ⟨w, rfl⟩ := hgb
  obtain ⟨hg', hx⟩ := Int.mul_ne_zero_iff.mp hp
  obtain ⟨hg, hy⟩ := Int.mul_ne_zero_iff.mp hq
  have h1 : (g : ℚ) ≠ 0 := by exact_mod_cast hg
  have h2 : (g' : ℚ) ≠ 0 := by exact_mod_cast hg'
  have h3 : (x : ℚ) ≠ 0 := by exact_mod_cast hx
  have h4 : (y : ℚ) ≠ 0 := by exact_mod_cast hy
  rw [Int.mul_ediv_cancel_left _ hg, Int.mul_ediv_cancel_left _ hg, Int.mul_ediv_cancel_left _ hg',
    Int.mul_ediv_cancel_left _ hg']
  push_cast
  field_simp

end Int

end Cairn.Verified.Fractions
