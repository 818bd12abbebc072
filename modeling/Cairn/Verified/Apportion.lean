import Mathlib.Algebra.BigOperators.Ring.Finset
import Mathlib.Algebra.Order.BigOperators.Group.Finset
import Mathlib.Algebra.Order.BigOperators.Group.List

/-!
# Splitting an amount by weights

The method of largest remainders: every part gets the floor of its exact
share, and the units left over go to as many parts, one each. The floors leave
fewer units than there are parts, so nothing is left after that.
-/

namespace Cairn.Verified.Apportion

universe u

/-- The whole part of every exact share. -/
def floors (amount total : Nat) (weights : List Nat) : List Nat :=
  weights.map fun w => amount * w / total

/-- What the floors cut off, in units of `1 / total`. -/
def remainders (amount total : Nat) (weights : List Nat) : List Nat :=
  weights.map fun w => amount * w % total

theorem mul_sum_floors_add_sum_remainders (amount total : Nat) (weights : List Nat) :
    total * (floors amount total weights).sum + (remainders amount total weights).sum =
      amount * weights.sum := by
  induction weights with
  | nil => rfl
  | cons w ws ih =>
    have hdiv := Nat.div_add_mod (amount * w) total
    simp only [floors, remainders, List.map_cons, List.sum_cons, Nat.mul_add] at ih ⊢
    omega

theorem sum_remainders_lt {amount total : Nat} (htotal : 0 < total) {weights : List Nat}
    (hne : weights ≠ []) : (remainders amount total weights).sum < total * weights.length := by
  induction weights with
  | nil => exact absurd rfl hne
  | cons w ws ih =>
    have hmod := Nat.mod_lt (amount * w) htotal
    by_cases hws : ws = []
    · subst hws
      simpa [remainders] using hmod
    · have hrest := ih hws
      simp only [remainders, List.map_cons, List.sum_cons, List.length_cons,
        Nat.mul_add] at hrest ⊢
      omega

theorem sum_floors_le {amount total : Nat} (htotal : 0 < total) {weights : List Nat}
    (hsum : weights.sum = total) : (floors amount total weights).sum ≤ amount := by
  have hexact := mul_sum_floors_add_sum_remainders amount total weights
  rw [hsum, Nat.mul_comm amount] at hexact
  exact Nat.le_of_mul_le_mul_left (by omega) htotal

theorem lt_sum_floors_add_length {amount total : Nat} (htotal : 0 < total) {weights : List Nat}
    (hsum : weights.sum = total) (hne : weights ≠ []) :
    amount < (floors amount total weights).sum + weights.length := by
  have hexact := mul_sum_floors_add_sum_remainders amount total weights
  have hrest := @sum_remainders_lt amount _ htotal _ hne
  rw [hsum, Nat.mul_comm amount] at hexact
  have hlt : total * amount < total * ((floors amount total weights).sum + weights.length) := by
    rw [Nat.mul_add]
    omega
  exact Nat.lt_of_mul_lt_mul_left hlt

variable {α : Type u}

/-- One part grows by a unit. -/
theorem sum_modify {l : List α} {i : Nat} {f : α → α} {units : α → Nat} (hi : i < l.length)
    (h : ∀ x ∈ l, units (f x) = units x + 1) :
    ((l.modify i f).map units).sum = (l.map units).sum + 1 := by
  induction l generalizing i with
  | nil => simp at hi
  | cons x xs ih =>
    cases i with
    | zero =>
      simp only [List.modify_zero_cons, List.map_cons, List.sum_cons, h x (by simp)]
      omega
    | succ i =>
      have hrest := ih (i := i) (by simpa using hi) fun y hy => h y (by simp [hy])
      simp only [List.modify_succ_cons, List.map_cons, List.sum_cons, hrest]
      omega

/-- What a modification leaves alone. -/
theorem map_modify_of_eq {β : Type u} {l : List α} {i : Nat} {f : α → α} {g : α → β}
    (h : ∀ x, g (f x) = g x) : (l.modify i f).map g = l.map g := by
  induction l generalizing i with
  | nil => simp
  | cons x xs ih =>
    cases i with
    | zero => simp [h]
    | succ i => simp [ih]

variable {ι : Type*}

/-- The floors of parts against the floor of the whole: they lose less than a unit for each part
that has any weight, and for one such part nothing. -/
theorem sum_floors_bounds (amount : Nat) {total : Nat} (htotal : 0 < total) (parts : Finset ι)
    (weight : ι → Nat) :
    ∑ i ∈ parts, amount * weight i / total ≤ amount * (∑ i ∈ parts, weight i) / total ∧
    amount * (∑ i ∈ parts, weight i) / total ≤
      ∑ i ∈ parts, amount * weight i / total +
        ((parts.filter fun i => 0 < weight i).card - 1) := by
  have hexact : amount * (∑ i ∈ parts, weight i) =
      ∑ i ∈ parts, amount * weight i % total +
        total * ∑ i ∈ parts, amount * weight i / total := by
    rw [Finset.mul_sum, Finset.mul_sum, ← Finset.sum_add_distrib]
    exact Finset.sum_congr rfl fun i _ => (Nat.mod_add_div _ _).symm
  have hrest : ∑ i ∈ parts, amount * weight i % total ≤
      (parts.filter fun i => 0 < weight i).card * (total - 1) := by
    have hzero : ∑ i ∈ parts, amount * weight i % total =
        ∑ i ∈ parts.filter fun i => 0 < weight i, amount * weight i % total := by
      symm
      refine Finset.sum_filter_of_ne fun i _ hne => Nat.pos_of_ne_zero fun hi => hne ?_
      rw [hi, Nat.mul_zero, Nat.zero_mod]
    rw [hzero, Finset.card_eq_sum_ones, Finset.sum_mul]
    refine Finset.sum_le_sum fun i _ => ?_
    have := Nat.mod_lt (amount * weight i) htotal
    omega
  have hdiv : amount * (∑ i ∈ parts, weight i) / total =
      (∑ i ∈ parts, amount * weight i % total) / total +
        ∑ i ∈ parts, amount * weight i / total := by
    rw [hexact, Nat.add_mul_div_left _ _ htotal]
  have hfew : (∑ i ∈ parts, amount * weight i % total) / total ≤
      (parts.filter fun i => 0 < weight i).card - 1 := by
    rcases Nat.eq_zero_or_pos (parts.filter fun i => 0 < weight i).card with hnone | hsome
    · rw [hnone, Nat.zero_mul, Nat.le_zero] at hrest
      rw [hrest, Nat.zero_div]
      exact Nat.zero_le _
    · have hlt : (∑ i ∈ parts, amount * weight i % total) / total <
          (parts.filter fun i => 0 < weight i).card := by
        rw [Nat.div_lt_iff_lt_mul htotal]
        refine lt_of_le_of_lt hrest ?_
        exact Nat.mul_lt_mul_of_pos_left (by omega) hsome
      omega
  rw [hdiv]
  exact ⟨Nat.le_add_left _ _, by rw [Nat.add_comm]; exact Nat.add_le_add_left hfew _⟩

end Cairn.Verified.Apportion
