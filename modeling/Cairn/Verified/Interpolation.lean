import Mathlib.Data.List.GetD
import Mathlib.LinearAlgebra.Lagrange

/-!
# Interpolation at zero

A polynomial of degree below the number of points it is known at is read off at
zero as a weighted sum of its values: the weight of a point is the product of
the other points over the product of their differences to it. A polynomial is
given by its coefficients, the constant term first, and evaluated by Horner's
rule.
-/

namespace Cairn.Verified.Interpolation

open Polynomial

variable {F : Type*} [Field F]

/-- The polynomial with these coefficients, the constant term first. -/
noncomputable def ofCoeffs : List F → F[X]
  | [] => 0
  | c :: cs => C c + X * ofCoeffs cs

/-- Horner's rule. -/
theorem eval_ofCoeffs (x : F) (cs : List F) :
    (ofCoeffs cs).eval x = cs.foldr (fun c acc => acc * x + c) 0 := by
  induction cs with
  | nil => simp [ofCoeffs]
  | cons c cs ih =>
    rw [ofCoeffs, List.foldr_cons, ← ih, eval_add, eval_C, eval_mul, eval_X]
    ring

@[simp] theorem eval_zero_ofCoeffs_cons (c : F) (cs : List F) :
    (ofCoeffs (c :: cs)).eval 0 = c := by
  simp [ofCoeffs]

theorem degree_ofCoeffs_lt (cs : List F) : (ofCoeffs cs).degree < cs.length := by
  rw [degree_lt_iff_coeff_zero]
  induction cs with
  | nil => exact fun _ _ => coeff_zero _
  | cons c cs ih =>
    intro m hm
    rw [List.length_cons] at hm
    obtain ⟨m, rfl⟩ := Nat.exists_eq_add_of_lt (Nat.lt_of_lt_of_le (Nat.succ_pos _) hm)
    rw [Nat.zero_add, ofCoeffs, coeff_add, coeff_C_succ, coeff_X_mul, zero_add]
    exact ih m (by omega)

/-! ## Which polynomials go through given points -/

theorem coeff_ofCoeffs (cs : List F) (i : Nat) : (ofCoeffs cs).coeff i = cs.getD i 0 := by
  induction cs generalizing i with
  | nil => simp [ofCoeffs]
  | cons c cs ih =>
    cases i with
    | zero => simp [ofCoeffs]
    | succ i =>
      rw [ofCoeffs, coeff_add, coeff_C_succ, coeff_X_mul, zero_add, ih, List.getD_cons_succ]

/-- Lists of one length are the coefficients of different polynomials. -/
theorem ofCoeffs_inj {cs ds : List F} (hlength : cs.length = ds.length)
    (h : ofCoeffs cs = ofCoeffs ds) : cs = ds := by
  refine List.ext_getElem hlength fun i hi hi' => ?_
  have hcoeff := congrArg (fun p => p.coeff i) h
  simpa only [coeff_ofCoeffs, List.getD_eq_getElem _ _ hi, List.getD_eq_getElem _ _ hi']
    using hcoeff

/-- A polynomial is the one with its first coefficients. -/
theorem ofCoeffs_ofFn {p : F[X]} {n : Nat} (hdegree : p.degree < n) :
    ofCoeffs (List.ofFn fun i : Fin n => p.coeff i) = p := by
  ext i
  rw [coeff_ofCoeffs]
  by_cases hi : i < n
  · rw [List.getD_eq_getElem _ _ (by rwa [List.length_ofFn]), List.getElem_ofFn]
  · rw [List.getD_eq_default _ _ (by rw [List.length_ofFn]; omega)]
    exact ((degree_lt_iff_coeff_zero p n).mp hdegree i (by omega)).symm

/-- One list of coefficients above a given constant term takes given values at
as many points other than zero. -/
theorem existsUnique_ofCoeffs [DecidableEq F] {points : Finset F} (hzero : (0 : F) ∉ points)
    (value : F → F) (c : F) : ∃! cs : List F, cs.length = points.card ∧
      ∀ x ∈ points, (ofCoeffs (c :: cs)).eval x = value x := by
  let wanted : F → F := fun x => if x = 0 then c else value x
  let p := Lagrange.interpolate (insert 0 points) id wanted
  have hinj : Set.InjOn (id : F → F) (insert 0 points : Finset F) := Function.injective_id.injOn
  have hcard : (insert 0 points).card = points.card + 1 := Finset.card_insert_of_notMem hzero
  have hdegree : p.degree < (points.card + 1 : Nat) := by
    have := Lagrange.degree_interpolate_lt wanted hinj
    rwa [hcard] at this
  have hvalue : ∀ x ∈ insert 0 points, p.eval x = wanted x := fun x hx =>
    Lagrange.eval_interpolate_at_node wanted hinj hx
  have hconstant : p.coeff 0 = c := by
    rw [coeff_zero_eq_eval_zero, hvalue 0 (Finset.mem_insert_self _ _)]
    exact if_pos rfl
  have hp : ofCoeffs (c :: List.ofFn fun i : Fin points.card => p.coeff (i + 1)) = p := by
    have h := ofCoeffs_ofFn hdegree
    rwa [List.ofFn_succ, Fin.val_zero, hconstant] at h
  have hpoint : ∀ x ∈ points, wanted x = value x := fun x hx =>
    if_neg fun h : x = 0 => hzero (h ▸ hx)
  refine ⟨List.ofFn fun i : Fin points.card => p.coeff (i + 1), ⟨List.length_ofFn, ?_⟩, ?_⟩
  · intro x hx
    rw [hp, hvalue x (Finset.mem_insert_of_mem hx), hpoint x hx]
  · rintro cs ⟨hlength, heval⟩
    have hsame : ofCoeffs (c :: cs) = p := by
      apply Lagrange.eq_interpolate_of_eval_eq wanted hinj
      · rw [hcard]
        exact (degree_ofCoeffs_lt _).trans_eq (by rw [List.length_cons, hlength])
      · intro x hx
        obtain rfl | hx := Finset.mem_insert.mp hx
        · rw [id, eval_zero_ofCoeffs_cons]
          exact (if_pos rfl).symm
        · rw [id, heval x hx, hpoint x hx]
    rw [← hp] at hsame
    exact (List.cons.inj (ofCoeffs_inj (by simp [hlength]) hsame)).2

section Weights

variable {ι : Type*} [DecidableEq ι] {s : Finset ι} {x : ι → F}

/-- How much the value at point `i` counts for the value at zero. -/
def weight (s : Finset ι) (x : ι → F) (i : ι) : F :=
  (∏ j ∈ s.erase i, x j) * (∏ j ∈ s.erase i, (x j - x i))⁻¹

theorem eval_zero_basisDivisor (a b : F) :
    (Lagrange.basisDivisor a b).eval 0 = b * (b - a)⁻¹ := by
  have hneg : (a - b)⁻¹ = -(b - a)⁻¹ := by rw [← neg_sub b a, inv_neg]
  rw [Lagrange.basisDivisor, eval_mul, eval_C, eval_sub, eval_X, eval_C, hneg]
  ring

theorem eval_zero_basis (i : ι) : (Lagrange.basis s x i).eval 0 = weight s x i := by
  rw [Lagrange.basis, eval_prod, weight, ← Finset.prod_inv_distrib, ← Finset.prod_mul_distrib]
  exact Finset.prod_congr rfl fun j _ => eval_zero_basisDivisor (x i) (x j)

/-- Enough points give the value at zero. -/
theorem sum_weight_mul_eval (hinj : Set.InjOn x s) {p : F[X]} (hdegree : p.degree < s.card) :
    ∑ i ∈ s, weight s x i * p.eval (x i) = p.eval 0 := by
  conv_rhs => rw [Lagrange.eq_interpolate hinj hdegree, Lagrange.interpolate_apply, eval_finsetSum]
  refine Finset.sum_congr rfl fun i _ => ?_
  rw [eval_mul, eval_C, eval_zero_basis, mul_comm]

end Weights

end Cairn.Verified.Interpolation
