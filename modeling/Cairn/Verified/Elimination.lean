import Mathlib.Algebra.BigOperators.Ring.Finset
import Mathlib.Algebra.Field.Basic
import Mathlib.Algebra.Polynomial.Roots
import Mathlib.LinearAlgebra.Lagrange
import Mathlib.Tactic.FieldSimp
import Mathlib.Tactic.LinearCombination

/-!
# Gauss–Jordan elimination on rows held as lists

A square matrix is a list of rows. `invert` works on the matrix and on the
identity beside it: for each column it finds a row with something in it,
swaps that row up, scales it to one and clears the column everywhere else.

What a row stands for is the value it takes at a vector, `dot`. One column's
work is the same operation on the values of both matrices, `eliminate`, so
what the two sides say of a vector keeps agreeing, and a vector that all rows
send to zero stays one. The columns behind the current one are the identity's,
and a column with nothing left to find would be such a vector, so a matrix
whose rows have only the zero vector in common is inverted.
-/

namespace Cairn.Verified.Elimination

variable {F : Type} [Field F]

/-- `dst -= coefficient * src` at each place, up to the end of the shorter. -/
def mulSub (coefficient : F) : List F → List F → List F
  | out :: dst, byte :: src => (out - coefficient * byte) :: mulSub coefficient dst src
  | dst, _ => dst

def unitRow (size row : ℕ) : List F := (List.replicate size 0).set row 1

def identity (size : ℕ) : List (List F) := (List.range size).map (unitRow size)

/-- Two places of a list exchanged. -/
def swapAt {α : Type*} (rows : List α) (a b : ℕ) : List α :=
  match rows[a]?, rows[b]? with
  | some x, some y => (rows.set a y).set b x
  | _, _ => rows

def entryAt (rows : List (List F)) (row column : ℕ) : Option F := do
  (← rows[row]?)[column]?

section Algorithm

variable [DecidableEq F]

def inv? (a : F) : Option F := if a = 0 then none else some a⁻¹

/-- One row cleared in `column`, in both matrices. -/
def clear (column : ℕ) (pivotMatrix pivotInverse : List F)
    (state : List (List F) × List (List F)) (row : ℕ) :
    Option (List (List F) × List (List F)) :=
  if row = column then some state
  else do
    let factor ← entryAt state.1 row column
    if factor = 0 then some state
    else
      let rowMatrix ← state.1[row]?
      let rowInverse ← state.2[row]?
      some (state.1.set row (mulSub factor rowMatrix pivotMatrix),
        state.2.set row (mulSub factor rowInverse pivotInverse))

/-- The work of one column. -/
def reduce (size : ℕ) (state : List (List F) × List (List F)) (column : ℕ) :
    Option (List (List F) × List (List F)) := do
  let pivot ← (List.range' column (size - column)).find? fun row =>
    (entryAt state.1 row column).any (· ≠ 0)
  let matrix := swapAt state.1 column pivot
  let inverse := swapAt state.2 column pivot
  let scale ← inv? (← entryAt matrix column column)
  let pivotMatrix := (← matrix[column]?).map (scale * ·)
  let pivotInverse := (← inverse[column]?).map (scale * ·)
  (List.range size).foldlM (clear column pivotMatrix pivotInverse)
    (matrix.set column pivotMatrix, inverse.set column pivotInverse)

def invert (matrix : List (List F)) : Option (List (List F)) := do
  let state ← (List.range matrix.length).foldlM (reduce matrix.length)
    (matrix, identity matrix.length)
  pure state.2

end Algorithm

/-! ## Cells and values -/

/-- A cell of a matrix, zero outside it. -/
def cell (rows : List (List F)) (row column : ℕ) : F := (rows.getD row []).getD column 0

/-- The value of a row at a vector. -/
def dot (size : ℕ) (row : List F) (x : ℕ → F) : F :=
  ∑ j ∈ Finset.range size, row.getD j 0 * x j

def Square (size : ℕ) (rows : List (List F)) : Prop :=
  rows.length = size ∧ ∀ row < size, (rows.getD row []).length = size

/-- One column's work on what the rows stand for: row `pivot` is scaled and
moved to `column`, and its multiples are taken from the others. -/
def eliminate (factor : ℕ → F) (column pivot : ℕ) (scale : F) (v : ℕ → F) (row : ℕ) : F :=
  if row = column then scale * v pivot
  else v (Equiv.swap column pivot row) -
    factor (Equiv.swap column pivot row) * (scale * v pivot)

theorem length_mulSub (c : F) : ∀ dst src : List F, (mulSub c dst src).length = dst.length
  | [], [] | [], _ :: _ | _ :: _, [] => rfl
  | _ :: dst, _ :: src => congrArg (· + 1) (length_mulSub c dst src)

theorem getD_mulSub (c : F) : ∀ (dst src : List F) (j : ℕ), src.length = dst.length →
    (mulSub c dst src).getD j 0 = dst.getD j 0 - c * src.getD j 0
  | [], [], j, _ => by simp [mulSub]
  | out :: dst, byte :: src, 0, _ => rfl
  | _ :: dst, _ :: src, j + 1, h => getD_mulSub c dst src j (Nat.succ.inj h)

theorem mulSub_zero : ∀ dst src : List F, mulSub 0 dst src = dst
  | [], [] | [], _ :: _ | _ :: _, [] => rfl
  | out :: dst, byte :: src => by rw [mulSub, mulSub_zero, zero_mul, sub_zero]

theorem getD_map_mul (c : F) (row : List F) (j : ℕ) :
    (row.map (c * ·)).getD j 0 = c * row.getD j 0 := by
  simp only [List.getD_eq_getElem?_getD, List.getElem?_map]
  cases row[j]? with
  | none => exact (mul_zero c).symm
  | some => rfl

variable {row i size column : ℕ} {rows matrix : List (List F)}

theorem getD_set_self {α : Type*} {rows : List α} (h : row < rows.length) (a d : α) :
    (rows.set row a).getD row d = a := by
  simp [List.getD_eq_getElem?_getD, h]

theorem getD_set_ne {α : Type*} {rows : List α} (h : row ≠ i) (a d : α) :
    (rows.set row a).getD i d = rows.getD i d := by
  simp [List.getD_eq_getElem?_getD, h]

theorem getElem?_eq_getD {α : Type*} {rows : List α} (h : row < rows.length) (d : α) :
    rows[row]? = some (rows.getD row d) := by
  simp [List.getD_eq_getElem?_getD, h]

theorem getD_swapAt {α : Type*} {rows : List α} {a b : ℕ} (ha : a < rows.length)
    (hb : b < rows.length) (d : α) (i : ℕ) :
    (swapAt rows a b).getD i d = rows.getD (Equiv.swap a b i) d := by
  have hset : swapAt rows a b = (rows.set a (rows.getD b d)).set b (rows.getD a d) := by
    simp only [swapAt, getElem?_eq_getD ha d, getElem?_eq_getD hb d]
  rw [hset]
  rcases eq_or_ne i b with rfl | hib
  · rw [getD_set_self (by simpa using hb), Equiv.swap_apply_right]
  · rw [getD_set_ne hib.symm]
    rcases eq_or_ne i a with rfl | hia
    · rw [getD_set_self ha, Equiv.swap_apply_left]
    · rw [getD_set_ne hia.symm, Equiv.swap_apply_of_ne_of_ne hia hib]

theorem length_swapAt {α : Type*} (rows : List α) (a b : ℕ) :
    (swapAt rows a b).length = rows.length := by
  unfold swapAt
  split <;> simp

theorem swap_lt {a b : ℕ} (ha : a < size) (hb : b < size) (hi : i < size) :
    Equiv.swap a b i < size := by
  rcases eq_or_ne i a with rfl | hia
  · rwa [Equiv.swap_apply_left]
  · rcases eq_or_ne i b with rfl | hib
    · rwa [Equiv.swap_apply_right]
    · rwa [Equiv.swap_apply_of_ne_of_ne hia hib]

omit [Field F] in
theorem Square.getElem? (h : Square size rows) (hrow : row < size) :
    rows[row]? = some (rows.getD row []) :=
  getElem?_eq_getD (h.1.symm ▸ hrow) []

theorem Square.entryAt {size : ℕ} {rows : List (List F)} (h : Square size rows) {row column : ℕ}
    (hrow : row < size) (hcolumn : column < size) :
    entryAt rows row column = some (cell rows row column) := by
  have hlen : column < (rows.getD row []).length := (h.2 row hrow).symm ▸ hcolumn
  rw [Elimination.entryAt, h.getElem? hrow]
  exact getElem?_eq_getD hlen 0

omit [Field F] in
theorem Square.swapAt {size : ℕ} {rows : List (List F)} (h : Square size rows) {a b : ℕ}
    (ha : a < size) (hb : b < size) : Square size (swapAt rows a b) := by
  refine ⟨(length_swapAt rows a b).trans h.1, fun row hrow => ?_⟩
  rw [getD_swapAt (h.1.symm ▸ ha) (h.1.symm ▸ hb)]
  exact h.2 _ (swap_lt ha hb hrow)

omit [Field F] in
theorem Square.set (h : Square size rows) (i : ℕ) {row : List F} (hrow : row.length = size) :
    Square size (rows.set i row) := by
  refine ⟨List.length_set.trans h.1, fun j hj => ?_⟩
  rcases eq_or_ne i j with rfl | hij
  · rwa [getD_set_self (h.1.symm ▸ hj)]
  · rw [getD_set_ne hij]
    exact h.2 j hj

/-! ## Clearing a column -/

/-- `target` with the rows `todo` cleared by what `matrix` had in the column;
the pivot's own row and the others stay. -/
def Cleared (column : ℕ) (todo : List ℕ) (matrix target : List (List F)) (pivot : List F)
    (target' : List (List F)) : Prop :=
  ∀ i, target'.getD i [] = if i ∈ todo ∧ i ≠ column
    then mulSub (cell matrix i column) (target.getD i []) pivot else target.getD i []

theorem cleared_set (hne : row ≠ column) {target : List (List F)} (hrow : row < size)
    (h : Square size target) (pivot : List F) :
    Cleared column [row] matrix target pivot
      (target.set row (mulSub (cell matrix row column) (target.getD row []) pivot)) := by
  intro i
  rcases eq_or_ne i row with rfl | hir
  · rw [getD_set_self (h.1.symm ▸ hrow), if_pos ⟨List.mem_singleton_self i, hne⟩]
  · rw [getD_set_ne hir.symm, if_neg fun h => hir (List.mem_singleton.mp h.1)]

/-- Nothing moves where the row is the pivot's or has nothing in the column. -/
theorem cleared_refl (h : row = column ∨ cell matrix row column = 0) (target : List (List F))
    (pivot : List F) : Cleared column [row] matrix target pivot target := by
  intro i
  split
  · next hi =>
      obtain rfl := List.mem_singleton.mp hi.1
      rw [h.resolve_left hi.2, mulSub_zero]
  · rfl

theorem Cleared.cons {column row : ℕ} {todo : List ℕ} (hrow : row ∉ todo)
    {matrix matrix' target target₁ target₂ : List (List F)} {pivotMatrix pivot : List F}
    (hm : Cleared column [row] matrix matrix pivotMatrix matrix')
    (h₁ : Cleared column [row] matrix target pivot target₁)
    (h₂ : Cleared column todo matrix' target₁ pivot target₂) :
    Cleared column (row :: todo) matrix target pivot target₂ := by
  intro i
  rcases eq_or_ne i row with rfl | hir
  · rw [h₂ i, if_neg fun h => hrow h.1, h₁ i]
    simp only [List.mem_cons_self, true_and]
  · have hnot : ¬(i ∈ [row] ∧ i ≠ column) := fun h => hir (List.mem_singleton.mp h.1)
    have hcell : cell matrix' i column = cell matrix i column := by
      rw [cell, cell, hm i, if_neg hnot]
    rw [h₂ i, h₁ i, if_neg hnot, hcell]
    simp only [List.mem_cons, hir, false_or]

section Runs

variable [DecidableEq F]

theorem clear_spec {size column row : ℕ} (pivotMatrix pivotInverse : List F)
    (hcolumn : column < size) (hrow : row < size) {matrix inverse : List (List F)}
    (hm : Square size matrix) (hi : Square size inverse) :
    ∃ matrix' inverse', clear column pivotMatrix pivotInverse (matrix, inverse) row =
        some (matrix', inverse') ∧
      Square size matrix' ∧ Square size inverse' ∧
      Cleared column [row] matrix matrix pivotMatrix matrix' ∧
      Cleared column [row] matrix inverse pivotInverse inverse' := by
  by_cases hskip : row = column ∨ cell matrix row column = 0
  · refine ⟨matrix, inverse, ?_, hm, hi, cleared_refl hskip _ _, cleared_refl hskip _ _⟩
    by_cases heq : row = column
    · exact if_pos heq
    · simp [clear, heq, hm.entryAt hrow hcolumn, hskip.resolve_left heq]
  · push Not at hskip
    refine ⟨_, _, ?_, hm.set row ((length_mulSub _ _ _).trans (hm.2 row hrow)),
      hi.set row ((length_mulSub _ _ _).trans (hi.2 row hrow)),
      cleared_set hskip.1 hrow hm pivotMatrix, cleared_set hskip.1 hrow hi pivotInverse⟩
    simp only [clear, if_neg hskip.1, hm.entryAt hrow hcolumn, Option.bind_eq_bind,
      Option.bind_some, if_neg hskip.2, hm.getElem? hrow, hi.getElem? hrow]

theorem foldlM_clear {size column : ℕ} (pivotMatrix pivotInverse : List F)
    (hcolumn : column < size) : ∀ (todo : List ℕ) {matrix inverse : List (List F)},
    (∀ row ∈ todo, row < size) → todo.Nodup → Square size matrix → Square size inverse →
    ∃ matrix' inverse', todo.foldlM (clear column pivotMatrix pivotInverse) (matrix, inverse) =
        some (matrix', inverse') ∧
      Square size matrix' ∧ Square size inverse' ∧
      Cleared column todo matrix matrix pivotMatrix matrix' ∧
      Cleared column todo matrix inverse pivotInverse inverse'
  | [], matrix, inverse, _, _, hm, hi =>
    ⟨matrix, inverse, rfl, hm, hi, fun _ => by simp, fun _ => by simp⟩
  | row :: todo, matrix, inverse, hlt, hnodup, hm, hi => by
      rw [List.nodup_cons] at hnodup
      obtain ⟨matrix₁, inverse₁, hstep, hm₁, hi₁, hcm₁, hci₁⟩ :=
        clear_spec pivotMatrix pivotInverse hcolumn
          (hlt row List.mem_cons_self) hm hi
      obtain ⟨matrix', inverse', hrun, hm', hi', hcm', hci'⟩ :=
        foldlM_clear pivotMatrix pivotInverse hcolumn todo
          (fun r hr => hlt r (List.mem_cons_of_mem row hr)) hnodup.2 hm₁ hi₁
      refine ⟨matrix', inverse', ?_, hm', hi', hcm₁.cons hnodup.1 hcm₁ hcm',
        hcm₁.cons hnodup.1 hci₁ hci'⟩
      rw [List.foldlM_cons, hstep]
      exact hrun

end Runs

/-- The rows of one matrix swapped and the pivot's scaled, as a column's pass
finds them. -/
def raise (column pivot : ℕ) (scale : F) (rows : List (List F)) : List (List F) :=
  (swapAt rows column pivot).set column ((rows.getD pivot []).map (scale * ·))

theorem Square.raise {size column p : ℕ} {rows : List (List F)} (h : Square size rows)
    (hcolumn : column < size) (hp : p < size) (scale : F) :
    Square size (raise column p scale rows) :=
  (h.swapAt hcolumn hp).set column ((List.length_map _).trans (h.2 p hp))

variable {p : ℕ}

theorem getD_raise_ne (h : Square size rows) (hcolumn : column < size) (hp : p < size)
    (hi : i ≠ column) (scale : F) :
    (raise column p scale rows).getD i [] = rows.getD (Equiv.swap column p i) [] := by
  rw [raise, getD_set_ne hi.symm, getD_swapAt (h.1.symm ▸ hcolumn) (h.1.symm ▸ hp)]

theorem getD_raise_self (h : Square size rows) (hcolumn : column < size) (scale : F) :
    (raise column p scale rows).getD column [] = (rows.getD p []).map (scale * ·) := by
  rw [raise, getD_set_self]
  rw [length_swapAt, h.1]
  exact hcolumn

/-- Swapping, scaling and clearing come to `eliminate`, cell by cell. -/
theorem cell_of_cleared (hcolumn : column < size) (hp : p < size) {target target' : List (List F)}
    (hm : Square size matrix) (ht : Square size target) {scale : F}
    (h : Cleared column (List.range size) (raise column p scale matrix)
      (raise column p scale target) ((target.getD p []).map (scale * ·)) target') (hi : i < size)
    (j : ℕ) :
    cell target' i j = eliminate (cell matrix · column) column p scale (cell target · j) i := by
  rw [cell, h i, eliminate]
  rcases eq_or_ne i column with rfl | hic
  · rw [if_neg fun h => h.2 rfl, if_pos rfl, getD_raise_self ht hcolumn, getD_map_mul, cell]
  · have hlen : ((target.getD p []).map (scale * ·)).length =
        (target.getD (Equiv.swap column p i) []).length := by
      rw [List.length_map, ht.2 p hp, ht.2 _ (swap_lt hcolumn hp hi)]
    rw [if_pos ⟨List.mem_range.mpr hi, hic⟩, if_neg hic, cell, getD_raise_ne hm hcolumn hp hic,
      getD_raise_ne ht hcolumn hp hic, getD_mulSub _ _ _ j hlen, getD_map_mul]
    rfl

variable [DecidableEq F]

/-- What one column does to the cells of both matrices. -/
theorem reduce_cells (hcolumn : column < size) {inverse : List (List F)} (hm : Square size matrix)
    (hi : Square size inverse) (hpivot : ∃ p, column ≤ p ∧ p < size ∧ cell matrix p column ≠ 0) :
    ∃ p state', column ≤ p ∧ p < size ∧ cell matrix p column ≠ 0 ∧
      reduce size (matrix, inverse) column = some state' ∧
      Square size state'.1 ∧ Square size state'.2 ∧
      (∀ i < size, ∀ j, cell state'.1 i j = eliminate (cell matrix · column) column p
        (cell matrix p column)⁻¹ (cell matrix · j) i) ∧
      (∀ i < size, ∀ j, cell state'.2 i j = eliminate (cell matrix · column) column p
        (cell matrix p column)⁻¹ (cell inverse · j) i) := by
  obtain ⟨p, hfind⟩ : ∃ p, (List.range' column (size - column)).find? (fun row =>
      (entryAt matrix row column).any (· ≠ 0)) = some p := by
    obtain ⟨p, hle, hlt, hne⟩ := hpivot
    refine Option.isSome_iff_exists.mp (List.find?_isSome.mpr ⟨p, ?_, ?_⟩)
    · rw [List.mem_range'_1]
      omega
    · simp [hm.entryAt hlt hcolumn, hne]
  have hp : column ≤ p ∧ p < size := by
    have := List.mem_range'_1.mp (List.mem_of_find?_eq_some hfind)
    omega
  have hne : cell matrix p column ≠ 0 := by
    have := List.find?_some hfind
    simpa [hm.entryAt hp.2 hcolumn] using this
  obtain ⟨matrix', inverse', hrun, hm', hi', hcm, hci⟩ := foldlM_clear
    ((matrix.getD p []).map ((cell matrix p column)⁻¹ * ·))
    ((inverse.getD p []).map ((cell matrix p column)⁻¹ * ·)) hcolumn
    (List.range size) (fun _ => List.mem_range.mp) List.nodup_range
    (hm.raise hcolumn hp.2 _) (hi.raise hcolumn hp.2 _)
  refine ⟨p, (matrix', inverse'), hp.1, hp.2, hne, ?_, hm', hi',
    fun i hlt j => cell_of_cleared hcolumn hp.2 hm hm hcm hlt j,
    fun i hlt j => cell_of_cleared hcolumn hp.2 hm hi hci hlt j⟩
  have hup : ∀ {rows : List (List F)}, Square size rows →
      (swapAt rows column p)[column]? = some (rows.getD p []) := by
    intro rows h
    rw [(h.swapAt hcolumn hp.2).getElem? hcolumn, getD_swapAt (h.1.symm ▸ hcolumn) (h.1.symm ▸ hp.2),
      Equiv.swap_apply_left]
  have hhead : entryAt (swapAt matrix column p) column column = some (cell matrix p column) := by
    rw [entryAt, hup hm]
    exact getElem?_eq_getD ((hm.2 p hp.2).symm ▸ hcolumn) 0
  simp only [reduce, hfind, Option.bind_eq_bind, Option.bind_some, hhead, inv?, if_neg hne, hup hm,
    hup hi]
  exact hrun

/-! ## The values -/

omit [DecidableEq F]

theorem dot_eq_sum_cell (size : ℕ) (rows : List (List F)) (i : ℕ) (x : ℕ → F) :
    dot size (rows.getD i []) x = ∑ j ∈ Finset.range size, cell rows i j * x j := rfl

/-- The work of a column is linear, so it is the same on cells and on values. -/
theorem sum_eliminate (size : ℕ) (factor : ℕ → F) (column p : ℕ) (scale : F) (a : ℕ → ℕ → F)
    (x : ℕ → F) (i : ℕ) :
    ∑ j ∈ Finset.range size, eliminate factor column p scale (a · j) i * x j =
      eliminate factor column p scale (fun i => ∑ j ∈ Finset.range size, a i j * x j) i := by
  unfold eliminate
  split
  · rw [Finset.mul_sum]
    exact Finset.sum_congr rfl fun j _ => mul_assoc _ _ _
  · rw [Finset.mul_sum, Finset.mul_sum, ← Finset.sum_sub_distrib]
    exact Finset.sum_congr rfl fun j _ => by ring

theorem eliminate_congr (hcolumn : column < size) (hp : p < size) {v w : ℕ → F}
    (h : ∀ i < size, v i = w i) (factor : ℕ → F) (scale : F) (hi : i < size) :
    eliminate factor column p scale v i = eliminate factor column p scale w i := by
  rw [eliminate, eliminate, h p hp, h _ (swap_lt hcolumn hp hi)]

/-- Nothing that was not zero becomes zero. -/
theorem eq_zero_of_eliminate (hcolumn : column < size) (hp : p < size) (factor : ℕ → F) {scale : F}
    (hscale : scale ≠ 0) {v : ℕ → F} (h : ∀ i < size, eliminate factor column p scale v i = 0) :
    ∀ i < size, v i = 0 := by
  have hpivot : v p = 0 := by
    have := h column hcolumn
    rw [eliminate, if_pos rfl] at this
    exact (mul_eq_zero.mp this).resolve_left hscale
  intro i hi
  rcases eq_or_ne i p with rfl | hip
  · exact hpivot
  · have hne : Equiv.swap column p i ≠ column := fun hc =>
      hip ((Equiv.swap column p).injective (hc.trans (Equiv.swap_apply_right column p).symm))
    have := h _ (swap_lt hcolumn hp hi)
    rw [eliminate, if_neg hne, Equiv.swap_apply_self, hpivot, mul_zero, mul_zero, sub_zero] at this
    exact this

/-! ## Whole runs -/

/-- The columns before `column` are done: both sides say the same of every
vector, the rows still have only the zero vector in common, and the columns
done are the identity's. -/
structure Reduced (size column : ℕ) (rows : List (List F))
    (state : List (List F) × List (List F)) : Prop where
  matrix : Square size state.1
  inverse : Square size state.2
  agree : ∀ x, ∀ i < size, dot size (state.1.getD i []) x =
    dot size (state.2.getD i []) fun j => dot size (rows.getD j []) x
  kernel : ∀ x, (∀ i < size, dot size (state.1.getD i []) x = 0) → ∀ j < size, x j = 0
  unit : ∀ i < size, ∀ j < column, cell state.1 i j = if i = j then 1 else 0

theorem length_unitRow (size row : ℕ) : (unitRow (F := F) size row).length = size := by
  rw [unitRow, List.length_set, List.length_replicate]

theorem getD_unitRow (hrow : row < size) (j : ℕ) :
    (unitRow (F := F) size row).getD j 0 = if row = j then 1 else 0 := by
  have hlt : row < (List.replicate size (0 : F)).length := by rwa [List.length_replicate]
  split
  · next h => rw [← h, unitRow, getD_set_self hlt]
  · next h =>
      rw [unitRow, getD_set_ne h, List.getD_eq_getElem?_getD, List.getElem?_replicate]
      split <;> rfl

theorem dot_of_unit (hi : i < size) {row : List F}
    (h : ∀ j < size, row.getD j 0 = if i = j then 1 else 0) (x : ℕ → F) : dot size row x = x i := by
  rw [dot, Finset.sum_eq_single i]
  · rw [h i hi, if_pos rfl, one_mul]
  · intro j hj hne
    rw [h j (Finset.mem_range.mp hj), if_neg hne.symm, zero_mul]
  · exact fun h => absurd (Finset.mem_range.mpr hi) h

theorem getD_identity (hi : i < size) : (identity (F := F) size).getD i [] = unitRow size i := by
  simp [identity, List.getD_eq_getElem?_getD, hi]

theorem square_identity (size : ℕ) : Square size (identity (F := F) size) := by
  refine ⟨by rw [identity, List.length_map, List.length_range], fun i hi => ?_⟩
  rw [getD_identity hi, length_unitRow]

theorem reduced_zero (h : Square size rows)
    (hkernel : ∀ x, (∀ i < size, dot size (rows.getD i []) x = 0) → ∀ j < size, x j = 0) :
    Reduced size 0 rows (rows, identity size) where
  matrix := h
  inverse := square_identity size
  agree := fun x i hi => by
    rw [getD_identity hi, dot_of_unit hi fun j _ => getD_unitRow hi j]
  kernel := hkernel
  unit := fun _ _ j hj => absurd hj (Nat.not_lt_zero j)

/-- A column with nothing left to find would be sent to zero by the identity's
columns before it. -/
theorem Reduced.exists_pivot {state : List (List F) × List (List F)}
    (h : Reduced size column rows state) (hcolumn : column < size) :
    ∃ p, column ≤ p ∧ p < size ∧ cell state.1 p column ≠ 0 := by
  by_contra hnone
  push Not at hnone
  let x : ℕ → F := fun j =>
    if j = column then 1 else if j < column then -cell state.1 j column else 0
  have hx : ∀ i < size, dot size (state.1.getD i []) x = 0 := by
    intro i hi
    have hterm : ∀ j ∈ Finset.range size, cell state.1 i j * x j =
        (if j = column then cell state.1 i column else 0) +
          (if j = i then if i < column then -cell state.1 i column else 0 else 0) := by
      intro j _
      rcases lt_trichotomy j column with hlt | rfl | hgt
      · rw [h.unit i hi j hlt]
        rcases eq_or_ne i j with rfl | hij
        · simp [x, hlt, hlt.ne]
        · simp [hlt.ne, hij, hij.symm]
      · rcases eq_or_ne j i with rfl | hij
        · simp [x]
        · simp [x, hij]
      · have hx0 : x j = 0 := by simp [x, hgt.ne', hgt.not_gt]
        rcases eq_or_ne j i with rfl | hij
        · simp [hx0, hgt.ne', hgt.not_gt]
        · simp [hx0, hgt.ne', hij]
    rw [dot_eq_sum_cell, Finset.sum_congr rfl hterm, Finset.sum_add_distrib,
      Finset.sum_ite_eq', Finset.sum_ite_eq', if_pos (Finset.mem_range.mpr hcolumn),
      if_pos (Finset.mem_range.mpr hi)]
    split
    · exact add_neg_cancel _
    · next hle => rw [hnone i (Nat.le_of_not_lt hle) hi, add_zero]
  have := h.kernel x hx column hcolumn
  simp [x] at this

variable [DecidableEq F]

theorem reduce_spec (hcolumn : column < size) {state : List (List F) × List (List F)}
    (h : Reduced size column rows state) :
    ∃ state', reduce size state column = some state' ∧ Reduced size (column + 1) rows state' := by
  obtain ⟨p, state', hle, hp, hne, hrun, hm, hi, hcm, hci⟩ :=
    reduce_cells hcolumn h.matrix h.inverse (h.exists_pivot hcolumn)
  have hscale : (cell state.1 p column)⁻¹ ≠ 0 := inv_ne_zero hne
  -- On values, the step is the same `eliminate` on either side.
  have hval : ∀ {before after : List (List F)}, (∀ i < size, ∀ j, cell after i j =
      eliminate (cell state.1 · column) column p (cell state.1 p column)⁻¹ (cell before · j) i) →
      ∀ (x : ℕ → F), ∀ i < size, dot size (after.getD i []) x =
        eliminate (cell state.1 · column) column p (cell state.1 p column)⁻¹
          (fun i => dot size (before.getD i []) x) i := by
    intro before after hcells x i hlt
    rw [dot_eq_sum_cell, Finset.sum_congr rfl fun j _ => congrArg (· * x j) (hcells i hlt j)]
    exact sum_eliminate ..
  refine ⟨state', hrun, hm, hi, fun x i hlt => ?_, fun x hx => ?_, fun i hlt j hj => ?_⟩
  · rw [hval hcm x i hlt, hval hci _ i hlt]
    exact eliminate_congr hcolumn hp (h.agree x) _ _ hlt
  · refine h.kernel x (eq_zero_of_eliminate hcolumn hp (cell state.1 · column) hscale
      fun i hlt => ?_)
    rw [← hval hcm x i hlt]
    exact hx i hlt
  · rw [hcm i hlt, eliminate]
    rcases Nat.lt_succ_iff_lt_or_eq.mp hj with hlt' | rfl
    · have hpj : cell state.1 p j = 0 := by
        rw [h.unit p hp j hlt', if_neg (hlt'.trans_le hle).ne']
      rw [hpj, mul_zero, mul_zero, sub_zero, h.unit _ (swap_lt hcolumn hp hlt) j hlt']
      rcases eq_or_ne i column with rfl | hic
      · rw [if_pos rfl, if_neg hlt'.ne']
      · rw [if_neg hic]
        rcases eq_or_ne i p with rfl | hip
        · rw [Equiv.swap_apply_right, if_neg hlt'.ne', if_neg (hlt'.trans_le hle).ne']
        · rw [Equiv.swap_apply_of_ne_of_ne hic hip]
    · rw [inv_mul_cancel₀ hne, mul_one, sub_self]

/-- A square matrix whose rows send only the zero vector to zero is inverted,
and the inverse undoes it. -/
theorem invert_spec (h : Square rows.length rows)
    (hkernel : ∀ x, (∀ i < rows.length, dot rows.length (rows.getD i []) x = 0) →
      ∀ j < rows.length, x j = 0) :
    ∃ inverse, invert rows = some inverse ∧ Square rows.length inverse ∧
      ∀ x, ∀ i < rows.length, dot rows.length (inverse.getD i [])
        (fun j => dot rows.length (rows.getD j []) x) = x i := by
  have hrun : ∀ column ≤ rows.length, ∃ state,
      (List.range column).foldlM (reduce rows.length) (rows, identity rows.length) = some state ∧
      Reduced rows.length column rows state := by
    intro column
    induction column with
    | zero => exact fun _ => ⟨_, rfl, reduced_zero h hkernel⟩
    | succ column ih =>
      intro hle
      obtain ⟨state, hstate, hreduced⟩ := ih (Nat.le_of_succ_le hle)
      obtain ⟨state', hstep, hreduced'⟩ := reduce_spec hle hreduced
      refine ⟨state', ?_, hreduced'⟩
      rw [List.range_succ, List.foldlM_append, hstate]
      simpa using hstep
  obtain ⟨state, hstate, hreduced⟩ := hrun rows.length le_rfl
  refine ⟨state.2, ?_, hreduced.inverse, fun x i hi => ?_⟩
  · rw [invert, hstate]
    rfl
  · rw [← hreduced.agree x i hi]
    exact dot_of_unit hi (hreduced.unit i hi) x

/-! ## Cauchy matrices -/

omit [DecidableEq F]

open Polynomial in
/-- The values `∑ x s / (t - s)` at as many points `t` as there are `s` vanish
together only when every `x s` does: cleared of its denominators the sum is a
polynomial of smaller degree. -/
theorem cauchy_kernel {columns points : Finset F} (hcard : columns.card ≤ points.card)
    (hdisjoint : Disjoint columns points) {x : F → F}
    (h : ∀ t ∈ points, ∑ s ∈ columns, (t - s)⁻¹ * x s = 0) : ∀ s ∈ columns, x s = 0 := by
  classical
  let P : F[X] := ∑ s ∈ columns, C (x s) * Lagrange.nodal (columns.erase s) id
  have hdegree : P.degree < points.card := by
    refine lt_of_lt_of_le ((degree_sum_le _ _).trans_lt ?_) (Nat.cast_le.mpr hcard)
    rw [Finset.sup_lt_iff (WithBot.bot_lt_coe _)]
    intro s hs
    calc (C (x s) * Lagrange.nodal (columns.erase s) id).degree
        ≤ (C (x s)).degree + (Lagrange.nodal (columns.erase s) id).degree := degree_mul_le _ _
      _ ≤ 0 + (Lagrange.nodal (columns.erase s) id).degree := add_le_add_left degree_C_le _
      _ = ((columns.erase s).card : WithBot ℕ) := by rw [zero_add, Lagrange.degree_nodal]
      _ < columns.card := Nat.cast_lt.mpr (Finset.card_erase_lt_of_mem hs)
  have heval : ∀ t ∈ points, P.eval t = 0 := by
    intro t ht
    have hterm : ∀ s ∈ columns, (C (x s) * Lagrange.nodal (columns.erase s) id).eval t =
        (Lagrange.nodal columns id).eval t * ((t - s)⁻¹ * x s) := by
      intro s hs
      have hts : t - s ≠ 0 := sub_ne_zero.mpr fun heq =>
        Finset.disjoint_left.mp hdisjoint hs (heq ▸ ht)
      rw [Lagrange.nodal_eq_mul_nodal_erase hs, eval_mul, eval_mul, eval_C, eval_sub, eval_X, eval_C,
        id]
      field_simp
    rw [eval_finsetSum, Finset.sum_congr rfl hterm, ← Finset.mul_sum, h t ht, mul_zero]
  have hzero : P = 0 := eq_zero_of_degree_lt_of_eval_finset_eq_zero points hdegree heval
  intro s hs
  have hs0 : P.eval s = x s * (Lagrange.nodal (columns.erase s) id).eval s := by
    rw [eval_finsetSum, Finset.sum_eq_single s]
    · rw [eval_mul, eval_C]
    · intro u hu hne
      rw [eval_mul, ← id_eq s, Lagrange.eval_nodal_at_node (Finset.mem_erase.mpr ⟨hne.symm, hs⟩),
        mul_zero]
    · exact fun hns => absurd hs hns
  rw [hzero, eval_zero] at hs0
  refine (mul_eq_zero.mp hs0.symm).resolve_right (Lagrange.eval_nodal_not_at_node ?_)
  exact fun u hu => (Finset.ne_of_mem_erase hu).symm

end Cairn.Verified.Elimination
