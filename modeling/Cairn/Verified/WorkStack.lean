import Mathlib

/-!
# Work stacks

A work stack pops an item, yields one row for it and pushes what the item
leads to, until the stack is empty. Where what is pushed ranks below what was
popped, the loop is a walk over a finite tree: it ends, after as many turns as
there are rows, and the rows are those of the recursion that would have walked
the same tree.

What a row yields together with what is pushed can be weighed. If that is
always the weight of the popped item, the rows together weigh what the items
on the first stack did.
-/

namespace Cairn.Verified.WorkStack

universe u v w

variable {φ : Type u} {ρ : Type v} {σ : Type w}

/-- Pop an item, fold in its row and push what it pushes, the last pushed on
top; nothing where the turns run out first. -/
def run (turn : φ → ρ × List φ) (emit : σ → ρ → σ) : Nat → List φ → σ → Option σ
  | 0, _, _ => none
  | _ + 1, [], state => some state
  | turns + 1, item :: stack, state =>
    run turn emit turns ((turn item).2.reverse ++ stack) (emit state (turn item).1)

/-- The rows of the walk below an item, down to a depth. -/
def rows (turn : φ → ρ × List φ) : Nat → φ → List ρ
  | 0, _ => []
  | depth + 1, item => (turn item).1 :: (turn item).2.reverse.flatMap (rows turn depth)

/-- The rows of the recursion that takes what is pushed in forward order. -/
def recursion (turn : φ → ρ × List φ) : Nat → φ → List ρ
  | 0, _ => []
  | depth + 1, item => (turn item).1 :: (turn item).2.flatMap (recursion turn depth)

/-- What is pushed keeps the invariant and ranks below what was popped. -/
def Ranked (turn : φ → ρ × List φ) (inv : φ → Prop) (rank : φ → Nat) : Prop :=
  ∀ item, inv item → ∀ next ∈ (turn item).2, inv next ∧ rank next < rank item

variable {turn : φ → ρ × List φ} {emit : σ → ρ → σ} {inv : φ → Prop} {rank : φ → Nat}

/-- A recursion yields the rows of the loop, in another order. -/
theorem rows_perm_recursion (depth : Nat) (item : φ) :
    (rows turn depth item).Perm (recursion turn depth item) := by
  induction depth generalizing item with
  | zero => exact List.Perm.refl _
  | succ depth ih =>
    refine List.Perm.cons _ ?_
    refine ((List.reverse_perm _).flatMap_right _).trans ?_
    exact List.Perm.flatMap_left _ fun next _ => ih next

/-- Deeper than the rank, the walk no longer depends on the depth. -/
theorem rows_of_le (hranked : Ranked turn inv rank) {depth : Nat} {item : φ} (hitem : inv item)
    (hdepth : rank item < depth) {more : Nat} (hmore : depth ≤ more) :
    rows turn more item = rows turn depth item := by
  induction depth generalizing item more with
  | zero => exact absurd hdepth (Nat.not_lt_zero _)
  | succ depth ih =>
    obtain ⟨more, rfl⟩ : ∃ n, more = n + 1 := ⟨more - 1, by omega⟩
    rw [rows, rows]
    refine congrArg ((turn item).1 :: ·) (List.flatMap_congr fun next hnext => ?_)
    have hnext := hranked item hitem next (List.mem_reverse.mp hnext)
    exact ih hnext.1 (by omega) (by omega)

/-- The loop over a stack goes through the walk below each item in turn. -/
theorem run_append (hranked : Ranked turn inv rank) (depth : Nat) :
    ∀ (items stack : List φ) (state : σ) (turns : Nat),
      (∀ item ∈ items, inv item ∧ rank item < depth) →
      run turn emit (turns + (items.flatMap (rows turn depth)).length) (items ++ stack) state =
        run turn emit turns stack ((items.flatMap (rows turn depth)).foldl emit state) := by
  induction depth with
  | zero =>
    intro items stack state turns h
    cases items with
    | nil => rfl
    | cons item items => exact absurd (h item (by simp)).2 (Nat.not_lt_zero _)
  | succ depth ih =>
    intro items
    induction items with
    | nil =>
      intro stack state turns _
      rfl
    | cons item items ihitems =>
      intro stack state turns h
      have hitem := h item (by simp)
      have hpushed : ∀ next ∈ (turn item).2.reverse, inv next ∧ rank next < depth := by
        intro next hnext
        have hnext := hranked item hitem.1 next (List.mem_reverse.mp hnext)
        exact ⟨hnext.1, by omega⟩
      have hlength : turns + ((item :: items).flatMap (rows turn (depth + 1))).length =
          turns + (items.flatMap (rows turn (depth + 1))).length +
            ((turn item).2.reverse.flatMap (rows turn depth)).length + 1 := by
        simp only [List.flatMap_cons, rows, List.length_append, List.length_cons]
        omega
      rw [hlength, List.cons_append, run, ih _ _ _ _ hpushed,
        ihitems _ _ _ fun next hnext => h next (by simp [hnext])]
      simp only [List.flatMap_cons, rows, List.cons_append, List.foldl_cons,
        List.foldl_append]

/-- The loop ends once it has more turns than there are rows. -/
theorem run_eq (hranked : Ranked turn inv rank) {depth : Nat} {items : List φ}
    (h : ∀ item ∈ items, inv item ∧ rank item < depth) {turns : Nat}
    (hturns : (items.flatMap (rows turn depth)).length < turns) (state : σ) :
    run turn emit turns items state =
      some ((items.flatMap (rows turn depth)).foldl emit state) := by
  obtain ⟨rest, rfl⟩ : ∃ rest, turns =
      rest + 1 + (items.flatMap (rows turn depth)).length :=
    ⟨turns - 1 - (items.flatMap (rows turn depth)).length, by omega⟩
  have hrun := @run_append _ _ _ turn emit _ _ hranked depth items [] state (rest + 1) h
  rw [List.append_nil] at hrun
  rw [hrun, run]

/-- What holds of every popped item's row holds of every row. -/
theorem forall_rows (hranked : Ranked turn inv rank) {P : ρ → Prop}
    (hrow : ∀ item, inv item → P (turn item).1) (depth : Nat) {item : φ} (hitem : inv item) :
    ∀ row ∈ rows turn depth item, P row := by
  induction depth generalizing item with
  | zero => simp [rows]
  | succ depth ih =>
    intro row hmem
    rcases List.mem_cons.mp hmem with rfl | hmem
    · exact hrow item hitem
    · obtain ⟨next, hnext, hmem⟩ := List.mem_flatMap.mp hmem
      exact ih (hranked item hitem next (List.mem_reverse.mp hnext)).1 row hmem

/-- Where a row and what is pushed together weigh what was popped, so do all
rows together. -/
theorem sum_rows (hranked : Ranked turn inv rank) {units : ρ → Nat} {weight : φ → Nat}
    (hweight : ∀ item, inv item →
      units (turn item).1 + ((turn item).2.map weight).sum = weight item)
    (depth : Nat) {item : φ} (hitem : inv item) (hdepth : rank item < depth) :
    ((rows turn depth item).map units).sum = weight item := by
  induction depth generalizing item with
  | zero => exact absurd hdepth (Nat.not_lt_zero _)
  | succ depth ih =>
    have hpushed : ∀ next ∈ (turn item).2.reverse,
        ((rows turn depth next).map units).sum = weight next := by
      intro next hnext
      have hnext := hranked item hitem next (List.mem_reverse.mp hnext)
      exact ih hnext.1 (by omega)
    have hsum : (((turn item).2.reverse.flatMap (rows turn depth)).map units).sum =
        ((turn item).2.map weight).sum := by
      rw [List.map_flatMap, List.flatMap_def, List.sum_flatten, List.map_map]
      refine (congrArg List.sum (List.map_congr_left hpushed)).trans ?_
      exact ((List.reverse_perm _).map weight).sum_eq
    rw [rows, List.map_cons, List.sum_cons, hsum, hweight item hitem]

end Cairn.Verified.WorkStack
