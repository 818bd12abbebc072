import Mathlib.Combinatorics.Enumerative.DoubleCounting
import Mathlib.Logic.Relation

/-!
# Forests whose pointers go down

A disjoint-set forest on numbers in which every pointer leads to a number no
greater than its own. Following the pointers ends at a root, the root is the least
number of its tree, and two changes keep the picture: a pointer may skip one step,
which moves no root, and one root may be put under a smaller one, which joins two
trees.

The second half is about what is grouped. Where the trees are the connected
components of a relation on the places of a list, whether two places share a tree
depends on the elements there and not on the places, and so does the number of
trees that elements of a kind meet.
-/

namespace Cairn.Verified.Forest

/-- Every pointer leads down or stays. -/
def Down (f : Nat → Nat) : Prop := ∀ x, f x ≤ x

/-- Where the pointers lead. -/
def root (f : Nat → Nat) (x : Nat) : Nat := f^[x] x

variable {f : Nat → Nat}

theorem root_of_fixed {x : Nat} (h : f x = x) : root f x = x := Function.iterate_fixed h x

/-- After as many steps as its number, a walk has ended. -/
theorem Down.apply_root (h : Down f) (x : Nat) : f (root f x) = root f x := by
  induction x using Nat.strong_induction_on with
  | _ x ih =>
    by_cases hx : f x = x
    · rw [root_of_fixed hx, hx]
    · have hlt : f x < x := lt_of_le_of_ne (h x) hx
      obtain ⟨k, rfl⟩ : ∃ k, x = k + 1 := ⟨x - 1, by omega⟩
      have hroot : root f (k + 1) = root f (f (k + 1)) := by
        obtain ⟨d, hd⟩ := Nat.exists_eq_add_of_le' (Nat.le_of_lt_succ hlt)
        have hwalk : f^[k] (f (k + 1)) = f^[d] (root f (f (k + 1))) := by
          rw [root, ← Function.iterate_add_apply, ← hd]
        exact hwalk.trans (Function.iterate_fixed (ih _ hlt) d)
      rw [hroot]
      exact ih _ hlt

theorem Down.iterate_eq_root (h : Down f) {k x : Nat} (hk : x ≤ k) : f^[k] x = root f x := by
  obtain ⟨d, rfl⟩ := Nat.exists_eq_add_of_le' hk
  rw [Function.iterate_add_apply]
  exact Function.iterate_fixed (h.apply_root x) d

theorem Down.root_apply (h : Down f) (x : Nat) : root f (f x) = root f x := by
  rw [← h.iterate_eq_root (h x), ← Function.iterate_succ_apply,
    h.iterate_eq_root (Nat.le_succ x)]

theorem Down.root_le (h : Down f) (x : Nat) : root f x ≤ x := by
  have hiterate : ∀ k y, f^[k] y ≤ y := by
    intro k
    induction k with
    | zero => exact fun y => Nat.le_refl y
    | succ k ih => exact fun y => (ih (f y)).trans (h y)
  exact hiterate x x

/-- A root function is known by its fixed points and its steps. -/
theorem root_unique (h : Down f) {g : Nat → Nat} (hfix : ∀ x, f x = x → g x = x)
    (hstep : ∀ x, g (f x) = g x) (x : Nat) : root f x = g x := by
  have hwalk : ∀ k, g (f^[k] x) = g x := by
    intro k
    induction k with
    | zero => rfl
    | succ k ih => rw [Function.iterate_succ_apply', hstep, ih]
  rw [← hfix _ (h.apply_root x)]
  exact hwalk x

/-! ## The two changes -/

/-- A pointer that skips a step. -/
theorem Down.halve (h : Down f) (x : Nat) : Down (Function.update f x (f (f x))) := by
  intro y
  rcases eq_or_ne y x with rfl | hy
  · rw [Function.update_self]
    exact (h _).trans (h _)
  · rw [Function.update_of_ne hy]
    exact h y

theorem root_halve (h : Down f) (x : Nat) : root (Function.update f x (f (f x))) = root f := by
  refine funext (root_unique (h.halve x) (fun y hy => ?_) fun y => ?_)
  · rcases eq_or_ne y x with rfl | hne
    · rw [Function.update_self] at hy
      exact root_of_fixed (Nat.le_antisymm (h y) (by rw [← hy, hy]; exact hy.ge.trans (h _)))
    · rw [Function.update_of_ne hne] at hy
      exact root_of_fixed hy
  · rcases eq_or_ne y x with rfl | hne
    · rw [Function.update_self, h.root_apply, h.root_apply]
    · rw [Function.update_of_ne hne, h.root_apply]

/-- A root under another. -/
theorem Down.link (h : Down f) {low high : Nat} (hle : low ≤ high) :
    Down (Function.update f high low) := by
  intro y
  rcases eq_or_ne y high with rfl | hy
  · rw [Function.update_self]
    exact hle
  · rw [Function.update_of_ne hy]
    exact h y

theorem root_link (h : Down f) {low high : Nat} (hle : low ≤ high) (hlow : f low = low)
    (hhigh : f high = high) (y : Nat) :
    root (Function.update f high low) y = if root f y = high then low else root f y := by
  refine root_unique (h.link hle) (g := fun y => if root f y = high then low else root f y)
    (fun y hy => ?_) (fun y => ?_) y
  · rcases eq_or_ne y high with rfl | hne
    · rw [Function.update_self] at hy
      rw [if_pos (root_of_fixed hhigh), hy]
    · rw [Function.update_of_ne hne] at hy
      rw [root_of_fixed hy, if_neg hne]
  · rcases eq_or_ne y high with rfl | hne
    · rw [Function.update_self, root_of_fixed hlow, root_of_fixed hhigh, if_pos rfl, ite_self]
    · rw [Function.update_of_ne hne, h.root_apply]

/-! ## What is grouped -/

section Linked

variable {α : Type*}

/-- Elements of a list that a chain of related ones joins. -/
def Linked (xs : List α) (r : α → α → Prop) : α → α → Prop :=
  Relation.ReflTransGen fun a b => a ∈ xs ∧ b ∈ xs ∧ r a b

/-- Places of a list that a chain of related ones joins. -/
def Connected (xs : List α) (r : α → α → Prop) : Nat → Nat → Prop :=
  Relation.ReflTransGen fun i j => ∃ a b, xs[i]? = some a ∧ xs[j]? = some b ∧ r a b

variable {xs ys : List α} {r s : α → α → Prop}

theorem Connected.symm (hr : ∀ a b, r a b → r b a) {i j : Nat} (h : Connected xs r i j) :
    Connected xs r j i := by
  induction h with
  | refl => exact .refl
  | tail _ hstep ih =>
    obtain ⟨a, b, ha, hb, hab⟩ := hstep
    exact .head ⟨b, a, hb, ha, hr a b hab⟩ ih

theorem Linked.mono (hsub : ∀ a ∈ xs, a ∈ ys) (hrs : ∀ a ∈ xs, ∀ b ∈ xs, r a b → s a b)
    {a b : α} (h : Linked xs r a b) : Linked ys s a b := by
  induction h with
  | refl => exact .refl
  | tail _ hstep ih =>
    obtain ⟨hb, hc, hbc⟩ := hstep
    exact .tail ih ⟨hsub _ hb, hsub _ hc, hrs _ hb _ hc hbc⟩

/-- Places share a component when their elements are linked. -/
theorem linked_iff (hrefl : ∀ a ∈ xs, r a a) {i j : Nat} {a b : α} (hi : xs[i]? = some a)
    (hj : xs[j]? = some b) : Connected xs r i j ↔ Linked xs r a b := by
  constructor
  · intro h
    induction h generalizing b with
    | refl =>
      rw [hi] at hj
      obtain rfl := Option.some.inj hj
      exact .refl
    | tail _ hstep ih =>
      obtain ⟨c, d, hc, hd, hcd⟩ := hstep
      rw [hd] at hj
      obtain rfl := Option.some.inj hj
      exact .tail (ih hc) ⟨List.mem_of_getElem? hc, List.mem_of_getElem? hd, hcd⟩
  · intro h
    induction h generalizing j with
    | refl => exact .single ⟨a, a, hi, hj, hrefl a (List.mem_of_getElem? hi)⟩
    | tail _ hstep ih =>
      obtain ⟨hc, -, hcd⟩ := hstep
      obtain ⟨k, hk⟩ := List.mem_iff_getElem?.mp hc
      exact .tail (ih hk) ⟨_, _, hk, hj, hcd⟩

/-- The classes that the elements of a kind meet, when places are numbered. -/
def Meets (xs : List α) (number : Nat → Nat) (p : α → Prop) (c : Nat) : Prop :=
  ∃ i a, xs[i]? = some a ∧ p a ∧ number i = c

/-- Where one list has every element of a kind that another has, and its links tell
apart what the other's do, it meets no fewer classes. -/
theorem card_le_of_linked {number number' : Nat → Nat} {p : α → Prop} {C D : Finset Nat}
    (hC : ∀ c, c ∈ C ↔ Meets xs number p c) (hD : ∀ c, c ∈ D ↔ Meets ys number' p c)
    (hx : ∀ i j a b, xs[i]? = some a → xs[j]? = some b → Linked xs r a b → number i = number j)
    (hy : ∀ i j a b, ys[i]? = some a → ys[j]? = some b → number' i = number' j → Linked ys s a b)
    (hsub : ∀ a ∈ xs, p a → a ∈ ys)
    (hlinked : ∀ a ∈ xs, ∀ b ∈ xs, p a → p b → Linked ys s a b → Linked xs r a b) :
    C.card ≤ D.card := by
  refine Finset.card_le_card_of_forall_subsingleton
    (fun c d => ∃ i j a, xs[i]? = some a ∧ ys[j]? = some a ∧ p a ∧ number i = c ∧ number' j = d)
    (fun c hc => ?_) fun d _ => ?_
  · obtain ⟨i, a, hi, hp, rfl⟩ := (hC c).mp hc
    obtain ⟨j, hj⟩ := List.mem_iff_getElem?.mp (hsub a (List.mem_of_getElem? hi) hp)
    exact ⟨number' j, (hD _).mpr ⟨j, a, hj, hp, rfl⟩, i, j, a, hi, hj, hp, rfl, rfl⟩
  · rintro _ ⟨-, i, j, a, hi, hj, hpa, rfl, rfl⟩ _ ⟨-, i', j', a', hi', hj', hpa', rfl, heq⟩
    refine hx i i' a a' hi hi' (hlinked a (List.mem_of_getElem? hi) a' (List.mem_of_getElem? hi')
      hpa hpa' ?_)
    exact hy j j' a a' hj hj' heq.symm

end Linked

end Cairn.Verified.Forest
