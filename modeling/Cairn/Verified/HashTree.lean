import Mathlib.Data.List.Basic

/-!
# Hash trees

A binary tree whose leaves carry labels and whose inner nodes are labelled by
joining the labels below. A list of labels becomes a tree level by level:
neighbours are paired, an odd last tree is promoted, until one is left.

Where joins do not collide, two trees with one label lie over each other:
walking down from the roots, each leaf met first in one tree is the label of what
the other has in its place. Over trees of one shape that is equality. Over trees
of different shapes it is not, and a label does not tell a leaf from a subtree.
-/

namespace Cairn.Verified

inductive HashTree (α : Type) where
  | leaf (a : α)
  | node (l r : HashTree α)

namespace HashTree

variable {α β : Type}

/-! ## Labels -/

def label (join : α → α → α) : HashTree α → α
  | leaf a => a
  | node l r => join (l.label join) (r.label join)

def fringe : HashTree α → List α
  | leaf a => [a]
  | node l r => l.fringe ++ r.fringe

/-- The pairs of labels that are joined. -/
def joins (join : α → α → α) : HashTree α → List (α × α)
  | leaf _ => []
  | node l r => (l.label join, r.label join) :: (l.joins join ++ r.joins join)

/-- Laid over each other, the trees agree: where one has ended, its leaf is the
label of what the other still has. -/
def Overlay (join : α → α → α) : HashTree α → HashTree α → Prop
  | leaf a, u => a = u.label join
  | node l r, leaf b => join (l.label join) (r.label join) = b
  | node l r, node l' r' => Overlay join l l' ∧ Overlay join r r'

variable {join : α → α → α} {t u : HashTree α}

theorem Overlay.label_eq (h : Overlay join t u) :
    t.label join = u.label join := by
  induction t generalizing u with
  | leaf a => exact h
  | node l r ihl ihr =>
    cases u with
    | leaf b => exact h
    | node l' r' => rw [label, label, ihl h.1, ihr h.2]

/-- Where the joins of both trees do not collide, equal labels mean that the trees
lie over each other. -/
theorem label_eq_iff_overlay {P : α × α → Prop}
    (hinj : ∀ p q, P p → P q → join p.1 p.2 = join q.1 q.2 → p = q)
    (ht : ∀ p ∈ t.joins join, P p) (hu : ∀ p ∈ u.joins join, P p) :
    t.label join = u.label join ↔ Overlay join t u := by
  refine ⟨fun h => ?_, Overlay.label_eq⟩
  induction t generalizing u with
  | leaf a => exact h
  | node l r ihl ihr =>
    cases u with
    | leaf b => exact h
    | node l' r' =>
      simp only [joins, List.mem_cons, List.mem_append] at ht hu
      have hpair := hinj _ _ (ht _ (.inl rfl)) (hu _ (.inl rfl)) h
      obtain ⟨hl, hr⟩ := Prod.mk.inj hpair
      exact ⟨ihl (fun p hp => ht p (.inr (.inl hp))) (fun p hp => hu p (.inr (.inl hp))) hl,
        ihr (fun p hp => ht p (.inr (.inr hp))) (fun p hp => hu p (.inr (.inr hp))) hr⟩

/-! ## Shapes -/

def map (f : α → β) : HashTree α → HashTree β
  | leaf a => leaf (f a)
  | node l r => node (l.map f) (r.map f)

/-- A tree without its labels. -/
def shape (t : HashTree α) : HashTree Unit := t.map fun _ => ()

theorem Overlay.eq_of_shape (h : Overlay join t u)
    (hshape : t.shape = u.shape) : t = u := by
  induction t generalizing u with
  | leaf a =>
    cases u with
    | leaf b => rw [show a = b from h]
    | node l' r' => cases hshape
  | node l r ihl ihr =>
    cases u with
    | leaf b => cases hshape
    | node l' r' =>
      obtain ⟨hl, hr⟩ := HashTree.node.inj hshape
      rw [ihl h.1 hl, ihr h.2 hr]

/-! ## Growing a tree from its leaves -/

/-- One level up: neighbours become the two sides of a node, an odd last tree is
promoted. -/
def pairUp : List (HashTree α) → List (HashTree α)
  | a :: b :: rest => node a b :: pairUp rest
  | [a] => [a]
  | [] => []

def grow : Nat → List (HashTree α) → List (HashTree α)
  | 0, level => level
  | fuel + 1, level => if 1 < level.length then grow fuel (pairUp level) else level

def ofLeaves (xs : List α) : Option (HashTree α) := (grow xs.length (xs.map leaf)).head?

theorem length_pairUp (level : List (HashTree α)) :
    (pairUp level).length = (level.length + 1) / 2 := by
  induction level using pairUp.induct with
  | case1 a b rest ih =>
    simp only [pairUp, List.length_cons, ih]
    omega
  | case2 a => simp [pairUp]
  | case3 => simp [pairUp]

theorem length_grow (fuel : Nat) {level : List (HashTree α)} (hfuel : level.length ≤ fuel + 1)
    (hpos : 0 < level.length) : (grow fuel level).length = 1 := by
  induction fuel generalizing level with
  | zero => exact Nat.le_antisymm hfuel hpos
  | succ fuel ih =>
    rw [grow]
    split_ifs with h
    · have hlength := length_pairUp level
      exact ih (by omega) (by omega)
    · omega

theorem map_pairUp (f : α → β) (level : List (HashTree α)) :
    (pairUp level).map (map f) = pairUp (level.map (map f)) := by
  induction level using pairUp.induct with
  | case1 a b rest ih => simp only [pairUp, List.map_cons, ih, map]
  | case2 a => rfl
  | case3 => rfl

theorem map_grow (f : α → β) (fuel : Nat) (level : List (HashTree α)) :
    (grow fuel level).map (map f) = grow fuel (level.map (map f)) := by
  induction fuel generalizing level with
  | zero => rfl
  | succ fuel ih =>
    rw [grow, grow, List.length_map]
    split_ifs with h
    · rw [ih, map_pairUp]
    · rfl

theorem ofLeaves_map (f : α → β) (xs : List α) :
    ofLeaves (xs.map f) = (ofLeaves xs).map (map f) := by
  have hleaves : (xs.map f).map leaf = (xs.map leaf).map (map f) := by
    rw [List.map_map, List.map_map]
    rfl
  rw [ofLeaves, ofLeaves, List.length_map, hleaves, ← map_grow, List.head?_map]

/-- The shape depends on the number of leaves alone. -/
theorem shape_ofLeaves {xs ys : List α} (hlength : xs.length = ys.length)
    (ht : ofLeaves xs = some t) (hu : ofLeaves ys = some u) : t.shape = u.shape := by
  have hunits : xs.map (fun _ => ()) = ys.map fun _ => () := by
    rw [List.map_const', List.map_const', hlength]
  have hx := ofLeaves_map (fun _ => ()) xs
  rw [ht] at hx
  have hy := ofLeaves_map (fun _ => ()) ys
  rw [hu] at hy
  exact Option.some.inj (hx.symm.trans ((congrArg ofLeaves hunits).trans hy))

theorem fringe_pairUp (level : List (HashTree α)) :
    (pairUp level).flatMap fringe = level.flatMap fringe := by
  induction level using pairUp.induct with
  | case1 a b rest ih =>
    simp only [pairUp, List.flatMap_cons, ih, fringe, List.append_assoc]
  | case2 a => rfl
  | case3 => rfl

theorem fringe_grow (fuel : Nat) (level : List (HashTree α)) :
    (grow fuel level).flatMap fringe = level.flatMap fringe := by
  induction fuel generalizing level with
  | zero => rfl
  | succ fuel ih =>
    rw [grow]
    split_ifs with h
    · rw [ih, fringe_pairUp]
    · rfl

/-- A list that is not empty grows into one tree over it. -/
theorem ofLeaves_fringe {xs : List α} (hne : xs ≠ []) :
    ∃ t, ofLeaves xs = some t ∧ t.fringe = xs := by
  have hlength : (grow xs.length (xs.map leaf)).length = 1 := by
    refine length_grow _ ?_ ?_
    · rw [List.length_map]
      omega
    · rw [List.length_map]
      exact List.length_pos_iff.mpr hne
  obtain ⟨t, ht⟩ := List.length_eq_one_iff.mp hlength
  refine ⟨t, by rw [ofLeaves, ht]; rfl, ?_⟩
  have hfringe := fringe_grow xs.length (xs.map leaf)
  rw [ht, List.flatMap_singleton] at hfringe
  rw [hfringe, List.flatMap_map]
  exact List.flatMap_pure_eq_map id xs |>.trans (List.map_id xs)

end HashTree

end Cairn.Verified
