import Cairn.Verified.Forest

/-!
# Classes by union-find

The union-find inside `independence_classes` of `src/knowledge.rs`: pointers in a
`Vec<usize>`, a `find` that halves the path as it walks, and a `union` by which the
lower index wins. A walk only goes down, so it takes no more turns than the index it
starts from, which is the fuel given to it.
-/

namespace Cairn.Ports.Knowledge

open Cairn.Verified.Forest

/-- `find`, halving the path. -/
def find : Nat → List Nat → Nat → List Nat × Nat
  | 0, parent, x => (parent, x)
  | fuel + 1, parent, x =>
    if parent.getD x x ≠ x then
      let above := parent.getD (parent.getD x x) (parent.getD x x)
      find fuel (parent.set x above) above
    else (parent, x)

/-- `union`: the lower of the two roots wins. -/
def union (parent : List Nat) (a b : Nat) : List Nat :=
  let first := find a parent a
  let second := find b first.1 b
  if first.2 ≠ second.2 then
    second.1.set (max first.2 second.2) (min first.2 second.2)
  else second.1

/-- The pairs of indices, as the two loops take them. -/
def indexPairs (n : Nat) : List (Nat × Nat) :=
  (List.range n).flatMap fun i => (List.range' (i + 1) (n - (i + 1))).map fun j => (i, j)

/-- One turn of the two loops. -/
def mergePair (merge : Nat → Nat → Bool) (parent : List Nat) (pair : Nat × Nat) : List Nat :=
  if merge pair.1 pair.2 then union parent pair.1 pair.2 else parent

/-- The last line of `independence_classes`: a `find` for every index. -/
def findAll : List Nat → List Nat → List Nat
  | _, [] => []
  | parent, x :: xs =>
    let found := find x parent x
    found.2 :: findAll found.1 xs

/-- The classes of `n` indices, of which `merge` says which go together. -/
def classesOf (n : Nat) (merge : Nat → Nat → Bool) : List Nat :=
  findAll ((indexPairs n).foldl (mergePair merge) (List.range n)) (List.range n)

/-! ## What a walk returns -/

def pointer (parent : List Nat) (x : Nat) : Nat := parent.getD x x

/-- Two indices have one root. -/
def Joined (parent : List Nat) (x y : Nat) : Prop :=
  root (pointer parent) x = root (pointer parent) y

variable {parent : List Nat}

theorem pointer_set {x : Nat} (hx : x < parent.length) (v : Nat) :
    pointer (parent.set x v) = Function.update (pointer parent) x v := by
  funext y
  rcases eq_or_ne y x with rfl | hy
  · rw [Function.update_self, pointer, List.getD_eq_getElem?_getD, List.getElem?_set_self hx]
    rfl
  · rw [Function.update_of_ne hy, pointer, List.getD_eq_getElem?_getD,
      List.getElem?_set_ne hy.symm, ← List.getD_eq_getElem?_getD]
    rfl

theorem find_spec {fuel x : Nat} (hdown : Down (pointer parent))
    (hfuel : x ≤ fuel) (hx : x < parent.length) :
    Down (pointer (find fuel parent x).1) ∧ (find fuel parent x).1.length = parent.length ∧
      root (pointer (find fuel parent x).1) = root (pointer parent) ∧
      (find fuel parent x).2 = root (pointer parent) x := by
  induction fuel generalizing parent x with
  | zero =>
    obtain rfl := Nat.le_zero.mp hfuel
    exact ⟨hdown, rfl, rfl, rfl⟩
  | succ fuel ih =>
    rw [find]
    split_ifs with hmoved
    · have hle : pointer parent x ≤ x := hdown x
      have hle' : pointer parent (pointer parent x) ≤ pointer parent x := hdown _
      have hlt : pointer parent x < x := lt_of_le_of_ne hle hmoved
      have hset := pointer_set hx (pointer parent (pointer parent x))
      have hhalve := hdown.halve x
      rw [← hset] at hhalve
      obtain ⟨h1, h2, h3, h4⟩ := ih (x := pointer parent (pointer parent x)) hhalve (by omega)
        (by rw [List.length_set]; omega)
      rw [hset, root_halve hdown] at h3 h4
      rw [List.length_set] at h2
      rw [hdown.root_apply, hdown.root_apply] at h4
      exact ⟨h1, h2, h3, h4⟩
    · rw [not_not] at hmoved
      exact ⟨hdown, rfl, rfl, (root_of_fixed (f := pointer parent) hmoved).symm⟩

/-- The pointers after a union: down, as many, and one root under the other. -/
theorem root_union {a b : Nat} (hdown : Down (pointer parent))
    (ha : a < parent.length) (hb : b < parent.length) :
    Down (pointer (union parent a b)) ∧ (union parent a b).length = parent.length ∧
      ∃ low high, (low = root (pointer parent) a ∧ high = root (pointer parent) b ∨
          low = root (pointer parent) b ∧ high = root (pointer parent) a) ∧
        ∀ y, root (pointer (union parent a b)) y =
          if root (pointer parent) y = high then low else root (pointer parent) y := by
  obtain ⟨hdown1, hlength1, hroot1, ha1⟩ := find_spec hdown (Nat.le_refl a) ha
  obtain ⟨hdown2, hlength2, hroot2, hb2⟩ := find_spec hdown1 (Nat.le_refl b) (by rwa [hlength1])
  rw [hroot1] at hroot2 hb2
  rw [union, ha1, hb2]
  split_ifs with hne
  · generalize hra : root (pointer parent) a = ra at *
    generalize hrb : root (pointer parent) b = rb at *
    have hfixed : ∀ z, pointer (find b (find a parent a).1 b).1 (root (pointer parent) z) =
        root (pointer parent) z := by
      intro z
      rw [← hroot2]
      exact hdown2.apply_root z
    have hmax : max ra rb < (find b (find a parent a).1 b).1.length := by
      have := hra ▸ hdown.root_le a
      have := hrb ▸ hdown.root_le b
      omega
    have hle : min ra rb ≤ max ra rb := min_le_max
    have hfixa := hfixed a
    have hfixb := hfixed b
    rw [hra] at hfixa
    rw [hrb] at hfixb
    have hlow : pointer (find b (find a parent a).1 b).1 (min ra rb) = min ra rb := by
      rcases min_choice ra rb with h | h <;> rw [h] <;> assumption
    have hhigh : pointer (find b (find a parent a).1 b).1 (max ra rb) = max ra rb := by
      rcases max_choice ra rb with h | h <;> rw [h] <;> assumption
    refine ⟨?_, by rw [List.length_set, hlength2, hlength1], min ra rb, max ra rb, ?_, fun y => ?_⟩
    · rw [pointer_set hmax]
      exact hdown2.link hle
    · omega
    · rw [pointer_set hmax, root_link hdown2 hle hlow hhigh, hroot2]
  · rw [not_not] at hne
    refine ⟨hdown2, by rw [hlength2, hlength1], _, _, .inl ⟨rfl, rfl⟩, fun y => ?_⟩
    rw [hroot2, hne]
    split_ifs with h
    · exact h
    · rfl

/-- A union joins its two indices, keeps what was joined, and joins no more than it
has to. -/
theorem union_spec {a b : Nat} (hdown : Down (pointer parent))
    (ha : a < parent.length) (hb : b < parent.length) :
    Joined (union parent a b) a b ∧ (∀ x y, Joined parent x y → Joined (union parent a b) x y) ∧
      ∀ E : Nat → Nat → Prop, Equivalence E → (∀ x y, Joined parent x y → E x y) → E a b →
        ∀ x y, Joined (union parent a b) x y → E x y := by
  obtain ⟨-, -, low, high, hroots, hroot⟩ := root_union hdown ha hb
  refine ⟨?_, fun x y hxy => ?_, fun E hE hsub hab x y hxy => ?_⟩
  · rw [Joined, hroot, hroot]
    rcases hroots with ⟨h1, h2⟩ | ⟨h1, h2⟩ <;> rw [← h1, ← h2] <;> simp
  · rw [Joined, hroot, hroot, hxy]
  · have hlink : ∀ z, E z (if root (pointer parent) z = high then low else
        root (pointer parent) z) := by
      intro z
      have hself : E z (root (pointer parent) z) := by
        refine hsub _ _ ?_
        rw [Joined, root_of_fixed (hdown.apply_root z)]
      split_ifs with hz
      · have hends : ∀ w, E (root (pointer parent) w) w := by
          refine fun w => hsub _ _ ?_
          rw [Joined, root_of_fixed (hdown.apply_root w)]
        have hhighlow : E high low := by
          rcases hroots with ⟨rfl, rfl⟩ | ⟨rfl, rfl⟩
          · exact hE.trans (hends b) (hE.trans (hE.symm hab) (hE.symm (hends a)))
          · exact hE.trans (hends a) (hE.trans hab (hE.symm (hends b)))
        rw [hz] at hself
        exact hE.trans hself hhighlow
      · exact hself
    rw [Joined, hroot, hroot] at hxy
    have hx := hlink x
    rw [hxy] at hx
    exact hE.trans hx (hE.symm (hlink y))

/-! ## The components -/

theorem mem_indexPairs {n i j : Nat} : (i, j) ∈ indexPairs n ↔ i < j ∧ j < n := by
  simp only [indexPairs, List.mem_flatMap, List.mem_range, List.mem_map, List.mem_range'_1,
    Prod.mk.injEq]
  constructor
  · rintro ⟨k, hk, m, hm, rfl, rfl⟩
    omega
  · intro h
    exact ⟨i, by omega, j, by omega, rfl, rfl⟩

/-- What the two loops join, from any pointers on. -/
theorem merge_run {n : Nat} (merge : Nat → Nat → Bool) {pairs : List (Nat × Nat)}
    (hpairs : ∀ p ∈ pairs, p.1 < n ∧ p.2 < n) (hdown : Down (pointer parent))
    (hlength : parent.length = n) :
    Down (pointer (pairs.foldl (mergePair merge) parent)) ∧
      (pairs.foldl (mergePair merge) parent).length = n ∧
      (∀ x y, Joined parent x y → Joined (pairs.foldl (mergePair merge) parent) x y) ∧
      (∀ p ∈ pairs, merge p.1 p.2 = true →
        Joined (pairs.foldl (mergePair merge) parent) p.1 p.2) ∧
      ∀ E : Nat → Nat → Prop, Equivalence E → (∀ x y, Joined parent x y → E x y) →
        (∀ p ∈ pairs, merge p.1 p.2 = true → E p.1 p.2) →
        ∀ x y, Joined (pairs.foldl (mergePair merge) parent) x y → E x y := by
  induction pairs generalizing parent with
  | nil => exact ⟨hdown, hlength, fun _ _ h => h, by simp, fun E _ hsub _ => hsub⟩
  | cons p pairs ih =>
    obtain ⟨hp1, hp2⟩ := hpairs p List.mem_cons_self
    have hrest := fun q hq => hpairs q (List.mem_cons_of_mem p hq)
    rw [List.foldl_cons, mergePair]
    split_ifs with hmerge
    · obtain ⟨hdown', hlength', -⟩ := root_union hdown (hlength ▸ hp1) (hlength ▸ hp2)
      obtain ⟨hjoin, hkeep, hsound⟩ := union_spec hdown (hlength ▸ hp1) (hlength ▸ hp2)
      obtain ⟨h1, h2, h3, h4, h5⟩ := ih hrest hdown' (hlength'.trans hlength)
      refine ⟨h1, h2, fun x y h => h3 x y (hkeep x y h), fun q hq hm => ?_,
        fun E hE hsub hall => ?_⟩
      · rcases List.mem_cons.mp hq with rfl | hq
        · exact h3 _ _ hjoin
        · exact h4 q hq hm
      · exact h5 E hE (hsound E hE hsub (hall p List.mem_cons_self hmerge))
          fun q hq => hall q (List.mem_cons_of_mem p hq)
    · obtain ⟨h1, h2, h3, h4, h5⟩ := ih hrest hdown hlength
      refine ⟨h1, h2, h3, fun q hq hm => ?_, fun E hE hsub hall => ?_⟩
      · rcases List.mem_cons.mp hq with rfl | hq
        · exact absurd hm hmerge
        · exact h4 q hq hm
      · exact h5 E hE hsub fun q hq => hall q (List.mem_cons_of_mem p hq)

theorem pointer_range (n : Nat) : pointer (List.range n) = id := by
  funext x
  rw [pointer, List.getD_eq_getElem?_getD]
  by_cases hx : x < n
  · rw [List.getElem?_range hx]
    rfl
  · rw [List.getElem?_eq_none (by rw [List.length_range]; omega)]
    rfl

theorem findAll_eq (hdown : Down (pointer parent)) {xs : List Nat}
    (hxs : ∀ x ∈ xs, x < parent.length) : findAll parent xs = xs.map (root (pointer parent)) := by
  induction xs generalizing parent with
  | nil => rfl
  | cons x xs ih =>
    obtain ⟨hdown', hlength, hroot, hfound⟩ :=
      find_spec hdown (Nat.le_refl x) (hxs x List.mem_cons_self)
    rw [findAll, ih hdown' fun y hy => by
      rw [hlength]
      exact hxs y (List.mem_cons_of_mem x hy)]
    rw [hroot, hfound, List.map_cons]

section Components

variable {α : Type*} {xs : List α} {r : α → α → Prop} {merge : Nat → Nat → Bool}

/-- The classes number the components by a root function. -/
theorem classesOf_eq (hr : ∀ a b, r a b → r b a)
    (hmerge : ∀ i j, merge i j = true ↔ ∃ a b, xs[i]? = some a ∧ xs[j]? = some b ∧ r a b) :
    ∃ number : Nat → Nat, classesOf xs.length merge = (List.range xs.length).map number ∧
      (∀ i, number i ≤ i) ∧ (∀ i, number (number i) = number i) ∧
      ∀ i j, number i = number j ↔ Connected xs r i j := by
  have hstart : Down (pointer (List.range xs.length)) := by
    rw [pointer_range]
    exact fun x => Nat.le_refl x
  have hplaces : ∀ p ∈ indexPairs xs.length, p.1 < xs.length ∧ p.2 < xs.length := by
    intro p hp
    have := mem_indexPairs.mp hp
    omega
  obtain ⟨hdown, hlength, -, hpairs, hsound⟩ := merge_run merge hplaces hstart
    List.length_range
  refine ⟨_, findAll_eq hdown (by rw [hlength]; exact fun x hx => List.mem_range.mp hx),
    hdown.root_le, fun i => root_of_fixed (hdown.apply_root i), fun i j => ⟨?_, fun h => ?_⟩⟩
  · refine hsound _ ⟨fun _ => .refl, fun h => h.symm hr, fun h h' => h.trans h'⟩ ?_ ?_ i j
    · intro x y hxy
      rw [Joined, pointer_range, root_of_fixed (f := id) rfl, root_of_fixed (f := id) rfl] at hxy
      rw [hxy]
      exact .refl
    · exact fun p _ hm => .single ((hmerge _ _).mp hm)
  · induction h with
    | refl => rfl
    | @tail k j _ hstep ih =>
      refine ih.trans ?_
      obtain ⟨a, b, ha, hb, hab⟩ := hstep
      have hk := (List.getElem?_eq_some_iff.mp ha).1
      have hj := (List.getElem?_eq_some_iff.mp hb).1
      rcases Nat.lt_trichotomy k j with hlt | rfl | hgt
      · exact hpairs (k, j) (mem_indexPairs.mpr ⟨hlt, hj⟩) ((hmerge k j).mpr ⟨a, b, ha, hb, hab⟩)
      · rfl
      · exact (hpairs (j, k) (mem_indexPairs.mpr ⟨hgt, hk⟩)
          ((hmerge j k).mpr ⟨b, a, hb, ha, hr a b hab⟩)).symm

/-- A class is numbered by the least index of its component. -/
theorem classesOf_isLeast (hr : ∀ a b, r a b → r b a)
    (hmerge : ∀ i j, merge i j = true ↔ ∃ a b, xs[i]? = some a ∧ xs[j]? = some b ∧ r a b)
    {i c : Nat} (hc : (classesOf xs.length merge)[i]? = some c) :
    IsLeast {j | Connected xs r i j} c := by
  obtain ⟨number, hclasses, hle, hidem, hiff⟩ := classesOf_eq hr hmerge
  rw [hclasses, List.getElem?_map, Option.map_eq_some_iff] at hc
  obtain ⟨k, hk, rfl⟩ := hc
  obtain ⟨-, rfl⟩ := List.getElem?_eq_some_iff.mp hk
  rw [List.getElem_range]
  refine ⟨(hiff _ _).mp (hidem i).symm, fun j hj => ?_⟩
  rw [(hiff i j).mpr hj]
  exact hle j

end Components

end Cairn.Ports.Knowledge
