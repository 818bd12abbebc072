import Cairn.Verified.Sweep
import Mathlib.Data.List.GetD
import Mathlib.Data.List.Lex
import Mathlib.Data.Fintype.Pi
import Mathlib.Order.Preorder.Finite

/-!
# Trying every subset of the shares

`open_with_any_subset` of `src/node.rs`: nobody can tell a bad share from a good
one, so every choice of `threshold` published shares is tried, in the order of
their positions, until one opens the submission. What opens is a parameter.

The next choice moves the rightmost position that has room and puts every later
one right after it; `Choice.advance_successor` says that this is the next larger
choice in lexicographic order.
-/

namespace Cairn.Ports.Subsets

open Cairn.Verified

/-! ## The next choice -/

/-- The inner loop: the rightmost position below `i` with room to move. -/
def rightmostRoom (chosen : List Nat) (n threshold : Nat) : Nat → Option Nat
  | 0 => none
  | i + 1 =>
    if chosen.getD i 0 ≠ i + n - threshold then some i
    else if i = 0 then none
    else rightmostRoom chosen n threshold i

/-- Every position after `i` right behind the one before it. -/
def repack (chosen : List Nat) (i threshold : Nat) : List Nat :=
  (List.range' (i + 1) (threshold - (i + 1))).foldl
    (fun chosen j => chosen.set j (chosen.getD (j - 1) 0 + 1)) chosen

/-- The choice after this one; `none` where the source returns `None`. -/
def advance (n threshold : Nat) (chosen : List Nat) : Option (List Nat) := do
  let i ← rightmostRoom chosen n threshold threshold
  return repack (chosen.set i (chosen.getD i 0 + 1)) i threshold

variable {chosen : List Nat} {threshold : Nat}

theorem rightmostRoom_eq_some {n k i : Nat} (h : rightmostRoom chosen n threshold k = some i) :
    i < k ∧ chosen.getD i 0 ≠ i + n - threshold ∧
      ∀ j, i < j → j < k → chosen.getD j 0 = j + n - threshold := by
  induction k with
  | zero => cases h
  | succ k ih =>
    unfold rightmostRoom at h
    split at h
    · cases h
      exact ⟨Nat.lt_succ_self _, ‹_›, fun j hj hj' => by omega⟩
    · rename_i hfull
      split at h
      · cases h
      · obtain ⟨hlt, hroom, hall⟩ := ih h
        refine ⟨by omega, hroom, fun j hj hj' => ?_⟩
        rcases Nat.lt_succ_iff_lt_or_eq.mp hj' with hj' | rfl
        · exact hall j hj hj'
        · exact not_not.mp hfull

theorem rightmostRoom_eq_none {n k : Nat} (h : rightmostRoom chosen n threshold k = none) :
    ∀ j < k, chosen.getD j 0 = j + n - threshold := by
  induction k with
  | zero => exact fun j hj => absurd hj (Nat.not_lt_zero j)
  | succ k ih =>
    unfold rightmostRoom at h
    split at h
    · cases h
    · rename_i hfull
      intro j hj
      rcases Nat.lt_succ_iff_lt_or_eq.mp hj with hj | rfl
      · split at h
        · omega
        · exact ih h j hj
      · exact not_not.mp hfull

theorem getD_set (chosen : List Nat) {i : Nat} (hi : i < chosen.length) (v j : Nat) :
    (chosen.set i v).getD j 0 = if j = i then v else chosen.getD j 0 := by
  rw [List.getD_eq_getElem?_getD, List.getD_eq_getElem?_getD, List.getElem?_set]
  split
  · rename_i h
    rw [if_pos h.symm]
    rfl
  · rename_i h
    rw [if_neg (Ne.symm h)]

theorem foldl_repack (chosen : List Nat) (i m : Nat) (h : i + m < chosen.length) :
    ((List.range' (i + 1) m).foldl
      (fun chosen j => chosen.set j (chosen.getD (j - 1) 0 + 1)) chosen).length = chosen.length ∧
    ∀ j, ((List.range' (i + 1) m).foldl
      (fun chosen j => chosen.set j (chosen.getD (j - 1) 0 + 1)) chosen).getD j 0 =
        if i < j ∧ j ≤ i + m then chosen.getD i 0 + (j - i) else chosen.getD j 0 := by
  induction m with
  | zero => exact ⟨rfl, fun j => (if_neg (by omega)).symm⟩
  | succ m ih =>
    obtain ⟨hlength, hget⟩ := ih (by omega)
    rw [List.range'_concat, List.foldl_append, Nat.one_mul]
    generalize (List.range' (i + 1) m).foldl _ chosen = packed at hlength hget ⊢
    show (packed.set (i + 1 + m) (packed.getD (i + 1 + m - 1) 0 + 1)).length = _ ∧ ∀ j,
      (packed.set (i + 1 + m) (packed.getD (i + 1 + m - 1) 0 + 1)).getD j 0 = _
    have hlast : packed.getD (i + 1 + m - 1) 0 = chosen.getD i 0 + m := by
      rw [show i + 1 + m - 1 = i + m from by omega, hget]
      split_ifs with hm
      · omega
      · rw [show m = 0 from by omega, Nat.add_zero, Nat.add_zero]
    refine ⟨by rw [List.length_set, hlength], fun j => ?_⟩
    rw [getD_set _ (by omega), hlast, hget]
    split_ifs <;> omega

theorem repack_spec (chosen : List Nat) {i : Nat} (hlength : chosen.length = threshold)
    (hi : i < threshold) : (repack chosen i threshold).length = threshold ∧
      ∀ j < threshold, (repack chosen i threshold).getD j 0 =
        if i < j then chosen.getD i 0 + (j - i) else chosen.getD j 0 := by
  obtain ⟨hsame, hget⟩ := foldl_repack chosen i (threshold - (i + 1)) (by omega)
  refine ⟨hsame.trans hlength, fun j hj => ?_⟩
  rw [repack, hget]
  split_ifs <;> omega

/-- What the next choice is, position by position. -/
theorem advance_eq_some {n : Nat} {next : List Nat} (hlength : chosen.length = threshold)
    (h : advance n threshold chosen = some next) :
    ∃ i < threshold, chosen.getD i 0 ≠ i + n - threshold ∧
      (∀ j, i < j → j < threshold → chosen.getD j 0 = j + n - threshold) ∧
      next.length = threshold ∧ ∀ j < threshold, next.getD j 0 =
        if j < i then chosen.getD j 0 else chosen.getD i 0 + 1 + (j - i) := by
  obtain ⟨i, hroom, hnext⟩ := Option.bind_eq_some_iff.mp h
  obtain ⟨hi, hne, hfull⟩ := rightmostRoom_eq_some hroom
  have hset : (chosen.set i (chosen.getD i 0 + 1)).length = threshold := by
    rw [List.length_set, hlength]
  obtain ⟨hsame, hget⟩ := repack_spec _ hset hi
  obtain rfl := Option.some_inj.mp hnext
  refine ⟨i, hi, hne, hfull, hsame, fun j hj => ?_⟩
  rw [hget j hj, getD_set _ (by omega), getD_set _ (by omega), if_pos rfl]
  split_ifs <;> omega

/-! ## Choices -/

/-- Positions in a list of `n` items, `t` of them, in increasing order. -/
structure Choice (n t : Nat) where
  chosen : List Nat
  length_eq : chosen.length = t
  increasing : chosen.Pairwise (· < ·)
  lt : ∀ i ∈ chosen, i < n

namespace Choice

variable {n t : Nat}

variable {c d : Choice n t} {j : Nat}

theorem ext (h : c.chosen = d.chosen) : c = d := by
  cases c
  cases d
  cases h
  rfl

/-- The order of the positions, read from the left. -/
instance : LinearOrder (Choice n t) := LinearOrder.lift' Choice.chosen fun _ _ => ext

theorem lt_def : c < d ↔ c.chosen < d.chosen := Iff.rfl

/-- The position in a place. -/
def place (c : Choice n t) (j : Nat) : Nat := c.chosen.getD j 0

theorem getElem_chosen (c : Choice n t) (hj : j < c.chosen.length) :
    c.chosen[j] = c.place j := (List.getD_eq_getElem _ _ hj).symm

theorem place_lt (c : Choice n t) (hj : j < t) : c.place j < n := by
  have hj' : j < c.chosen.length := c.length_eq.symm ▸ hj
  rw [← c.getElem_chosen hj']
  exact c.lt _ (List.getElem_mem hj')

theorem place_add_le (c : Choice n t) {i : Nat} (hij : i ≤ j) (hj : j < t) :
    c.place i + (j - i) ≤ c.place j := by
  induction hij with
  | refl => omega
  | @step j hle ih =>
    have hlast : c.place j < c.place (j + 1) := by
      have hj' : j + 1 < c.chosen.length := c.length_eq.symm ▸ hj
      rw [← c.getElem_chosen hj', ← c.getElem_chosen (by omega)]
      exact List.pairwise_iff_getElem.mp c.increasing j (j + 1) _ _ (Nat.lt_succ_self j)
    have := ih (by omega)
    show c.place i + (j + 1 - i) ≤ c.place (j + 1)
    omega

/-- No position leaves too little room for the ones after it. -/
theorem place_le (c : Choice n t) (hj : j < t) : c.place j ≤ j + n - t := by
  have hlast := c.place_lt (show t - 1 < t by omega)
  have hspread := c.place_add_le (show j ≤ t - 1 by omega) (by omega)
  omega

/-- One choice goes before another when it is smaller in the first place where
they differ. -/
theorem lt_iff : c < d ↔ ∃ k < t, (∀ j < k, c.place j = d.place j) ∧ c.place k < d.place k := by
  rw [lt_def, List.lt_iff_exists]
  constructor
  · rintro (⟨-, hlt⟩ | ⟨k, hc, hd, hsame, hlt⟩)
    · rw [c.length_eq, d.length_eq] at hlt
      exact absurd hlt (lt_irrefl t)
    · refine ⟨k, c.length_eq ▸ hc, fun j hj => ?_, ?_⟩
      · rw [← c.getElem_chosen (hj.trans hc), ← d.getElem_chosen (hj.trans hd)]
        exact hsame j hj
      · rwa [← c.getElem_chosen hc, ← d.getElem_chosen hd]
  · rintro ⟨k, hk, hsame, hlt⟩
    have hc : k < c.chosen.length := c.length_eq.symm ▸ hk
    have hd : k < d.chosen.length := d.length_eq.symm ▸ hk
    refine .inr ⟨k, hc, hd, fun j hj => ?_, ?_⟩
    · rw [c.getElem_chosen (hj.trans hc), d.getElem_chosen (hj.trans hd)]
      exact hsame j hj
    · rwa [c.getElem_chosen hc, d.getElem_chosen hd]

/-- A choice that is no larger in any place goes no later. -/
theorem le_of_place_le (h : ∀ j < t, c.place j ≤ d.place j) : c ≤ d := by
  refine not_lt.mp fun hlt => ?_
  obtain ⟨k, hk, -, hless⟩ := lt_iff.mp hlt
  exact absurd (h k hk) hless.not_ge

instance : Finite (Choice n t) := by
  refine Finite.of_injective
    (fun c (i : Fin t) => (⟨c.place i, c.place_lt i.isLt⟩ : Fin n)) fun c d h => ext ?_
  refine List.ext_getElem (c.length_eq.trans d.length_eq.symm) fun j hj hj' => ?_
  rw [c.getElem_chosen hj, d.getElem_chosen hj']
  exact Fin.mk.inj (congrFun h ⟨j, c.length_eq ▸ hj⟩)

/-- The position that moves, and where the others go. -/
theorem advance_cases {next : List Nat} (h : Subsets.advance n t c.chosen = some next) :
    ∃ i < t, c.place i < i + n - t ∧ (∀ j, i < j → j < t → c.place j = j + n - t) ∧
      next.length = t ∧ ∀ j < t, next.getD j 0 =
        if j < i then c.place j else c.place i + 1 + (j - i) := by
  obtain ⟨i, hi, hne, hfull, hlength, hget⟩ := advance_eq_some c.length_eq h
  exact ⟨i, hi, lt_of_le_of_ne (c.place_le hi) hne, hfull, hlength, hget⟩

/-- The choice that the next positions are. -/
def advanced (c : Choice n t) {next : List Nat} (h : Subsets.advance n t c.chosen = some next) :
    Choice n t where
  chosen := next
  length_eq := by
    obtain ⟨-, -, -, -, hlength, -⟩ := advance_cases h
    exact hlength
  increasing := by
    obtain ⟨i, hi, hroom, hfull, hlength, hget⟩ := advance_cases h
    refine List.pairwise_iff_getElem.mpr fun j k hj hk hjk => ?_
    rw [← List.getD_eq_getElem _ 0 hj, ← List.getD_eq_getElem _ 0 hk, hget j (by omega),
      hget k (by omega)]
    have hbelow : k ≤ i → c.place j + (k - j) ≤ c.place k :=
      fun _ => c.place_add_le hjk.le (by omega)
    have hbefore : j ≤ i → c.place j + (i - j) ≤ c.place i := fun h => c.place_add_le h hi
    split_ifs <;> omega
  lt := by
    obtain ⟨i, hi, hroom, hfull, hlength, hget⟩ := advance_cases h
    intro v hv
    obtain ⟨j, hj, rfl⟩ := List.getElem_of_mem hv
    rw [← List.getD_eq_getElem _ 0 hj, hget j (by omega)]
    have hlt := c.place_lt (show j < t by omega)
    split_ifs <;> omega

theorem place_advanced (c : Choice n t) {next : List Nat}
    (h : Subsets.advance n t c.chosen = some next) (j : Nat) :
    (c.advanced h).place j = next.getD j 0 := rfl

/-- The choice the source starts from. -/
def first (h : t ≤ n) : Choice n t where
  chosen := List.range t
  length_eq := List.length_range
  increasing := List.pairwise_lt_range
  lt _ hi := (List.mem_range.mp hi).trans_le h

theorem first_le (h : t ≤ n) (c : Choice n t) : first h ≤ c := by
  refine le_of_place_le fun j hj => ?_
  have hfirst : (first h).place j = j := by
    rw [place, first, List.getD_eq_getElem _ _ (by simpa using hj), List.getElem_range]
  have := c.place_add_le (Nat.zero_le j) hj
  omega

/-- The next choice. -/
def advance (c : Choice n t) : Option (Choice n t) :=
  match h : Subsets.advance n t c.chosen with
  | none => none
  | some _ => some (c.advanced h)

theorem advance_some (h : c.advance = some d) :
    ∃ next, ∃ hnext : Subsets.advance n t c.chosen = some next, d = c.advanced hnext := by
  unfold advance at h
  split at h
  · cases h
  · exact ⟨_, ‹_›, (Option.some_inj.mp h).symm⟩

theorem advance_none (h : c.advance = none) : Subsets.advance n t c.chosen = none := by
  unfold advance at h
  split at h
  · assumption
  · cases h

/-- No choice is skipped, and none comes after the last one. -/
theorem advance_successor : Sweep.Successor (advance (n := n) (t := t)) where
  lt {c d} h := by
    obtain ⟨next, hnext, rfl⟩ := advance_some h
    obtain ⟨i, hi, -, -, -, hget⟩ := advance_cases hnext
    refine lt_iff.mpr ⟨i, hi, fun j hj => ?_, ?_⟩
    · rw [place_advanced, hget j (by omega), if_pos hj]
    · rw [place_advanced, hget i hi, if_neg (lt_irrefl i)]
      omega
  least {c d e} h hlt := by
    obtain ⟨next, hnext, rfl⟩ := advance_some h
    obtain ⟨i, hi, hroom, hfull, -, hget⟩ := advance_cases hnext
    obtain ⟨k, hk, hsame, hless⟩ := lt_iff.mp hlt
    have hmax := e.place_le hk
    have hki : k ≤ i := by
      by_contra hik
      have := hfull k (by omega) hk
      omega
    rcases hki.lt_or_eq with hki | rfl
    · -- they differ before the place that moves
      refine (lt_iff.mpr ⟨k, hk, fun j hj => ?_, ?_⟩).le
      · rw [place_advanced, hget j (by omega), if_pos (by omega), hsame j hj]
      · rwa [place_advanced, hget k hk, if_pos hki]
    · refine le_of_place_le fun j hj => ?_
      rw [place_advanced, hget j hj]
      split_ifs with hjk
      · rw [hsame j hjk]
      · have := e.place_add_le (show k ≤ j by omega) hj
        omega
  last {c d} h := by
    have hfull : rightmostRoom c.chosen n t t = none := by
      have hnone := advance_none h
      unfold Subsets.advance at hnone
      cases hroom : rightmostRoom c.chosen n t t with
      | none => rfl
      | some i =>
        rw [hroom] at hnone
        cases hnone
    refine le_of_place_le fun j hj => ?_
    have hmax : c.place j = j + n - t := rightmostRoom_eq_none hfull j hj
    rw [hmax]
    exact d.place_le hj

/-- The items in the chosen positions. -/
def subset {α : Type*} {shares : List α} (c : Choice shares.length t) : List α :=
  c.chosen.attach.map fun i => shares.get ⟨i.1, c.lt i.1 i.2⟩

end Choice

/-! ## The search -/

variable {α : Type*} {β : Type*}

/-- The choices of shares that are tried, and what the search returns. -/
def searchSubsets (attempt : List α → Option β) (shares : List α) (threshold : Nat) :
    List (Choice shares.length threshold) × Option β :=
  if h : threshold = 0 ∨ shares.length < threshold then ([], none)
  else Sweep.sweep Choice.advance_successor (fun choice => attempt choice.subset)
    (Choice.first (by omega))

/-- `open_with_any_subset`. -/
def openWithAnySubset (attempt : List α → Option β) (shares : List α) (threshold : Nat) : Option β :=
  (searchSubsets attempt shares threshold).2

/-- Each subset of the shares is tried once at most, in lexicographic order, for
as long as all before it fail; the search returns what the first that opens
gives, and nothing only if none does. -/
theorem openWithAnySubset_spec (attempt : List α → Option β) (shares : List α) (threshold : Nat)
    (hpos : 1 ≤ threshold) (hle : threshold ≤ shares.length) :
    ((searchSubsets attempt shares threshold).1.map Choice.chosen).Pairwise (· < ·) ∧
    (∀ choice, choice ∈ (searchSubsets attempt shares threshold).1 ↔
      ∀ earlier : Choice shares.length threshold, earlier.chosen < choice.chosen →
        attempt earlier.subset = none) ∧
    (∀ opened, openWithAnySubset attempt shares threshold = some opened ↔
      ∃ choice : Choice shares.length threshold, attempt choice.subset = some opened ∧
        ∀ earlier : Choice shares.length threshold, earlier.chosen < choice.chosen →
          attempt earlier.subset = none) ∧
    ((openWithAnySubset attempt shares threshold).isSome ↔
      ∃ choice : Choice shares.length threshold, (attempt choice.subset).isSome) := by
  have hfirst := Choice.first_le hle
  have hsearch : searchSubsets attempt shares threshold =
      Sweep.sweep Choice.advance_successor (fun choice => attempt choice.subset)
        (Choice.first hle) := dif_neg (by omega)
  refine ⟨?_, fun choice => ?_, fun opened => ?_, ?_⟩
  · rw [List.pairwise_map, hsearch]
    exact Sweep.pairwise_sweep _
  · rw [hsearch, Sweep.mem_sweep]
    exact ⟨fun h earlier hlt => h.2 earlier (hfirst earlier) hlt,
      fun h => ⟨hfirst choice, fun earlier _ hlt => h earlier hlt⟩⟩
  · rw [openWithAnySubset, hsearch, Sweep.sweep_eq_some]
    constructor
    · rintro ⟨choice, -, hopened, hall⟩
      exact ⟨choice, hopened, fun earlier hlt => hall earlier (hfirst earlier) hlt⟩
    · rintro ⟨choice, hopened, hall⟩
      exact ⟨choice, hfirst choice, hopened, fun earlier _ hlt => hall earlier hlt⟩
  · rw [openWithAnySubset, hsearch, ← not_iff_not, Option.not_isSome_iff_eq_none,
      Sweep.sweep_eq_none]
    simp only [not_exists, Option.not_isSome_iff_eq_none]
    exact ⟨fun h choice => h choice (hfirst choice), fun h choice _ => h choice⟩

/-- The first and the last of three shares open together. -/
theorem openWithAnySubset_spec_pair :
    (openWithAnySubset (fun held => if held = [1, 3] then some "opened" else none)
      [1, 2, 3] 2).isSome :=
  (openWithAnySubset_spec _ [1, 2, 3] 2 (by decide) (by decide)).2.2.2.mpr
    ⟨⟨[0, 2], rfl, by decide, by decide⟩, rfl⟩

end Cairn.Ports.Subsets
