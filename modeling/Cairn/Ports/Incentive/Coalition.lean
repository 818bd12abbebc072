import Cairn.Ports.Incentive.Game
import Cairn.Ports.Subsets
import Mathlib.Algebra.BigOperators.Group.Finset.Basic
import Mathlib.Algebra.Order.BigOperators.Group.Finset
import Mathlib.Data.Finset.Sort
import Mathlib.Algebra.Order.Field.Rat
import Mathlib.Tactic.NormNum

/-!
# Groups that move together

`coalition_deviation` of `src/incentive/game.rs` looks for the joint move of at
most so many players that gains most. It tries only moves in which every member
of the group changes its action. A group in which some members stand still is
covered by its movers when every member has to gain, but not when the members
can pay each other: somebody who stands still can pay for the move.
-/

namespace Cairn.Ports.Incentive

open Cairn.Verified
open Cairn.Verified.Odometer
open Cairn.Ports.Subsets

/-! ## Groups -/

/-- The loop of `advance_subset`: the last slot below `slot` that can move. -/
def lastRoom (players : Nat) (members : List Nat) : Nat → Option Nat
  | 0 => none
  | slot + 1 =>
    if members.getD slot 0 < players - (members.length - slot) then some slot
    else lastRoom players members slot

/-- `advance_subset`; `none` where the source returns false. -/
def advanceSubset (players : Nat) (members : List Nat) : Option (List Nat) := do
  let slot ← lastRoom players members members.length
  return repack (members.set slot (members.getD slot 0 + 1)) slot members.length

variable {players size maxSize : Nat} {choices members profile : List Nat} {game : Game}
  {move : List Nat × List Nat}

theorem lastRoom_eq (hsize : size ≤ players) (c : Choice players size) {slots : Nat}
    (h : slots ≤ size) :
    lastRoom players c.chosen slots = rightmostRoom c.chosen players size slots := by
  induction slots with
  | zero => rfl
  | succ slot ih =>
    have hle : c.chosen.getD slot 0 ≤ slot + players - size := c.place_le h
    have hroom : c.chosen.getD slot 0 < players - (c.chosen.length - slot) ↔
        c.chosen.getD slot 0 ≠ slot + players - size := by
      rw [c.length_eq]
      omega
    rw [lastRoom, rightmostRoom, ih (by omega)]
    by_cases hmoves : c.chosen.getD slot 0 ≠ slot + players - size
    · rw [if_pos (hroom.mpr hmoves), if_pos hmoves]
    · rw [if_neg (mt hroom.mp hmoves), if_neg hmoves]
      split_ifs with hzero
      · subst hzero
        rfl
      · rfl

theorem advanceSubset_eq (hsize : size ≤ players) (c : Choice players size) :
    advanceSubset players c.chosen = Subsets.advance players size c.chosen := by
  unfold advanceSubset Subsets.advance
  rw [c.length_eq, lastRoom_eq hsize c (le_refl size)]

/-- The next group. -/
def nextGroup {players size : Nat} (hsize : size ≤ players) (c : Choice players size) :
    Option (Choice players size) :=
  match h : advanceSubset players c.chosen with
  | none => none
  | some _ => some (c.advanced ((advanceSubset_eq hsize c).symm.trans h))

theorem nextGroup_eq (hsize : size ≤ players) : nextGroup hsize = Choice.advance := by
  funext c
  have hsame := advanceSubset_eq hsize c
  unfold nextGroup
  split
  · rename_i hlast
    rw [hsame] at hlast
    unfold Choice.advance
    split
    · rfl
    · simp_all
  · rename_i next hnext
    rw [hsame] at hnext
    unfold Choice.advance
    split
    · simp_all
    · rename_i next' hnext'
      rw [hnext] at hnext'
      cases hnext'
      rfl

theorem nextGroup_successor (hsize : size ≤ players) :
    Sweep.Successor (nextGroup hsize) := nextGroup_eq hsize ▸ Choice.advance_successor

/-- The groups of a size, in the order the source meets them. -/
def memberSets {players size : Nat} (hsize : size ≤ players) : List (Choice players size) :=
  Sweep.visits (nextGroup_successor hsize) (Choice.first hsize)

theorem mem_memberSets (hsize : size ≤ players) (c : Choice players size) :
    c ∈ memberSets hsize := Sweep.mem_visits.mpr (Choice.first_le hsize c)

/-! ## Joint actions -/

/-- The actions of the members of a group. -/
def choiceBounds (game : Game) (members : List Nat) : List (Nat × Nat) :=
  members.map fun member => (0, game.actions member)

theorem advanceChoices_eq (game : Game) (h : choices.length = members.length) :
    advanceChoices game members choices = tick (choiceBounds game members) choices := by
  unfold advanceChoices
  rw [carry_length, h]
  congr 1
  apply List.ext_getElem
  · simp [slotBounds, choiceBounds]
  · intro slot hslot hslot'
    have hin : slot < members.length := by simpa [choiceBounds] using hslot'
    simp [slotBounds, choiceBounds, slotBound, List.getElem?_eq_getElem hin]

/-- The next joint action. -/
def nextChoices {game : Game} {members : List Nat} (r : Reading (choiceBounds game members)) :
    Option (Reading (choiceBounds game members)) :=
  match h : advanceChoices game members r.digits with
  | none => none
  | some next =>
    some ⟨next, (tick_some r.within ((advanceChoices_eq game (by
      rw [← r.within.length_eq, choiceBounds, List.length_map])).symm.trans h)).1⟩

theorem nextChoices_eq (game : Game) (members : List Nat) :
    @nextChoices game members = Reading.tick := by
  funext r
  have hlength : r.digits.length = members.length := by
    rw [← r.within.length_eq, choiceBounds, List.length_map]
  have hdigits : (nextChoices r).map Reading.digits = advanceChoices game members r.digits := by
    unfold nextChoices
    split
    · exact Eq.symm ‹_›
    · exact Eq.symm ‹_›
  rw [advanceChoices_eq game hlength, ← Reading.digits_tick] at hdigits
  exact Option.map_injective (fun _ _ => Reading.ext) hdigits

theorem nextChoices_successor (game : Game) (members : List Nat) :
    Sweep.Successor (@nextChoices game members) := nextChoices_eq game members ▸ Reading.tick_successor

theorem choiceBounds_pos (hplay : game.Playable) (members : Choice game.players size) :
    ∀ bound ∈ choiceBounds game members.chosen, bound.1 < bound.2 := by
  intro bound hbound
  obtain ⟨member, hmember, rfl⟩ := List.mem_map.mp hbound
  exact hplay.actions_pos member (members.lt member hmember)

/-- The joint actions of a group, in the order the source meets them. -/
def memberChoices {game : Game} (hplay : game.Playable) {size : Nat}
    (members : Choice game.players size) : List (Reading (choiceBounds game members.chosen)) :=
  Sweep.visits (nextChoices_successor game members.chosen)
    (Reading.first (choiceBounds_pos hplay members))

theorem mem_memberChoices (hplay : game.Playable) (members : Choice game.players size)
    (r : Reading (choiceBounds game members.chosen)) :
    r ∈ memberChoices hplay members := Sweep.mem_visits.mpr (Reading.first_le _ r)

theorem within_choiceBounds :
    Within (choiceBounds game members) choices ↔
      List.Forall₂ (fun member choice => choice < game.actions member) members choices := by
  unfold Within choiceBounds
  rw [List.forall₂_map_left_iff]
  simp

/-! ## The search -/

/-- What counts as a group being better off. -/
inductive Criterion where
  | everyMember
  | transferable
deriving DecidableEq, Repr

structure CoalitionDeviation where
  members : List Nat
  actions : List Nat
  gain : ℚ
deriving DecidableEq

/-- What the innermost loop keeps: the best deviation, what is left of the
budget, and the profile it writes the tried actions into. -/
structure SearchState where
  best : Option CoalitionDeviation
  budget : Nat
  candidate : List Nat

/-- The actions of some players written into a profile. -/
def writeActions (candidate : List Nat) (actions : List (Nat × Nat)) : List Nat :=
  actions.foldl (fun candidate p => candidate.set p.1 p.2) candidate

def qualifies (criterion : Criterion) (gains : List ℚ) : Bool :=
  match criterion with
  | .everyMember => gains.all fun gain => 0 < gain
  | .transferable => 0 < gains.sum

/-- One joint action: counted against the budget and compared with the best, if
every member moves. -/
def tryChoices (game : Game) (profile : List Nat) (criterion : Criterion) (members : List Nat)
    (before : List ℚ) (state : SearchState) (choices : List Nat) :
    Except GameError SearchState :=
  if (members.zip choices).all fun p => p.2 ≠ profile.getD p.1 0 then
    if state.budget = 0 then .error (.tooLarge MAX_PROFILES)
    else
      let candidate := writeActions state.candidate (members.zip choices)
      let after := members.map fun member => game.payoff member candidate
      let gains := List.zipWith (· - ·) after before
      let total := gains.sum
      let better := qualifies criterion gains &&
        state.best.all fun found => found.gain < total
      .ok
        { best := if better then some ⟨members, choices, total⟩ else state.best
          budget := state.budget - 1
          candidate := writeActions candidate
            (members.map fun member => (member, profile.getD member 0)) }
  else .ok state

/-- Every joint action of a group. -/
def tryMembers {game : Game} (hplay : game.Playable) (profile : List Nat) (criterion : Criterion)
    {size : Nat} (state : Option CoalitionDeviation × Nat) (members : Choice game.players size) :
    Except GameError (Option CoalitionDeviation × Nat) := do
  let before := members.chosen.map fun member => game.payoff member profile
  let state ← (memberChoices hplay members).foldlM
    (fun state r => tryChoices game profile criterion members.chosen before state r.digits)
    ⟨state.1, state.2, profile⟩
  return (state.best, state.budget)

/-- `coalition_deviation`. -/
def coalitionDeviation (game : Game) (profile : List Nat) (maxSize : Nat) (criterion : Criterion) :
    Except GameError (Option CoalitionDeviation) :=
  match h : check game (some profile) with
  | .error error => .error error
  | .ok () => do
      let state ← (List.finRange (min maxSize game.players)).foldlM
        (fun state (size : Fin (min maxSize game.players)) =>
          (memberSets (show size.val + 1 ≤ game.players by omega)).foldlM
            (tryMembers (check_profile_iff.mp h).1 profile criterion) state)
        (none, MAX_PROFILES)
      return state.1

/-! ## What is enumerated -/

/-- Every group with every joint action, in the order the search meets them. -/
def coalitionMoves {game : Game} (hplay : game.Playable) (maxSize : Nat) :
    List (List Nat × List Nat) :=
  (List.finRange (min maxSize game.players)).flatMap fun size =>
    (memberSets (show size.val + 1 ≤ game.players by omega)).flatMap fun members =>
      (memberChoices hplay members).map fun r => (members.chosen, r.digits)

/-- A group of at most so many players, in ascending order, and an action of its
own for each. -/
structure IsMove (game : Game) (maxSize : Nat) (move : List Nat × List Nat) : Prop where
  nonempty : move.1 ≠ []
  length_le : move.1.length ≤ maxSize
  ascending : move.1.Pairwise (· < ·)
  players : ∀ member ∈ move.1, member < game.players
  actions : List.Forall₂ (fun member action => action < game.actions member) move.1 move.2

theorem IsMove.length_le_players (h : IsMove game maxSize move) : move.1.length ≤ game.players := by
  have hsub : move.1.toFinset ⊆ Finset.range game.players := by
    intro member hmember
    exact Finset.mem_range.mpr (h.players member (List.mem_toFinset.mp hmember))
  have hcard := Finset.card_le_card hsub
  rwa [List.toFinset_card_of_nodup (h.ascending.imp ne_of_lt), Finset.card_range] at hcard

theorem mem_coalitionMoves (hplay : game.Playable) :
    move ∈ coalitionMoves hplay maxSize ↔ IsMove game maxSize move := by
  unfold coalitionMoves
  simp only [List.mem_flatMap, List.mem_map, List.mem_finRange, true_and]
  constructor
  · rintro ⟨size, c, -, r, -, rfl⟩
    have hsize := size.isLt
    constructor
    · intro hnil
      have hlength := c.length_eq
      rw [show c.chosen = [] from hnil] at hlength
      cases hlength
    · show c.chosen.length ≤ maxSize
      rw [c.length_eq]
      omega
    · exact c.increasing
    · exact c.lt
    · exact within_choiceBounds.mp r.within
  · intro h
    have hpos : 0 < move.1.length := List.length_pos_iff.mpr h.nonempty
    have hle := h.length_le
    have hplayers := h.length_le_players
    have hlength : move.1.length = move.1.length - 1 + 1 := by omega
    refine ⟨⟨move.1.length - 1, by omega⟩, ⟨move.1, hlength, h.ascending, h.players⟩,
      mem_memberSets _ _, ⟨move.2, within_choiceBounds.mpr h.actions⟩,
      mem_memberChoices _ _ _, rfl⟩

/-- No group is met twice with one joint action. -/
theorem coalitionMoves_nodup (hplay : game.Playable) (maxSize : Nat) :
    (coalitionMoves hplay maxSize).Nodup := by
  unfold coalitionMoves
  rw [List.nodup_flatMap]
  constructor
  · intro size _
    rw [List.nodup_flatMap]
    constructor
    · intro members _
      apply (Sweep.nodup_visits _).map
      intro r s h
      exact Reading.ext (congrArg Prod.snd h)
    · apply (Sweep.nodup_visits _).imp
      intro c d hne move hc hd
      obtain ⟨r, -, rfl⟩ := List.mem_map.mp hc
      obtain ⟨s, -, h⟩ := List.mem_map.mp hd
      exact hne (Choice.ext (congrArg Prod.fst h)).symm
  · apply (List.nodup_finRange _).imp
    intro i j hne move hi hj
    obtain ⟨c, -, hc⟩ := List.mem_flatMap.mp hi
    obtain ⟨d, -, hd⟩ := List.mem_flatMap.mp hj
    obtain ⟨r, -, rfl⟩ := List.mem_map.mp hc
    obtain ⟨s, -, h⟩ := List.mem_map.mp hd
    have hlength := congrArg List.length (congrArg Prod.fst h)
    simp only [c.length_eq, d.length_eq] at hlength
    exact hne (Fin.ext (by omega))

/-! ## What the search returns -/

/-- The profile after a move. -/
def moveProfile (profile : List Nat) (move : List Nat × List Nat) : List Nat :=
  writeActions profile (move.1.zip move.2)

/-- What the members gain by a move. -/
def gainsOf (game : Game) (profile : List Nat) (move : List Nat × List Nat) : List ℚ :=
  move.1.map fun member =>
    game.payoff member (moveProfile profile move) - game.payoff member profile

/-- Every member of the group changes its action. -/
def allMoved (profile : List Nat) (move : List Nat × List Nat) : Bool :=
  (move.1.zip move.2).all fun p => p.2 ≠ profile.getD p.1 0

/-- The better of what is held and a move. -/
def keepBest (game : Game) (profile : List Nat) (criterion : Criterion)
    (best : Option CoalitionDeviation) (move : List Nat × List Nat) :
    Option CoalitionDeviation :=
  let total := (gainsOf game profile move).sum
  if qualifies criterion (gainsOf game profile move) && best.all fun found => found.gain < total
  then some ⟨move.1, move.2, total⟩ else best

/-- A move against the budget. -/
def countMove (game : Game) (profile : List Nat) (criterion : Criterion)
    (state : Option CoalitionDeviation × Nat) (move : List Nat × List Nat) :
    Except GameError (Option CoalitionDeviation × Nat) :=
  if allMoved profile move then
    if state.2 = 0 then .error (.tooLarge MAX_PROFILES)
    else .ok (keepBest game profile criterion state.1 move, state.2 - 1)
  else .ok state

theorem length_writeActions (candidate : List Nat) (actions : List (Nat × Nat)) :
    (writeActions candidate actions).length = candidate.length := by
  induction actions generalizing candidate with
  | nil => rfl
  | cons p actions ih =>
    show (writeActions (candidate.set p.1 p.2) actions).length = _
    rw [ih, List.length_set]

/-- What is in a slot after some players were written. -/
theorem getD_writeActions {candidate : List Nat} (members : List Nat) (f : Nat → Nat) {i : Nat}
    (hi : i < candidate.length) :
    (writeActions candidate (members.map fun member => (member, f member))).getD i 0 =
      if i ∈ members then f i else candidate.getD i 0 := by
  induction members generalizing candidate with
  | nil => rfl
  | cons member members ih =>
    show (writeActions (candidate.set member (f member))
      (members.map fun member => (member, f member))).getD i 0 = _
    rw [ih (by simpa using hi)]
    by_cases hin : i ∈ members
    · rw [if_pos hin, if_pos (List.mem_cons_of_mem _ hin)]
    · rw [if_neg hin]
      by_cases hsame : i = member
      · subst hsame
        rw [if_pos List.mem_cons_self, getD_set_self hi]
      · rw [if_neg (by simp [hsame, hin]), getD_set_ne _ (Ne.symm hsame)]

theorem ext_getD {l m : List Nat} (hlength : l.length = m.length)
    (h : ∀ i < l.length, l.getD i 0 = m.getD i 0) : l = m := by
  apply List.ext_getElem hlength
  intro i hi hi'
  have hsame := h i hi
  rwa [List.getD_eq_getElem _ _ hi, List.getD_eq_getElem _ _ hi'] at hsame

/-- The actions of a group as a function of its members. -/
theorem exists_map_of_nodup (hnodup : members.Nodup) (hlength : choices.length = members.length) :
    ∃ f : Nat → Nat, choices = members.map f := by
  refine ⟨fun member => choices.getD (members.idxOf member) 0, ?_⟩
  apply List.ext_getElem (by simpa using hlength)
  intro i hi hi'
  have hin : i < members.length := hlength ▸ hi
  rw [List.getElem_map, hnodup.idxOf_getElem i hin, List.getD_eq_getElem _ _ hi]

theorem zip_map_self (members : List Nat) (f : Nat → Nat) :
    members.zip (members.map f) = members.map fun member => (member, f member) := by
  induction members with
  | nil => rfl
  | cons member members ih => rw [List.map_cons, List.zip_cons_cons, ih, List.map_cons]

/-- The loop that puts the old actions back leaves the profile it started
from. -/
theorem writeActions_restore (hnodup : members.Nodup) (hlength : choices.length = members.length) :
    writeActions (writeActions profile (members.zip choices))
      (members.map fun member => (member, profile.getD member 0)) = profile := by
  obtain ⟨f, rfl⟩ := exists_map_of_nodup hnodup hlength
  rw [zip_map_self]
  apply ext_getD
  · rw [length_writeActions, length_writeActions]
  · intro i hi
    rw [length_writeActions, length_writeActions] at hi
    rw [getD_writeActions members _ (by rwa [length_writeActions]), getD_writeActions members f hi]
    split_ifs <;> rfl

theorem tryChoices_eq (game : Game) (profile : List Nat) (criterion : Criterion)
    (hnodup : members.Nodup) (hlength : choices.length = members.length)
    (state : Option CoalitionDeviation × Nat) :
    tryChoices game profile criterion members
        (members.map fun member => game.payoff member profile) ⟨state.1, state.2, profile⟩
        choices =
      (countMove game profile criterion state (members, choices)).map
        fun state => ⟨state.1, state.2, profile⟩ := by
  have hgains : List.zipWith (· - ·)
      (members.map fun member => game.payoff member (writeActions profile (members.zip choices)))
      (members.map fun member => game.payoff member profile) =
        gainsOf game profile (members, choices) := by
    rw [List.zipWith_map]
    unfold gainsOf moveProfile
    exact List.zipWith_self
  unfold tryChoices countMove allMoved keepBest
  dsimp only
  rw [hgains, writeActions_restore hnodup hlength]
  by_cases hmoved : ((members.zip choices).all fun p => p.2 ≠ profile.getD p.1 0) = true
  · rw [if_pos hmoved, if_pos hmoved]
    by_cases hbudget : state.2 = 0
    · rw [if_pos hbudget, if_pos hbudget]
      rfl
    · rw [if_neg hbudget, if_neg hbudget]
      rfl
  · rw [if_neg hmoved, if_neg hmoved]
    rfl

theorem foldlM_tryChoices (profile : List Nat) (criterion : Criterion)
    (members : Choice game.players size) (rs : List (Reading (choiceBounds game members.chosen)))
    (state : Option CoalitionDeviation × Nat) :
    rs.foldlM (fun state r => tryChoices game profile criterion members.chosen
        (members.chosen.map fun member => game.payoff member profile) state r.digits)
        ⟨state.1, state.2, profile⟩ =
      (rs.foldlM (fun state r =>
        countMove game profile criterion state (members.chosen, r.digits)) state).map
          fun state => (⟨state.1, state.2, profile⟩ : SearchState) := by
  induction rs generalizing state with
  | nil => rfl
  | cons r rs ih =>
    have hlength : r.digits.length = members.chosen.length := by
      rw [← r.within.length_eq, choiceBounds, List.length_map]
    rw [List.foldlM_cons, List.foldlM_cons,
      tryChoices_eq game profile criterion (members.increasing.imp ne_of_lt) hlength]
    cases countMove game profile criterion state (members.chosen, r.digits) with
    | error error => rfl
    | ok state' => exact ih state'

theorem tryMembers_eq (hplay : game.Playable) (profile : List Nat) (criterion : Criterion)
    (state : Option CoalitionDeviation × Nat) (members : Choice game.players size) :
    tryMembers hplay profile criterion state members =
      ((memberChoices hplay members).map fun r => (members.chosen, r.digits)).foldlM
        (countMove game profile criterion) state := by
  unfold tryMembers
  dsimp only
  rw [foldlM_tryChoices, List.foldlM_map]
  cases (memberChoices hplay members).foldlM (fun state r =>
      countMove game profile criterion state (members.chosen, r.digits)) state with
  | error error => rfl
  | ok state' => rfl

theorem foldlM_flatMap {α β σ : Type} (f : σ → β → Except GameError σ) (g : α → List β)
    (l : List α) (state : σ) :
    (l.flatMap g).foldlM f state = l.foldlM (fun state a => (g a).foldlM f state) state := by
  induction l generalizing state with
  | nil => rfl
  | cons a l ih =>
    rw [List.flatMap_cons, List.foldlM_append, List.foldlM_cons]
    exact bind_congr ih

theorem bind_fst {σ τ : Type} (x : Except GameError (σ × τ)) :
    (do let state ← x; return state.1) = x.map Prod.fst := by
  cases x with
  | error error => rfl
  | ok state => rfl

/-- The three loops are one loop over the moves. -/
theorem coalitionDeviation_loop (hok : check game (some profile) = .ok ()) (maxSize : Nat)
    (criterion : Criterion) :
    coalitionDeviation game profile maxSize criterion =
      ((coalitionMoves (check_profile_iff.mp hok).1 maxSize).foldlM
        (countMove game profile criterion) (none, MAX_PROFILES)).map Prod.fst := by
  unfold coalitionDeviation coalitionMoves
  split
  · rename_i herror
    rw [hok] at herror
    cases herror
  · have hstep : ∀ size, @tryMembers game (check_profile_iff.mp hok).1 profile criterion size =
        fun state members => ((memberChoices (check_profile_iff.mp hok).1 members).map
          fun r => (members.chosen, r.digits)).foldlM (countMove game profile criterion) state :=
      fun size => funext fun state => funext fun members => tryMembers_eq _ profile criterion _ _
    simp only [foldlM_flatMap, hstep]
    exact bind_fst _

/-- The loop over the moves: the best of those in which every member moves, if
the budget lasts. -/
theorem foldlM_countMove (game : Game) (profile : List Nat) (criterion : Criterion)
    (moves : List (List Nat × List Nat)) (state : Option CoalitionDeviation × Nat) :
    moves.foldlM (countMove game profile criterion) state =
      if (moves.filter (allMoved profile)).length ≤ state.2 then
        .ok ((moves.filter (allMoved profile)).foldl (keepBest game profile criterion) state.1,
          state.2 - (moves.filter (allMoved profile)).length)
      else .error (.tooLarge MAX_PROFILES) := by
  induction moves generalizing state with
  | nil => rfl
  | cons move moves ih =>
    rw [List.foldlM_cons, countMove]
    by_cases hmoved : allMoved profile move
    · rw [if_pos hmoved, List.filter_cons_of_pos hmoved, List.length_cons, List.foldl_cons]
      by_cases hbudget : state.2 = 0
      · rw [if_pos hbudget, if_neg (by omega)]
        rfl
      · rw [if_neg hbudget]
        refine (ih _).trans ?_
        dsimp only
        by_cases hfits : (moves.filter (allMoved profile)).length ≤ state.2 - 1
        · rw [if_pos hfits, if_pos (by omega), Nat.sub_sub, Nat.add_comm 1]
        · rw [if_neg hfits, if_neg (by omega)]
    · rw [if_neg hmoved, List.filter_cons_of_neg hmoved]
      exact ih state

/-- What is held after some moves: the first of those that gain most. -/
theorem foldl_keepBest (game : Game) (profile : List Nat) (criterion : Criterion)
    (moves : List (List Nat × List Nat)) :
    (moves.foldl (keepBest game profile criterion) none = none ↔
      ∀ move ∈ moves, qualifies criterion (gainsOf game profile move) = false) ∧
    ∀ d, moves.foldl (keepBest game profile criterion) none = some d →
      (d.members, d.actions) ∈ moves ∧
      qualifies criterion (gainsOf game profile (d.members, d.actions)) = true ∧
      d.gain = (gainsOf game profile (d.members, d.actions)).sum ∧
      ∀ move ∈ moves, qualifies criterion (gainsOf game profile move) = true →
        (gainsOf game profile move).sum ≤ d.gain := by
  induction moves using List.reverseRecOn with
  | nil => simp
  | append_singleton moves move ih =>
    obtain ⟨hnone, hsome⟩ := ih
    rw [List.foldl_append, List.foldl_cons, List.foldl_nil]
    cases hbest : moves.foldl (keepBest game profile criterion) none with
    | none =>
      have hall := hnone.mp hbest
      unfold keepBest
      by_cases hq : qualifies criterion (gainsOf game profile move) = true
      · simp only [hq, Option.all_none, Bool.and_self, if_true, reduceCtorEq, false_iff]
        constructor
        · intro h
          have := h move (by simp)
          rw [hq] at this
          cases this
        · intro d hd
          cases hd
          refine ⟨by simp, hq, rfl, ?_⟩
          intro other hother hqualifies
          obtain hother | hother := List.mem_append.mp hother
          · rw [hall other hother] at hqualifies
            cases hqualifies
          · rw [List.mem_singleton.mp hother]
      · rw [Bool.not_eq_true] at hq
        simp only [hq, Bool.false_and]
        refine ⟨iff_of_true rfl ?_, fun d hd => by cases hd⟩
        intro other hother
        obtain hother | hother := List.mem_append.mp hother
        · exact hall other hother
        · rw [List.mem_singleton.mp hother]
          exact hq
    | some found =>
      obtain ⟨hmem, hq, hgain, hmax⟩ := hsome found hbest
      unfold keepBest
      by_cases hbetter : qualifies criterion (gainsOf game profile move) = true ∧
          found.gain < (gainsOf game profile move).sum
      · simp only [hbetter.1, hbetter.2, Option.all_some, decide_true, Bool.and_self, if_true,
          reduceCtorEq, false_iff]
        constructor
        · intro h
          have := h move (by simp)
          rw [hbetter.1] at this
          cases this
        · intro d hd
          cases hd
          refine ⟨by simp, hbetter.1, rfl, ?_⟩
          intro other hother hqualifies
          obtain hother | hother := List.mem_append.mp hother
          · exact (hmax other hother hqualifies).trans hbetter.2.le
          · rw [List.mem_singleton.mp hother]
      · have hkeep : ¬((qualifies criterion (gainsOf game profile move) &&
            (some found).all fun found =>
              decide (found.gain < (gainsOf game profile move).sum)) = true) := by
          simpa using hbetter
        rw [if_neg hkeep]
        constructor
        · refine iff_of_false (by simp) ?_
          intro h
          rw [h _ (List.mem_append_left _ hmem)] at hq
          cases hq
        · intro d hd
          cases hd
          refine ⟨List.mem_append_left _ hmem, hq, hgain, ?_⟩
          intro other hother hqualifies
          obtain hother | hother := List.mem_append.mp hother
          · exact hmax other hother hqualifies
          · rw [List.mem_singleton.mp hother] at hqualifies ⊢
            exact not_lt.mp fun hlt => hbetter ⟨hqualifies, hlt⟩

/-! ## Groups and their joint changes -/

/-- A group of at most so many players, and a profile that differs from the
given one in their actions only. -/
structure JointChange (game : Game) (profile : List Nat) (maxSize : Nat) (group : Finset Nat)
    (after : List Nat) : Prop where
  nonempty : group.Nonempty
  card_le : group.card ≤ maxSize
  players : ∀ member ∈ group, member < game.players
  wellFormed : game.Profile after
  others : ∀ player, player ∉ group → after.getD player 0 = profile.getD player 0

/-- The group is better off. -/
def Raises (game : Game) (profile : List Nat) (criterion : Criterion) (group : Finset Nat)
    (after : List Nat) : Prop :=
  match criterion with
  | .everyMember => ∀ member ∈ group, game.payoff member profile < game.payoff member after
  | .transferable =>
    ∑ member ∈ group, game.payoff member profile < ∑ member ∈ group, game.payoff member after

/-- Every member of the group changes its action. -/
def AllMove (profile : List Nat) (group : Finset Nat) (after : List Nat) : Prop :=
  ∀ member ∈ group, after.getD member 0 ≠ profile.getD member 0

/-- What the group gains together. -/
def totalGain (game : Game) (profile : List Nat) (group : Finset Nat) (after : List Nat) : ℚ :=
  ∑ member ∈ group, (game.payoff member after - game.payoff member profile)

/-- A move as a group and a function from players to actions. -/
theorem IsMove.exists_actions (h : IsMove game maxSize move) :
    ∃ f : Nat → Nat, move = (move.1, move.1.map f) := by
  obtain ⟨f, hf⟩ := exists_map_of_nodup (h.ascending.imp ne_of_lt) h.actions.length_eq.symm
  exact ⟨f, by rw [← hf]⟩

theorem getD_moveProfile (f : Nat → Nat) {i : Nat} (hi : i < profile.length) :
    (moveProfile profile (members, members.map f)).getD i 0 =
      if i ∈ members then f i else profile.getD i 0 := by
  unfold moveProfile
  rw [zip_map_self]
  exact getD_writeActions members f hi

theorem length_moveProfile (profile : List Nat) (move : List Nat × List Nat) :
    (moveProfile profile move).length = profile.length := length_writeActions _ _

section Moves

variable {game : Game} {profile : List Nat} (hprofile : game.Profile profile) {maxSize : Nat}
include hprofile

variable {move : List Nat × List Nat}

/-- Every move is a joint change of its group. -/
theorem IsMove.jointChange (h : IsMove game maxSize move) :
    JointChange game profile maxSize move.1.toFinset (moveProfile profile move) := by
  obtain ⟨f, hf⟩ := h.exists_actions
  have hactions : ∀ member ∈ move.1, f member < game.actions member := by
    have hall := h.actions
    rw [hf, List.forall₂_map_right_iff, List.forall₂_same] at hall
    exact hall
  constructor
  · exact (List.toFinset_nonempty_iff _).mpr h.nonempty
  · rw [List.toFinset_card_of_nodup (h.ascending.imp ne_of_lt)]
    exact h.length_le
  · exact fun member hmember => h.players member (List.mem_toFinset.mp hmember)
  · constructor
    · rw [length_moveProfile, hprofile.length_eq]
    · intro player hplayer
      rw [hf, getD_moveProfile f (hprofile.length_eq ▸ hplayer)]
      split_ifs with hin
      · exact hactions player hin
      · exact hprofile.lt player hplayer
  · intro player hplayer
    rw [List.mem_toFinset] at hplayer
    by_cases hin : player < profile.length
    · rw [hf, getD_moveProfile f hin, if_neg hplayer]
    · have hout : (moveProfile profile move).length ≤ player := by
        rw [length_moveProfile]
        omega
      rw [List.getD_eq_default _ _ hout, List.getD_eq_default _ _ (not_lt.mp hin)]

theorem IsMove.allMoved_iff (h : IsMove game maxSize move) :
    allMoved profile move = true ↔ AllMove profile move.1.toFinset (moveProfile profile move) := by
  obtain ⟨f, hf⟩ := h.exists_actions
  have hget : ∀ member ∈ move.1, (moveProfile profile move).getD member 0 = f member := by
    intro member hmember
    rw [hf, getD_moveProfile f (hprofile.length_eq ▸ h.players member hmember), if_pos hmember]
  unfold allMoved AllMove
  have hzip : move.1.zip move.2 = move.1.map fun member => (member, f member) := by
    rw [hf, zip_map_self]
  rw [hzip, List.all_map]
  simp only [List.all_eq_true, Function.comp_apply, decide_eq_true_eq, List.mem_toFinset]
  constructor
  · intro hall member hmember
    rw [hget member hmember]
    exact hall member hmember
  · intro hall member hmember
    rw [← hget member hmember]
    exact hall member hmember

omit hprofile in
theorem IsMove.sum_gainsOf (h : IsMove game maxSize move) :
    (gainsOf game profile move).sum =
      totalGain game profile move.1.toFinset (moveProfile profile move) :=
  (List.sum_toFinset _ (h.ascending.imp ne_of_lt)).symm

omit hprofile in
theorem IsMove.qualifies_iff (h : IsMove game maxSize move) (criterion : Criterion) :
    qualifies criterion (gainsOf game profile move) = true ↔
      Raises game profile criterion move.1.toFinset (moveProfile profile move) := by
  cases criterion with
  | everyMember =>
    unfold qualifies Raises gainsOf
    simp only [List.all_map, List.all_eq_true, Function.comp_apply, decide_eq_true_eq, sub_pos,
      List.mem_toFinset]
  | transferable =>
    unfold qualifies Raises
    dsimp only
    rw [decide_eq_true_eq, h.sum_gainsOf, totalGain, Finset.sum_sub_distrib, sub_pos]

/-- Every joint change is a move of its group. -/
theorem JointChange.exists_move {group : Finset Nat} {after : List Nat}
    (h : JointChange game profile maxSize group after) :
    ∃ move, IsMove game maxSize move ∧ move.1.toFinset = group ∧
      moveProfile profile move = after := by
  let members := group.sort (· ≤ ·)
  have hmem : ∀ member, member ∈ members ↔ member ∈ group := fun member => Finset.mem_sort _
  refine ⟨(members, members.map fun member => after.getD member 0), ?_, ?_, ?_⟩
  · constructor
    · intro hnil
      obtain ⟨member, hmember⟩ := h.nonempty
      have hin := (hmem member).mpr hmember
      rw [show members = [] from hnil] at hin
      cases hin
    · show members.length ≤ maxSize
      rw [Finset.length_sort]
      exact h.card_le
    · exact (Finset.sortedLT_sort group).pairwise
    · exact fun member hmember => h.players member ((hmem member).mp hmember)
    · rw [List.forall₂_map_right_iff, List.forall₂_same]
      exact fun member hmember =>
        h.wellFormed.lt member (h.players member ((hmem member).mp hmember))
  · exact Finset.sort_toFinset _ _
  · apply ext_getD
    · rw [length_moveProfile, hprofile.length_eq, h.wellFormed.length_eq]
    · intro i hi
      rw [length_moveProfile] at hi
      rw [getD_moveProfile _ hi]
      split_ifs with hin
      · rfl
      · exact (h.others i (mt (hmem i).mpr hin)).symm

/-- Where every member of a group gains, those that move make a group of their
own. -/
theorem JointChange.movers {group : Finset Nat} {after : List Nat}
    (h : JointChange game profile maxSize group after)
    (hraises : Raises game profile .everyMember group after) :
    ∃ movers, JointChange game profile maxSize movers after ∧ AllMove profile movers after ∧
      Raises game profile .everyMember movers after := by
  let movers := group.filter fun member => after.getD member 0 ≠ profile.getD member 0
  have hothers : ∀ player, player ∉ movers → after.getD player 0 = profile.getD player 0 := by
    intro player hplayer
    by_cases hin : player ∈ group
    · by_contra hne
      exact hplayer (Finset.mem_filter.mpr ⟨hin, hne⟩)
    · exact h.others player hin
  refine ⟨movers, ⟨?_, ?_, ?_, h.wellFormed, hothers⟩, ?_, ?_⟩
  · rw [Finset.nonempty_iff_ne_empty]
    intro hempty
    have hsame : after = profile := by
      apply ext_getD
      · rw [h.wellFormed.length_eq, hprofile.length_eq]
      · intro i _
        exact hothers i (by simp [hempty])
    obtain ⟨member, hmember⟩ := h.nonempty
    have hlt := hraises member hmember
    rw [hsame] at hlt
    exact lt_irrefl _ hlt
  · exact (Finset.card_le_card (Finset.filter_subset _ _)).trans h.card_le
  · exact fun member hmember => h.players member (Finset.mem_filter.mp hmember).1
  · exact fun member hmember => (Finset.mem_filter.mp hmember).2
  · exact fun member hmember => hraises member (Finset.mem_filter.mp hmember).1

end Moves

/-! ## When an empty answer rules every group out -/

/-- What a search that finished within its budget returned. -/
theorem coalitionDeviation_spec (hok : check game (some profile) = .ok ()) {criterion : Criterion}
    {result : Option CoalitionDeviation}
    (h : coalitionDeviation game profile maxSize criterion = .ok result) :
    (result = none ↔ ¬∃ group after, JointChange game profile maxSize group after ∧
      AllMove profile group after ∧ Raises game profile criterion group after) ∧
    ∀ d, result = some d → d.members.Pairwise (· < ·) ∧
      JointChange game profile maxSize d.members.toFinset
        (moveProfile profile (d.members, d.actions)) ∧
      AllMove profile d.members.toFinset (moveProfile profile (d.members, d.actions)) ∧
      Raises game profile criterion d.members.toFinset
        (moveProfile profile (d.members, d.actions)) ∧
      d.gain = totalGain game profile d.members.toFinset
        (moveProfile profile (d.members, d.actions)) ∧
      ∀ group after, JointChange game profile maxSize group after → AllMove profile group after →
        Raises game profile criterion group after → totalGain game profile group after ≤ d.gain := by
  obtain ⟨hplay, hprofile⟩ := check_profile_iff.mp hok
  rw [coalitionDeviation_loop hok, foldlM_countMove] at h
  have hresult : ((coalitionMoves hplay maxSize).filter (allMoved profile)).foldl
      (keepBest game profile criterion) none = result := by
    split_ifs at h
    · exact Except.ok.inj h
    · cases h
  obtain ⟨hnone, hsome⟩ := foldl_keepBest game profile criterion
    ((coalitionMoves hplay maxSize).filter (allMoved profile))
  rw [hresult] at hnone hsome
  have hmoves : ∀ move, move ∈ (coalitionMoves hplay maxSize).filter (allMoved profile) ↔
      IsMove game maxSize move ∧ allMoved profile move = true := by
    intro move
    rw [List.mem_filter, mem_coalitionMoves]
  constructor
  · rw [hnone]
    constructor
    · rintro hall ⟨group, after, hchange, hmove, hraises⟩
      obtain ⟨move, hismove, rfl, rfl⟩ := hchange.exists_move hprofile
      have hq := hall move ((hmoves move).mpr ⟨hismove, (hismove.allMoved_iff hprofile).mpr hmove⟩)
      rw [(hismove.qualifies_iff criterion).mpr hraises] at hq
      cases hq
    · intro hnot move hmove
      obtain ⟨hismove, hmoved⟩ := (hmoves move).mp hmove
      rw [← Bool.not_eq_true]
      intro hq
      exact hnot ⟨_, _, hismove.jointChange hprofile, (hismove.allMoved_iff hprofile).mp hmoved,
        (hismove.qualifies_iff criterion).mp hq⟩
  · intro d hd
    obtain ⟨hmem, hq, hgain, hmax⟩ := hsome d hd
    obtain ⟨hismove, hmoved⟩ := (hmoves _).mp hmem
    refine ⟨hismove.ascending, hismove.jointChange hprofile,
      (hismove.allMoved_iff hprofile).mp hmoved, (hismove.qualifies_iff criterion).mp hq,
      hgain.trans hismove.sum_gainsOf, ?_⟩
    intro group after hchange hmove hraises
    obtain ⟨move, hother, rfl, rfl⟩ := hchange.exists_move hprofile
    rw [← hother.sum_gainsOf]
    exact hmax move ((hmoves move).mpr ⟨hother, (hother.allMoved_iff hprofile).mpr hmove⟩)
      ((hother.qualifies_iff criterion).mpr hraises)

/-- The search misses nothing: it returns nothing exactly when no group can
gain, members that stand still included, and otherwise the deviation that gains
most among those in which all members move; its loops end, and try every group
of at most so many players with every joint action once. -/
structure CoalitionComplete (game : Game) (hplay : game.Playable) (profile : List Nat)
    (maxSize : Nat) (criterion : Criterion) : Prop where
  none_iff : coalitionDeviation game profile maxSize criterion = .ok none ↔
    ¬∃ group after, JointChange game profile maxSize group after ∧
      Raises game profile criterion group after
  found : ∀ d, coalitionDeviation game profile maxSize criterion = .ok (some d) →
    d.members.Pairwise (· < ·) ∧
    JointChange game profile maxSize d.members.toFinset
      (moveProfile profile (d.members, d.actions)) ∧
    AllMove profile d.members.toFinset (moveProfile profile (d.members, d.actions)) ∧
    Raises game profile criterion d.members.toFinset
      (moveProfile profile (d.members, d.actions)) ∧
    d.gain = totalGain game profile d.members.toFinset
      (moveProfile profile (d.members, d.actions)) ∧
    ∀ group after, JointChange game profile maxSize group after → AllMove profile group after →
      Raises game profile criterion group after → totalGain game profile group after ≤ d.gain
  once : (coalitionMoves hplay maxSize).Nodup
  every : ∀ move, move ∈ coalitionMoves hplay maxSize ↔ IsMove game maxSize move

/-- The search is complete when every member has to gain; when members can pay
each other it is complete exactly when a group that gains with somebody standing
still comes with one that gains with everybody moving. -/
theorem coalitionComplete_iff {game : Game} {profile : List Nat}
    (hok : check game (some profile) = .ok ()) (maxSize : Nat) (criterion : Criterion)
    (hbudget : ∀ profiles, coalitionDeviation game profile maxSize criterion ≠
      .error (.tooLarge profiles)) :
    CoalitionComplete game (check_profile_iff.mp hok).1 profile maxSize criterion ↔
      (criterion = .transferable →
        (∃ group after, JointChange game profile maxSize group after ∧
          Raises game profile .transferable group after) →
        ∃ group after, JointChange game profile maxSize group after ∧
          AllMove profile group after ∧ Raises game profile .transferable group after) := by
  obtain ⟨hplay, hprofile⟩ := check_profile_iff.mp hok
  obtain ⟨result, hresult⟩ : ∃ result,
      coalitionDeviation game profile maxSize criterion = .ok result := by
    rw [coalitionDeviation_loop hok, foldlM_countMove] at hbudget ⊢
    split_ifs at hbudget ⊢
    · exact ⟨_, rfl⟩
    · exact absurd rfl (hbudget _)
  obtain ⟨hnone, hfound⟩ := coalitionDeviation_spec hok hresult
  have hanswer : coalitionDeviation game profile maxSize criterion = .ok none ↔
      ¬∃ group after, JointChange game profile maxSize group after ∧
        AllMove profile group after ∧ Raises game profile criterion group after := by
    rw [hresult, Except.ok.injEq, hnone]
  constructor
  · rintro h rfl hgains
    by_contra hnot
    exact h.none_iff.mp (hanswer.mpr hnot) hgains
  · intro h
    refine ⟨?_, ?_, coalitionMoves_nodup hplay maxSize, fun _ => mem_coalitionMoves hplay⟩
    · rw [hanswer, not_iff_not]
      constructor
      · rintro ⟨group, after, hchange, -, hraises⟩
        exact ⟨group, after, hchange, hraises⟩
      · rintro ⟨group, after, hchange, hraises⟩
        cases criterion with
        | everyMember =>
          obtain ⟨movers, hmovers⟩ := hchange.movers hprofile hraises
          exact ⟨movers, after, hmovers⟩
        | transferable => exact h rfl ⟨group, after, hchange, hraises⟩
    · intro d hd
      rw [hresult, Except.ok.injEq] at hd
      exact hfound d hd

/-! ## The sample -/

/-- The first player can pay one unit to hand the second one two; the second has
nothing to do. -/
def sampleHandout : Game where
  players := 2
  actions player := if player = 0 then 2 else 1
  payoff player profile :=
    if profile.getD 0 0 = 0 then 0 else if player = 0 then -1 else 2

theorem sampleHandout_check : check sampleHandout (some [0, 0]) = .ok () := by decide

theorem sampleHandout_profile : sampleHandout.Profile [0, 0] :=
  (check_profile_iff.mp sampleHandout_check).2

/-- Only the first player can move. -/
theorem sampleHandout_moves (h : IsMove sampleHandout 2 move) (hmoved : allMoved [0, 0] move = true) :
    move = ([0], [1]) := by
  obtain ⟨f, hf⟩ := h.exists_actions
  have hactions := h.actions
  have hascending := h.ascending
  have hmove := (h.allMoved_iff sampleHandout_profile).mp hmoved
  rw [hf, List.forall₂_map_right_iff, List.forall₂_same] at hactions
  have hmember : ∀ member ∈ move.1, member = 0 ∧ f member = 1 := by
    intro member hin
    have hlt : member < 2 := h.players member hin
    have hchanged := hmove member (List.mem_toFinset.mpr hin)
    have hget : (moveProfile [0, 0] move).getD member 0 = f member := by
      rw [hf, getD_moveProfile f hlt, if_pos hin]
    have haction : f member < if member = 0 then 2 else 1 := hactions member hin
    rw [hget] at hchanged
    match member, hlt with
    | 0, _ =>
      have hne : f 0 ≠ 0 := hchanged
      have hle : f 0 < 2 := haction
      exact ⟨rfl, by omega⟩
    | 1, _ =>
      have hne : f 1 ≠ 0 := hchanged
      have hle : f 1 < 1 := haction
      omega
  rw [hf]
  cases hms : move.1 with
  | nil => exact absurd hms h.nonempty
  | cons first rest =>
    have hfirst := hmember first (by simp [hms])
    cases hrest : rest with
    | nil =>
      obtain ⟨rfl, haction⟩ := hfirst
      simp [haction]
    | cons second others =>
      have hsecond := hmember second (by simp [hms, hrest])
      rw [hms, hrest, hfirst.1, hsecond.1] at hascending
      simp at hascending

theorem sampleHandout_answer (criterion : Criterion) : ∃ result,
    coalitionDeviation sampleHandout [0, 0] 2 criterion = .ok result := by
  let hplay := (check_profile_iff.mp sampleHandout_check).1
  have hfew : ((coalitionMoves hplay 2).filter (allMoved [0, 0])).length ≤ 1 := by
    have hnodup := (coalitionMoves_nodup hplay 2).filter (allMoved [0, 0])
    have hall : ∀ move ∈ (coalitionMoves hplay 2).filter (allMoved [0, 0]), move = ([0], [1]) := by
      intro move hmove
      rw [List.mem_filter, mem_coalitionMoves] at hmove
      exact sampleHandout_moves hmove.1 hmove.2
    rw [List.eq_replicate_of_mem hall] at hnodup
    exact List.nodup_replicate.mp hnodup
  rw [coalitionDeviation_loop sampleHandout_check, foldlM_countMove, if_pos]
  · exact ⟨_, rfl⟩
  · exact hfew.trans (by decide)

/-- The search finds no group, and both players together gain one unit. -/
theorem not_coalitionComplete_handout :
    ¬CoalitionComplete sampleHandout (check_profile_iff.mp sampleHandout_check).1 [0, 0] 2
      .transferable := by
  intro h
  obtain ⟨result, hresult⟩ := sampleHandout_answer .transferable
  obtain ⟨hnone, -⟩ := coalitionDeviation_spec sampleHandout_check hresult
  have hempty : result = none := by
    rw [hnone]
    rintro ⟨group, after, hchange, hmove, hraises⟩
    obtain ⟨move, hismove, rfl, rfl⟩ := hchange.exists_move sampleHandout_profile
    have hmoved := (hismove.allMoved_iff sampleHandout_profile).mpr hmove
    rw [sampleHandout_moves hismove hmoved] at hraises
    norm_num [Raises, moveProfile, writeActions, sampleHandout] at hraises
  rw [hempty] at hresult
  refine h.none_iff.mp hresult ⟨{0, 1}, [1, 0], ⟨by decide, by decide, ?_, ⟨rfl, ?_⟩, ?_⟩, ?_⟩
  · decide
  · decide
  · intro player hplayer
    simp only [Finset.mem_insert, Finset.mem_singleton, not_or] at hplayer
    match player with
    | 0 => exact absurd rfl hplayer.1
    | 1 => exact absurd rfl hplayer.2
    | _ + 2 => rfl
  · norm_num [Raises, sampleHandout]

/-- Where every member has to gain, the search is complete. -/
theorem coalitionComplete_iff_handout :
    CoalitionComplete sampleHandout (check_profile_iff.mp sampleHandout_check).1 [0, 0] 2
      .everyMember := by
  obtain ⟨result, hresult⟩ := sampleHandout_answer .everyMember
  refine (coalitionComplete_iff sampleHandout_check 2 .everyMember ?_).mpr ?_
  · intro profiles herror
    rw [hresult] at herror
    cases herror
  · intro h
    cases h

end Cairn.Ports.Incentive
