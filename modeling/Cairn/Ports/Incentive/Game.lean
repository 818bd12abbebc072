import Cairn.Verified.Odometer
import Mathlib.Data.List.GetD
import Mathlib.Data.Rat.Defs

/-!
# Finite games

The normal form of `src/incentive/game.rs`: players, actions, and exact payoffs,
which are rationals here. `carry` is the loop that every enumeration of profiles
and of joint choices steps with; on a row within its bounds it is the step of an
odometer.
-/

namespace Cairn.Ports.Incentive

open Cairn.Verified
open Cairn.Verified.Odometer

/-- `MAX_PROFILES`, the enumeration budget. -/
def MAX_PROFILES : Nat := 2 ^ 22

inductive GameError where
  | tooLarge (profiles : Nat)
  | malformedProfile
  | degenerate
deriving DecidableEq, Repr

/-- A finite game in normal form. -/
structure Game where
  players : Nat
  actions : Nat → Nat
  payoff : Nat → List Nat → ℚ

/-- A game somebody can play, and everybody has an action in. -/
structure Game.Playable (game : Game) : Prop where
  players_pos : 0 < game.players
  actions_pos : ∀ player < game.players, 0 < game.actions player

/-- An action for every player. -/
structure Game.Profile (game : Game) (profile : List Nat) : Prop where
  length_eq : profile.length = game.players
  lt : ∀ player < game.players, profile.getD player 0 < game.actions player

/-- `check` of a game, and of a profile if there is one. -/
def check (game : Game) (profile : Option (List Nat)) : Except GameError Unit :=
  if game.players = 0 then .error .degenerate
  else if (List.range game.players).any fun player => game.actions player == 0 then
    .error .degenerate
  else
    match profile with
    | none => .ok ()
    | some profile =>
      if profile.length ≠ game.players then .error .malformedProfile
      else if (List.range game.players).any fun player =>
        profile.getD player 0 ≥ game.actions player then .error .malformedProfile
      else .ok ()

theorem check_none_iff {game : Game} : check game none = .ok () ↔ game.Playable := by
  unfold check
  constructor
  · intro h
    split_ifs at h with hplayers hactions
    constructor
    · exact Nat.pos_of_ne_zero hplayers
    · intro player hplayer
      have hall : ∀ p < game.players, game.actions p ≠ 0 := by simpa using hactions
      exact Nat.pos_of_ne_zero (hall player hplayer)
  · intro h
    have hactions : ¬(List.range game.players).any (fun player => game.actions player == 0) := by
      simpa using fun p hp => (h.actions_pos p hp).ne'
    rw [if_neg h.players_pos.ne', if_neg hactions]

/-- A profile is accepted when every player has an action in it. -/
theorem check_profile_iff {game : Game} {profile : List Nat} :
    check game (some profile) = .ok () ↔ game.Playable ∧ game.Profile profile := by
  rw [← check_none_iff]
  unfold check
  by_cases hplayers : game.players = 0
  · simp [hplayers]
  by_cases hactions : (List.range game.players).any fun player => game.actions player == 0
  · simp only [if_neg hplayers, if_pos hactions, reduceCtorEq, false_and]
  simp only [if_neg hplayers, if_neg hactions, true_and]
  by_cases hlength : profile.length = game.players
  · rw [if_neg (not_not.mpr hlength)]
    by_cases hrange : (List.range game.players).any fun player =>
        profile.getD player 0 ≥ game.actions player
    · obtain ⟨player, hplayer, hout⟩ : ∃ p < game.players,
        game.actions p ≤ profile.getD p 0 := by simpa using hrange
      rw [if_pos hrange]
      exact iff_of_false (by simp) fun h => absurd (h.lt player hplayer) hout.not_gt
    · have hall : ∀ p < game.players, profile.getD p 0 < game.actions p := by simpa using hrange
      rw [if_neg hrange]
      exact iff_of_true rfl ⟨hlength, hall⟩
  · rw [if_pos hlength]
    exact iff_of_false (by simp) fun h => hlength h.length_eq

/-! ## The step of the enumerations -/

/-- The slots below `slot` from the last one: the first that has room moves, and
those after it are back at zero; one may be left out. -/
def carry (limit : Nat → Nat) (skip : Option Nat) : Nat → List Nat → Option (List Nat)
  | 0, _ => none
  | slot + 1, row =>
    if skip = some slot then carry limit skip slot row
    else
      let row := row.set slot (row.getD slot 0 + 1)
      if row.getD slot 0 < limit slot then some row
      else carry limit skip slot (row.set slot 0)

/-- `advance_from`; `none` where the source returns false. -/
def advanceFrom (game : Game) (skip : Option Nat) (profile : List Nat) : Option (List Nat) :=
  carry game.actions skip profile.length profile

/-- `advance` through the profile space. -/
def advance (game : Game) (profile : List Nat) : Option (List Nat) :=
  advanceFrom game none profile

/-- `advance_others`: everyone except `skip`. -/
def advanceOthers (game : Game) (skip : Nat) (profile : List Nat) : Option (List Nat) :=
  advanceFrom game (some skip) profile

/-- `advance_choices` of the members of a coalition. -/
def advanceChoices (game : Game) (members choices : List Nat) : Option (List Nat) :=
  carry (fun slot => game.actions (members.getD slot 0)) none choices.length choices

/-- The bounds of a slot of a row; one that is left out keeps its value. -/
def slotBound (limit : Nat → Nat) (skip : Option Nat) (row : List Nat) (slot : Nat) : Nat × Nat :=
  if skip = some slot then (row.getD slot 0, row.getD slot 0 + 1) else (0, limit slot)

def slotBounds (limit : Nat → Nat) (skip : Option Nat) (row : List Nat) (slots : Nat) :
    List (Nat × Nat) := (List.range slots).map (slotBound limit skip row)

variable {row : List Nat} {slot : Nat}

theorem take_succ_getD (h : slot < row.length) :
    row.take (slot + 1) = row.take slot ++ [row.getD slot 0] := by
  rw [List.take_add_one, List.getD_eq_getElem _ _ h, List.getElem?_eq_getElem h]
  rfl

theorem drop_getD (h : slot < row.length) :
    row.drop slot = row.getD slot 0 :: row.drop (slot + 1) := by
  rw [List.getD_eq_getElem _ _ h]
  exact List.drop_eq_getElem_cons h

theorem getD_set_self (h : slot < row.length) (v : Nat) :
    (row.set slot v).getD slot 0 = v := by
  rw [List.getD_eq_getElem _ _ (by simpa using h), List.getElem_set_self]

theorem getD_set_ne (row : List Nat) {slot other : Nat} (h : slot ≠ other) (v : Nat) :
    (row.set slot v).getD other 0 = row.getD other 0 := by
  rw [List.getD_eq_getElem?_getD, List.getElem?_set_ne h, ← List.getD_eq_getElem?_getD]

/-- The loop below a slot is the odometer's step on the slots below it. -/
theorem carry_eq_tick (limit : Nat → Nat) (skip : Option Nat) {slots : Nat}
    (h : slots ≤ row.length) :
    carry limit skip slots row =
      (tick (slotBounds limit skip row slots) (row.take slots)).map (· ++ row.drop slots) := by
  induction slots generalizing row with
  | zero => rfl
  | succ slot ih =>
    have hslot : slot < row.length := h
    have hbounds : slotBounds limit skip row (slot + 1) =
        slotBounds limit skip row slot ++ [slotBound limit skip row slot] := by
      simp [slotBounds, List.range_succ]
    have hlength : (slotBounds limit skip row slot).length = (row.take slot).length := by
      simp [slotBounds, hslot.le]
    rw [hbounds, take_succ_getD hslot, tick_concat _ _ hlength, carry]
    by_cases hskip : skip = some slot
    · -- the slot that is left out has no room
      rw [if_pos hskip, slotBound, if_pos hskip, if_neg (Nat.lt_irrefl _), ih hslot.le,
        Option.map_map, drop_getD hslot]
      simp [Function.comp_def]
    · rw [if_neg hskip, slotBound, if_neg hskip]
      dsimp only
      rw [getD_set_self hslot]
      split_ifs with hroom
      · have hset : row.set slot (row.getD slot 0 + 1) =
            row.take slot ++ [row.getD slot 0 + 1] ++ row.drop (slot + 1) := by
          rw [List.set_eq_take_append_cons_drop, if_pos hslot, List.append_assoc]
          rfl
        rw [hset]
        rfl
      · have hset : (row.set slot (row.getD slot 0 + 1)).set slot 0 = row.set slot 0 :=
          List.set_set ..
        have hsame : slotBounds limit skip (row.set slot 0) slot =
            slotBounds limit skip row slot := by
          apply List.map_congr_left
          intro other hother
          have hne : slot ≠ other := (List.mem_range.mp hother).ne'
          unfold slotBound
          rw [getD_set_ne row hne]
        have htake : (row.set slot 0).take slot = row.take slot := by
          rw [List.take_set_of_le (le_refl slot)]
        have hdrop : (row.set slot 0).drop slot = 0 :: row.drop (slot + 1) := by
          rw [drop_getD (by simpa using hslot), getD_set_self hslot,
            List.drop_set_of_lt (Nat.lt_succ_self slot)]
        rw [hset, ih (by simpa using hslot.le), hsame, htake, hdrop, Option.map_map]
        simp [Function.comp_def]

/-- On a whole row the loop is the odometer's step. -/
theorem carry_length (limit : Nat → Nat) (skip : Option Nat) (row : List Nat) :
    carry limit skip row.length row = tick (slotBounds limit skip row row.length) row := by
  rw [carry_eq_tick limit skip (le_refl _), List.take_length, List.drop_length]
  simp

end Cairn.Ports.Incentive
