import Mathlib.Data.List.Forall2
import Mathlib.Data.List.Lex
import Mathlib.Data.Finite.Prod
import Mathlib.Data.Set.Finite.Basic
import Mathlib.Order.Preorder.Finite
import Cairn.Verified.Sweep

/-!
# Odometers

A row of digits, each with a least value and a bound. A step raises the last
digit that has room and puts every later one back to its least value. In the
order that compares digits from the left this is the next larger row, so a walk
from the least row meets each one once.
-/

namespace Cairn.Verified.Odometer

theorem cons_le_cons {a b : Nat} {l m : List Nat} :
    a :: l ≤ b :: m ↔ a < b ∨ a = b ∧ l ≤ m := by
  rw [← not_lt, List.cons_lt_cons_iff, not_or, not_and]
  constructor
  · rintro ⟨hle, hrest⟩
    rcases (not_lt.mp hle).eq_or_lt with rfl | hlt
    · exact .inr ⟨rfl, not_lt.mp (hrest rfl)⟩
    · exact .inl hlt
  · rintro (hlt | ⟨rfl, hle⟩)
    · exact ⟨hlt.not_gt, fun heq => absurd heq hlt.ne'⟩
    · exact ⟨lt_irrefl a, fun _ => hle.not_gt⟩

/-- Every digit from its least value up to its bound. -/
def Within (bounds : List (Nat × Nat)) (digits : List Nat) : Prop :=
  List.Forall₂ (fun bound digit => bound.1 ≤ digit ∧ digit < bound.2) bounds digits

/-- The next row, if there is one. -/
def tick : List (Nat × Nat) → List Nat → Option (List Nat)
  | bound :: bounds, digit :: digits =>
    match tick bounds digits with
    | some next => some (digit :: next)
    | none =>
      if digit + 1 < bound.2 then some ((digit + 1) :: bounds.map Prod.fst) else none
  | _, _ => none

variable {bounds : List (Nat × Nat)} {digits : List Nat}

theorem Within.length_eq (h : Within bounds digits) :
    bounds.length = digits.length := List.Forall₂.length_eq h

/-- The least row is not after any other. -/
theorem Within.lows_le (h : Within bounds digits) : bounds.map Prod.fst ≤ digits := by
  induction h with
  | nil => exact le_refl _
  | @cons bound digit bounds digits hdigit _ ih =>
    rw [List.map_cons]
    rcases hdigit.1.eq_or_lt with heq | hlt
    · rw [heq]
      exact cons_le_cons.mpr (.inr ⟨rfl, ih⟩)
    · exact cons_le_cons.mpr (.inl hlt)

theorem Within.lows (h : Within bounds digits) : Within bounds (bounds.map Prod.fst) := by
  induction h with
  | nil => exact .nil
  | cons hdigit _ ih => exact .cons ⟨le_refl _, hdigit.1.trans_lt hdigit.2⟩ ih

theorem tick_none {other : List Nat} (h : Within bounds digits) (hother : Within bounds other)
    (hlast : tick bounds digits = none) : other ≤ digits := by
  induction h generalizing other with
  | nil =>
    cases hother
    exact le_refl _
  | @cons bound digit bounds digits hdigit hrest ih =>
    cases hother with
    | @cons _ digit' _ digits' hdigit' hrest' =>
      unfold tick at hlast
      cases htick : tick bounds digits with
      | some next =>
        rw [htick] at hlast
        cases hlast
      | none =>
        rw [htick] at hlast
        dsimp only at hlast
        split at hlast
        · cases hlast
        · rename_i hfull
          rcases (show digit' ≤ digit by omega).eq_or_lt with heq | hlt
          · rw [heq]
            exact cons_le_cons.mpr (.inr ⟨rfl, ih hrest' htick⟩)
          · exact cons_le_cons.mpr (.inl hlt)

theorem tick_some {next : List Nat} (h : Within bounds digits)
    (hnext : tick bounds digits = some next) :
    Within bounds next ∧ digits < next ∧
      ∀ other, Within bounds other → digits < other → next ≤ other := by
  induction h generalizing next with
  | nil => cases hnext
  | @cons bound digit bounds digits hdigit hrest ih =>
    unfold tick at hnext
    cases htick : tick bounds digits with
    | some later =>
      -- the move is further right
      rw [htick] at hnext
      cases hnext
      obtain ⟨hwithin, hlt, hleast⟩ := ih htick
      refine ⟨.cons hdigit hwithin, List.cons_lt_cons_iff.mpr (.inr ⟨rfl, hlt⟩), ?_⟩
      intro other hother hafter
      cases hother with
      | @cons _ digit' _ digits' hdigit' hrest' =>
        rcases List.cons_lt_cons_iff.mp hafter with hless | ⟨rfl, hless⟩
        · exact cons_le_cons.mpr (.inl hless)
        · exact cons_le_cons.mpr (.inr ⟨rfl, hleast _ hrest' hless⟩)
    | none =>
      -- everything to the right is full
      rw [htick] at hnext
      dsimp only at hnext
      split at hnext
      · rename_i hroom
        cases hnext
        refine ⟨.cons ⟨by omega, hroom⟩ (Within.lows hrest),
          List.cons_lt_cons_iff.mpr (.inl (Nat.lt_succ_self digit)), ?_⟩
        intro other hother hafter
        cases hother with
        | @cons _ digit' _ digits' hdigit' hrest' =>
          rcases List.cons_lt_cons_iff.mp hafter with hless | ⟨rfl, hless⟩
          · rcases (Nat.succ_le_of_lt hless).eq_or_lt with heq | hlt
            · rw [← heq]
              exact cons_le_cons.mpr (.inr ⟨rfl, Within.lows_le hrest'⟩)
            · exact cons_le_cons.mpr (.inl hlt)
          · exact absurd hless (not_lt.mpr (tick_none hrest hrest' htick))
      · cases hnext

/-- A step seen from its last digit: it moves there, or puts it back and moves
before it. -/
theorem tick_concat (bound : Nat × Nat) (digit : Nat) (h : bounds.length = digits.length) :
    tick (bounds ++ [bound]) (digits ++ [digit]) =
      if digit + 1 < bound.2 then some (digits ++ [digit + 1])
      else (tick bounds digits).map (· ++ [bound.1]) := by
  induction bounds generalizing digits with
  | nil =>
    rw [List.eq_nil_of_length_eq_zero h.symm]
    rfl
  | cons b bounds ih =>
    cases digits with
    | nil => cases h
    | cons d digits =>
      simp only [List.cons_append, tick, ih (Nat.succ.inj h)]
      by_cases hroom : digit + 1 < bound.2
      · rw [if_pos hroom, if_pos hroom]
      · rw [if_neg hroom, if_neg hroom]
        cases tick bounds digits with
        | some next => rfl
        | none =>
          by_cases hfirst : d + 1 < b.2
          · simp [hfirst]
          · simp [hfirst]

/-- A row within its bounds. -/
structure Reading (bounds : List (Nat × Nat)) where
  digits : List Nat
  within : Within bounds digits

namespace Reading

variable {bounds : List (Nat × Nat)}

variable {r s : Reading bounds}

theorem ext (h : r.digits = s.digits) : r = s := by
  cases r
  cases s
  cases h
  rfl

/-- Digits are compared from the left. -/
instance : LinearOrder (Reading bounds) := LinearOrder.lift' Reading.digits fun _ _ => ext

theorem lt_def : r < s ↔ r.digits < s.digits := Iff.rfl

theorem le_def : r ≤ s ↔ r.digits ≤ s.digits := Iff.rfl

theorem finite_within (bounds : List (Nat × Nat)) : {digits | Within bounds digits}.Finite := by
  induction bounds with
  | nil =>
    apply (Set.finite_singleton ([] : List Nat)).subset
    intro digits h
    cases h
    rfl
  | cons bound bounds ih =>
    apply ((Set.finite_lt_nat bound.2).image2 List.cons ih).subset
    intro digits h
    cases h with
    | cons hdigit hrest => exact ⟨_, hdigit.2, _, hrest, rfl⟩

instance : Finite (Reading bounds) := by
  have := (finite_within bounds).to_subtype
  exact Finite.of_injective
    (fun r : Reading bounds => (⟨r.digits, r.within⟩ : {digits | Within bounds digits}))
    fun r s h => ext (Subtype.mk.inj h)

/-- The next reading. -/
def tick (r : Reading bounds) : Option (Reading bounds) :=
  match h : Odometer.tick bounds r.digits with
  | none => none
  | some next => some ⟨next, (tick_some r.within h).1⟩

theorem digits_tick (r : Reading bounds) :
    r.tick.map Reading.digits = Odometer.tick bounds r.digits := by
  unfold tick
  split
  · exact Eq.symm ‹_›
  · exact Eq.symm ‹_›

theorem tick_eq_some : r.tick = some s ↔ Odometer.tick bounds r.digits = some s.digits := by
  rw [← digits_tick]
  constructor
  · intro h
    rw [h]
    rfl
  · intro h
    obtain ⟨s', hs, hdigits⟩ := Option.map_eq_some_iff.mp h
    rw [hs, ext hdigits]

theorem tick_eq_none : r.tick = none ↔ Odometer.tick bounds r.digits = none := by
  rw [← digits_tick, Option.map_eq_none_iff]

/-- No reading is skipped, and none comes after the last one. -/
theorem tick_successor : Sweep.Successor (@tick bounds) where
  lt {r _} h := (tick_some r.within (tick_eq_some.mp h)).2.1
  least {r _ t} h hlt := (tick_some r.within (tick_eq_some.mp h)).2.2 t.digits t.within hlt
  last {r t} h := tick_none r.within t.within (tick_eq_none.mp h)

/-- The least reading. -/
def first (h : ∀ bound ∈ bounds, bound.1 < bound.2) : Reading bounds where
  digits := bounds.map Prod.fst
  within := by
    unfold Within
    rw [List.forall₂_map_right_iff, List.forall₂_same]
    exact fun bound hbound => ⟨le_refl _, h bound hbound⟩

theorem first_le (h : ∀ bound ∈ bounds, bound.1 < bound.2) (r : Reading bounds) : first h ≤ r :=
  r.within.lows_le

end Reading

end Cairn.Verified.Odometer
