import Mathlib.Order.WellFounded
import Mathlib.Order.RelClasses

/-!
# Trying every element in order

A search that tries an element and then steps to the next larger one, until a
try succeeds or there is no next one. Where no element has infinitely many above
it, the search ends, tries nothing twice, and finds what the least element gives
that gives anything.
-/

namespace Cairn.Verified.Sweep

variable {α β : Type*} [LinearOrder α]

/-- A step to the next larger element, if there is one. -/
structure Successor (next : α → Option α) : Prop where
  lt : ∀ {a b}, next a = some b → a < b
  least : ∀ {a b c}, next a = some b → a < c → b ≤ c
  last : ∀ {a c}, next a = none → c ≤ a

variable {next : α → Option α}

/-- The elements tried, in order, and the first success. -/
def sweep [WellFoundedGT α] (hnext : Successor next) (attempt : α → Option β) (a : α) :
    List α × Option β :=
  match attempt a with
  | some found => ([a], some found)
  | none =>
    match _ : next a with
    | none => ([a], none)
    | some b =>
      let rest := sweep hnext attempt b
      (a :: rest.1, rest.2)
termination_by wellFounded_gt.wrap a
decreasing_by exact hnext.lt ‹_›

variable [WellFoundedGT α] {hnext : Successor next} {attempt : α → Option β}

theorem sweep_found {a : α} {found : β} (h : attempt a = some found) :
    sweep hnext attempt a = ([a], some found) := by
  rw [sweep, h]

theorem sweep_last {a : α} (h : attempt a = none) (hlast : next a = none) :
    sweep hnext attempt a = ([a], none) := by
  rw [sweep, h]
  dsimp only
  split
  · rfl
  · simp_all

theorem sweep_step {a b : α} (h : attempt a = none) (hb : next a = some b) :
    sweep hnext attempt a =
      (a :: (sweep hnext attempt b).1, (sweep hnext attempt b).2) := by
  rw [sweep, h]
  dsimp only
  split
  · simp_all
  · simp_all

/-- An induction along the search: the element found, the last one, or a step. -/
theorem sweep_induction (hnext : Successor next) (attempt : α → Option β) {motive : α → Prop}
    (found : ∀ a v, attempt a = some v → motive a)
    (last : ∀ a, attempt a = none → next a = none → motive a)
    (step : ∀ a b, attempt a = none → next a = some b → motive b → motive a)
    (a : α) : motive a := by
  induction a using WellFoundedGT.induction with
  | ind a ih =>
    cases hattempt : attempt a with
    | some v => exact found a v hattempt
    | none =>
      cases hb : next a with
      | none => exact last a hattempt hb
      | some b => exact step a b hattempt hb (ih b (hnext.lt hb))

/-- What is tried: every element from the start on before which all fail. -/
theorem mem_sweep {a c : α} : c ∈ (sweep hnext attempt a).1 ↔
    a ≤ c ∧ ∀ d, a ≤ d → d < c → attempt d = none := by
  induction a using sweep_induction hnext attempt with
  | found a v hv =>
    rw [sweep_found hv, List.mem_singleton]
    constructor
    · rintro rfl
      exact ⟨le_refl c, fun d hd hlt => absurd hd hlt.not_ge⟩
    · rintro ⟨hle, hall⟩
      by_contra hne
      have hnone := hall a (le_refl a) (lt_of_le_of_ne hle (Ne.symm hne))
      rw [hv] at hnone
      cases hnone
  | last a hattempt hlast =>
    rw [sweep_last hattempt hlast, List.mem_singleton]
    constructor
    · rintro rfl
      exact ⟨le_refl c, fun d hd hlt => absurd hd hlt.not_ge⟩
    · rintro ⟨hle, -⟩
      exact le_antisymm (hnext.last hlast) hle
  | step a b hattempt hb ih =>
    rw [sweep_step hattempt hb, List.mem_cons, ih]
    have hlt := hnext.lt hb
    constructor
    · rintro (rfl | ⟨hle, hall⟩)
      · exact ⟨le_refl c, fun d hd hlt => absurd hd hlt.not_ge⟩
      · refine ⟨hlt.le.trans hle, fun d hd hdc => ?_⟩
        rcases hd.eq_or_lt with rfl | hd
        · exact hattempt
        · exact hall d (hnext.least hb hd) hdc
    · rintro ⟨hle, hall⟩
      rcases hle.eq_or_lt with rfl | hle
      · exact .inl rfl
      · exact .inr ⟨hnext.least hb hle, fun d hd hdc => hall d (hlt.le.trans hd) hdc⟩

/-- Nothing is tried twice, and smaller elements are tried first. -/
theorem pairwise_sweep (a : α) : (sweep hnext attempt a).1.Pairwise (· < ·) := by
  induction a using sweep_induction hnext attempt with
  | found a v hv =>
    rw [sweep_found hv]
    exact List.pairwise_singleton _ _
  | last a hattempt hlast =>
    rw [sweep_last hattempt hlast]
    exact List.pairwise_singleton _ _
  | step a b hattempt hb ih =>
    rw [sweep_step hattempt hb]
    exact List.pairwise_cons.mpr
      ⟨fun c hc => (hnext.lt hb).trans_le (mem_sweep.mp hc).1, ih⟩

/-- What is found: what the least element gives that gives anything. -/
theorem sweep_eq_some {a : α} {v : β} : (sweep hnext attempt a).2 = some v ↔
    ∃ c, a ≤ c ∧ attempt c = some v ∧ ∀ d, a ≤ d → d < c → attempt d = none := by
  induction a using sweep_induction hnext attempt with
  | found a w hw =>
    rw [sweep_found hw]
    constructor
    · rintro ⟨⟩
      exact ⟨a, le_refl a, hw, fun d hd hlt => absurd hd hlt.not_ge⟩
    · rintro ⟨c, hle, hc, hall⟩
      rcases hle.eq_or_lt with rfl | hlt
      · exact hw.symm.trans hc
      · rw [hall a (le_refl a) hlt] at hw
        cases hw
  | last a hattempt hlast =>
    rw [sweep_last hattempt hlast]
    constructor
    · intro h
      cases h
    · rintro ⟨c, hle, hc, -⟩
      rw [le_antisymm (hnext.last hlast) hle, hattempt] at hc
      cases hc
  | step a b hattempt hb ih =>
    rw [sweep_step hattempt hb, ih]
    have hlt := hnext.lt hb
    constructor
    · rintro ⟨c, hle, hc, hall⟩
      refine ⟨c, hlt.le.trans hle, hc, fun d hd hdc => ?_⟩
      rcases hd.eq_or_lt with rfl | hd
      · exact hattempt
      · exact hall d (hnext.least hb hd) hdc
    · rintro ⟨c, hle, hc, hall⟩
      rcases hle.eq_or_lt with rfl | hle
      · rw [hattempt] at hc
        cases hc
      · exact ⟨c, hnext.least hb hle, hc, fun d hd hdc => hall d (hlt.le.trans hd) hdc⟩

theorem sweep_eq_none {a : α} : (sweep hnext attempt a).2 = none ↔
    ∀ c, a ≤ c → attempt c = none := by
  induction a using sweep_induction hnext attempt with
  | found a v hv =>
    rw [sweep_found hv]
    constructor
    · intro h
      cases h
    · intro h
      rw [h a (le_refl a)] at hv
      cases hv
  | last a hattempt hlast =>
    rw [sweep_last hattempt hlast]
    exact iff_of_true rfl fun c hle => le_antisymm (hnext.last hlast) hle ▸ hattempt
  | step a b hattempt hb ih =>
    rw [sweep_step hattempt hb, ih]
    constructor
    · intro h c hle
      rcases hle.eq_or_lt with rfl | hle
      · exact hattempt
      · exact h c (hnext.least hb hle)
    · exact fun h c hle => h c ((hnext.lt hb).le.trans hle)

/-- Every element from the start on. -/
def visits (hnext : Successor next) (a : α) : List α :=
  (sweep hnext (fun _ => (none : Option Unit)) a).1

theorem mem_visits {a c : α} :
    c ∈ visits hnext a ↔ a ≤ c := by
  unfold visits
  rw [mem_sweep]
  exact and_iff_left fun _ _ _ => rfl

theorem nodup_visits (a : α) :
    (visits hnext a).Nodup :=
  (pairwise_sweep a).imp fun h => h.ne

end Cairn.Verified.Sweep
