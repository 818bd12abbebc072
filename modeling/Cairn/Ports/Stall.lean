import Cairn.Ports.Frontier

/-!
# Why a move does not pay

`Ratchet::stall` explains a refusal, `is_exhausted` and `is_fundable` say
whether any score could still be paid. Each computes the geometry of the
ratchet on its own: clamped progress, raw distance, remaining span. The target
is the score that gains the most, so they agree.
-/

namespace Cairn.Ports

namespace Ratchet

/-- Could this ratchet pay anybody from an empty frontier? -/
def isFundable (r : Ratchet) : Bool := r.minImprovement.toNat ≤ r.span

/-! ## The target gains the most -/

variable {r : Ratchet} {score : Int64}

theorem progress_target (h : r.validate = .ok ()) : r.progress r.target = r.span := by
  rw [progress_eq_span_iff h]
  unfold AtTarget
  cases r.direction with
  | maximize => exact Int64.le_refl _
  | minimize => exact Int64.le_refl _

/-- If any score improves on a frontier then the target does. -/
theorem exists_improves_iff (h : r.validate = .ok ()) (old : Option Int64) :
    (∃ new, r.improves old new = true) ↔ r.progressOf old + r.minImprovement.toNat ≤ r.span := by
  constructor
  · rintro ⟨new, himproves⟩
    exact (improves_iff.mp himproves).trans (r.progress_le_span new)
  · intro hroom
    exact ⟨r.target, improves_iff.mpr (by rw [progress_target h]; exact hroom)⟩

theorem not_improves_iff (h : r.validate = .ok ()) (old : Option Int64) :
    (∀ new, r.improves old new = false) ↔ r.span < r.progressOf old + r.minImprovement.toNat := by
  rw [← Nat.not_le, ← exists_improves_iff h, not_exists]
  simp only [Bool.not_eq_true]

/-! ## The frontier of a path -/

/-- The last score of a path of improvements has progress. -/
theorem progress_pos_of_moves (h : r.validate = .ok ()) {scores : List Int64}
    (hmoves : r.Moves none scores) (hlast : scores.getLast? = some score) :
    0 < r.progress score := by
  have hmin := minImprovement_pos_of_validate h
  have hlength := length_mul_le scores none hmoves
  rw [Option.or_none, hlast] at hlength
  have hone : 1 ≤ scores.length := by
    cases scores with
    | nil => cases hlast
    | cons s rest => exact Nat.succ_le_succ (Nat.zero_le _)
  have hscore : r.progressOf (some score) = r.progress score := rfl
  calc 0 < 1 * r.minImprovement.toNat := by omega
    _ ≤ scores.length * r.minImprovement.toNat := Nat.mul_le_mul_right _ hone
    _ ≤ r.progress score := by omega

theorem raw_le_progress_of_pos (hpos : 0 < r.progress score)
    (hbelow : r.progress score < r.span) : r.raw score = r.progress score := by
  unfold progress at hpos hbelow ⊢
  split_ifs at hpos hbelow ⊢ <;> omega

/-- Past the span the clamp is at the target. -/
theorem progress_eq_span_of_lt
    (h : (r.progress score : Int) < r.raw score) : r.progress score = r.span := by
  unfold progress at h ⊢
  split_ifs at h ⊢ <;> omega

/-- The distance `stall` compares with what was gained. -/
theorem moved_eq (r : Ratchet) (old new : Int64) :
    (match r.direction with
      | .maximize => new.toInt - old.toInt
      | .minimize => old.toInt - new.toInt) = r.raw new - r.raw old := by
  unfold raw
  cases r.direction with
  | maximize =>
    dsimp only
    omega
  | minimize =>
    dsimp only
    omega

/-! ## The explanations -/

/-- What each answer of `stall` says about the frontier and the score. -/
inductive Explains (r : Ratchet) (old : Option Int64) (new : Int64) : Option Stall → Prop
  | pays (h : r.improves old new = true) : Explains r old new none
  | targetReached (h : r.improves old new = false) (hspan : r.span ≤ r.progressOf old) :
      Explains r old new (some (.targetReached r.target))
  | regressed (h : r.improves old new = false) (hbelow : r.progressOf old < r.span)
      (hback : r.progress new ≤ r.progressOf old) :
      Explains r old new (some (.regressed old new))
  | clamped (h : r.improves old new = false) (hbelow : r.progressOf old < r.span)
      (score : Int64) (hold : old = some score)
      (hgained : r.progress score < r.progress new)
      (hmoved : (r.progress new : Int) - r.progress score < r.raw new - r.raw score) :
      Explains r old new (some (.clampedByTarget (r.progress new - r.progressOf old)
        r.minImprovement.toNat r.target))
  | below (h : r.improves old new = false) (hbelow : r.progressOf old < r.span)
      (hgained : r.progressOf old < r.progress new) :
      Explains r old new (some (.belowMinImprovement (r.progress new - r.progressOf old)
        r.minImprovement.toNat))

theorem explains_stall (r : Ratchet) (old : Option Int64) (new : Int64) :
    r.Explains old new (r.stall old new) := by
  unfold stall
  by_cases himproves : r.improves old new = true
  · rw [if_pos himproves]
    exact .pays himproves
  have hno := Bool.not_eq_true _ ▸ himproves
  rw [if_neg himproves]
  dsimp only
  by_cases hspan : r.progressOf old ≥ r.span
  · rw [if_pos hspan]
    exact .targetReached hno hspan
  rw [if_neg hspan]
  by_cases hback : r.progress new ≤ r.progressOf old
  · rw [if_pos hback]
    exact .regressed hno (Nat.not_le.mp hspan) hback
  rw [if_neg hback]
  cases old with
  | none =>
    have hzero : r.progressOf none = 0 := rfl
    dsimp only
    rw [if_neg (by rw [hzero]; omega)]
    exact .below hno (Nat.not_le.mp hspan) (Nat.not_le.mp hback)
  | some score =>
    have hscore : r.progressOf (some score) = r.progress score := rfl
    have hcompare : ∀ moved : Int, moved = r.raw new - r.raw score →
        r.Explains (some score) new
          (if moved > ((r.progress new - r.progressOf (some score) : Nat) : Int) then
            some (.clampedByTarget (r.progress new - r.progressOf (some score))
              r.minImprovement.toNat r.target)
          else
            some (.belowMinImprovement (r.progress new - r.progressOf (some score))
              r.minImprovement.toNat)) := by
      rintro moved rfl
      split_ifs with hmoved
      · exact .clamped hno (Nat.not_le.mp hspan) score rfl (Nat.not_le.mp hback) (by omega)
      · exact .below hno (Nat.not_le.mp hspan) (Nat.not_le.mp hback)
    exact hcompare _ (moved_eq r score new)

/-- A refusal by the clamp on a frontier that was reached: no score would do. -/
theorem not_improves_of_clamped (h : r.validate = .ok ()) {score new : Int64}
    (hpos : 0 < r.progress score) (hbelow : r.progress score < r.span)
    (hno : r.improves (some score) new = false)
    (hmoved : (r.progress new : Int) - r.progress score < r.raw new - r.raw score) :
    ∀ s, r.improves (some score) s = false := by
  have hraw := raw_le_progress_of_pos hpos hbelow
  have hspan : r.progress new = r.span := progress_eq_span_of_lt (by omega)
  have hshort : ¬(r.progressOf (some score) + r.minImprovement.toNat ≤ r.progress new) := by
    rw [← improves_iff, hno]
    exact Bool.false_ne_true
  rw [not_improves_iff h]
  omega

/-- Refusals tell the truth: on every frontier that a path of improvements
reached, or on the empty one. -/
theorem stall_truthful (r : Ratchet) (h : r.validate = .ok ()) (scores : List Int64)
    (hmoves : r.Moves none scores) :
    (∀ new, r.stall scores.getLast? new = none ↔ r.improves scores.getLast? new = true) ∧
    (∀ new gained minImprovement target,
      r.stall scores.getLast? new = some (.clampedByTarget gained minImprovement target) ∨
        r.stall scores.getLast? new = some (.targetReached target) →
      ∀ score, r.improves scores.getLast? score = false) ∧
    (∀ new previous score, r.stall scores.getLast? new = some (.regressed previous score) →
      previous = scores.getLast? ∧ score = new ∧
        r.progress new ≤ r.progressOf scores.getLast? ∧
        ∀ last, scores.getLast? = some last → ¬r.AtTarget last) ∧
    (∀ score, r.isExhausted score = true ↔ ∀ new, r.improves (some score) new = false) ∧
    (r.isFundable = true ↔ ∃ new, r.improves none new = true) := by
  refine ⟨fun new => ?_, ?_, ?_, fun score => ?_, ?_⟩
  · have hexplains := r.explains_stall scores.getLast? new
    generalize r.stall scores.getLast? new = answer at hexplains
    cases hexplains with
    | pays himproves => simp [himproves]
    | targetReached hno => simp [hno]
    | regressed hno => simp [hno]
    | clamped hno => simp [hno]
    | below hno => simp [hno]
  · intro new gained minImprovement target hanswer
    have hmin := minImprovement_pos_of_validate h
    have hexplains := r.explains_stall scores.getLast? new
    generalize r.stall scores.getLast? new = answer at hexplains hanswer
    cases hexplains with
    | targetReached hno hspan =>
      rw [not_improves_iff h]
      omega
    | clamped hno hbelow last hlast hgained hmoved =>
      rw [hlast] at hno hbelow ⊢
      exact not_improves_of_clamped h (progress_pos_of_moves h hmoves hlast) hbelow hno hmoved
    | pays | regressed | below => simp at hanswer
  · intro new previous score hanswer
    have hexplains := r.explains_stall scores.getLast? new
    generalize r.stall scores.getLast? new = answer at hexplains hanswer
    cases hexplains with
    | regressed hno hbelow hback =>
      cases hanswer
      refine ⟨rfl, rfl, hback, fun last hlast => ?_⟩
      rw [hlast] at hbelow
      rw [← progress_eq_span_iff h]
      exact Nat.ne_of_lt hbelow
    | pays | targetReached | clamped | below => simp at hanswer
  · have hscore : r.progressOf (some score) = r.progress score := rfl
    have hle := r.progress_le_span score
    rw [not_improves_iff h, isExhausted, decide_eq_true_eq]
    omega
  · have hzero : r.progressOf none = 0 := rfl
    rw [exists_improves_iff h, isFundable, decide_eq_true_eq]
    omega

/-- Three short of the target where seven would be needed: an overshoot is refused
as clamped, and so is everything else. -/
theorem stall_truthful_sample :
    Ratchet.improves ⟨1000, -100, 1000, .minimize, 7⟩ (some (-97)) (-100) = false :=
  (stall_truthful ⟨1000, -100, 1000, .minimize, 7⟩ (by decide) [500, -97] (by decide)).2.1
    (-200) 3 7 (-100) (.inl (by rfl)) (-100)

end Ratchet

end Cairn.Ports
