import Mathlib

/-!
# Repeated truncated scaling

`retained r d n s` is `s` scaled by `r / d` in `n` steps, every product rounded
down. With `r ≤ d` no step raises it, and it stops moving only at zero or when
`r` is `d`.
-/

namespace Cairn.Verified.Decay

/-- `s` after `n` steps that keep `r` parts in `d` of it. -/
def retained (r d n s : Nat) : Nat := (fun s => s * r / d)^[n] s

variable {r d : Nat}

@[simp] theorem retained_zero (s : Nat) : retained r d 0 s = s := rfl

theorem retained_succ (n s : Nat) : retained r d (n + 1) s = retained r d n (s * r / d) := rfl

theorem retained_succ' (n s : Nat) : retained r d (n + 1) s = retained r d n s * r / d :=
  Function.iterate_succ_apply' _ _ _

@[simp] theorem retained_of_zero (n : Nat) : retained r d n 0 = 0 := by
  induction n with
  | zero => rfl
  | succ n ih => rw [retained_succ, Nat.zero_mul, Nat.zero_div, ih]

theorem retained_mono (n : Nat) {s t : Nat} (h : s ≤ t) : retained r d n s ≤ retained r d n t := by
  induction n with
  | zero => exact h
  | succ n ih =>
    rw [retained_succ', retained_succ']
    exact Nat.div_le_div_right (Nat.mul_le_mul_right r ih)

/-- One step does not raise what it scales. -/
theorem scaled_le (h : r ≤ d) (s : Nat) : s * r / d ≤ s := by
  rcases Nat.eq_zero_or_pos d with rfl | hd
  · rw [Nat.div_zero]
    exact Nat.zero_le s
  · exact Nat.div_le_of_le_mul (Nat.mul_comm s r ▸ Nat.mul_le_mul_right s h)

/-- More steps leave less. -/
theorem retained_antitone (h : r ≤ d) {m n : Nat} (hmn : m ≤ n) (s : Nat) :
    retained r d n s ≤ retained r d m s := by
  induction hmn with
  | refl => exact Nat.le_refl _
  | step _ ih =>
    rw [retained_succ']
    exact (scaled_le h _).trans ih

/-- A step that changes nothing scales zero, or scales by one. -/
theorem eq_of_scaled_eq (hd : 0 < d) (h : r ≤ d) {s : Nat} (heq : s * r / d = s) :
    s = 0 ∨ r = d := by
  rcases Nat.eq_zero_or_pos s with hs | hs
  · exact .inl hs
  · refine .inr (Nat.le_antisymm h (Nat.le_of_not_lt fun hlt => ?_))
    have hless : s * r / d < s := by
      rw [Nat.div_lt_iff_lt_mul hd]
      exact Nat.mul_lt_mul_of_pos_left hlt hs
    omega

theorem retained_of_full (hd : 0 < d) (n s : Nat) : retained d d n s = s := by
  induction n with
  | zero => rfl
  | succ n ih => rw [retained_succ', ih, Nat.mul_div_cancel _ hd]

theorem retained_of_eq_zero {m n s : Nat} (hmn : m ≤ n) (h : retained r d m s = 0) :
    retained r d n s = 0 := by
  induction hmn with
  | refl => exact h
  | step _ ih => rw [retained_succ', ih, Nat.zero_mul, Nat.zero_div]

/-- Stopping after `m` of `n` steps does not show below a bound when nothing is
left by then, nothing is lost in a step, or all steps leave the bound. -/
theorem min_retained_eq_iff (hd : 0 < d) (h : r ≤ d) {m n s bound : Nat} (hmn : m < n) :
    min (retained r d m s) bound = min (retained r d n s) bound ↔
      r = d ∨ retained r d m s = 0 ∨ bound ≤ retained r d n s := by
  have hle := retained_antitone (d := d) h hmn.le s
  constructor
  · intro heq
    by_cases hbound : bound ≤ retained r d n s
    · exact .inr (.inr hbound)
    · have hsame : retained r d m s = retained r d n s := by omega
      have hnext : retained r d n s ≤ retained r d (m + 1) s := retained_antitone h hmn s
      have hstep : retained r d (m + 1) s ≤ retained r d m s := retained_antitone h (Nat.le_succ m) s
      have hfixed : retained r d m s * r / d = retained r d m s := by
        rw [← retained_succ']
        omega
      rcases eq_of_scaled_eq hd h hfixed with hzero | hfull
      · exact .inr (.inl hzero)
      · exact .inl hfull
  · rintro (rfl | hzero | hbound)
    · rw [retained_of_full hd, retained_of_full hd]
    · rw [hzero, retained_of_eq_zero hmn.le hzero]
    · omega

end Cairn.Verified.Decay
