import Mathlib.FieldTheory.Finite.Basic
import Mathlib.NumberTheory.Bertrand

/-!
# Strong probable primes

The squaring chain of a Miller–Rabin test. Modulo a prime one has no square roots
but itself and its negative, so a chain of squares that ends in one passes
through the negative of one, unless it starts with one. Every prime passes the
test, whatever the bases.
-/

namespace Cairn.Verified.StrongTest

/-- Whether one of so many squares is the negative of one. -/
def squareUntil (n : Nat) : Nat → Nat → Bool
  | 0, _ => false
  | count + 1, y => y * y % n = n - 1 || squareUntil n count (y * y % n)

/-- The square roots of one modulo a prime. -/
theorem eq_or_eq_of_square {p y : Nat} (hp : p.Prime) (hy : y < p) (h : y * y % p = 1) :
    y = 1 ∨ y = p - 1 := by
  have hpos : 0 < y := by
    refine Nat.pos_of_ne_zero ?_
    rintro rfl
    rw [Nat.zero_mul, Nat.zero_mod] at h
    cases h
  have hdvd : p ∣ (y - 1) * (y + 1) := by
    have hfactor : (y - 1) * (y + 1) = y * y - 1 := by
      obtain ⟨z, rfl⟩ : ∃ z, y = z + 1 := ⟨y - 1, by omega⟩
      rw [Nat.add_sub_cancel, Nat.add_mul, Nat.one_mul, Nat.mul_add, Nat.mul_one]
      omega
    rw [hfactor]
    exact (Nat.modEq_iff_dvd' (Nat.mul_pos hpos hpos)).mp
      (by rw [Nat.ModEq, h, Nat.mod_eq_of_lt hp.one_lt])
  rcases (Nat.Prime.dvd_mul hp).mp hdvd with hsub | hadd
  · have hzero := Nat.eq_zero_of_dvd_of_lt hsub (by omega)
    exact .inl (by omega)
  · have hle := Nat.le_of_dvd (by omega) hadd
    exact .inr (by omega)

/-- A chain of squares that ends in one and does not start with one passes through
the negative of one. -/
theorem squareUntil_of_prime {p : Nat} (hp : p.Prime) {count y : Nat} (hy : y < p)
    (hend : y ^ 2 ^ (count + 1) % p = 1) (hone : y ≠ 1) (hminus : y ≠ p - 1) :
    squareUntil p count y = true := by
  induction count generalizing y with
  | zero =>
    rw [Nat.zero_add, Nat.pow_one, Nat.pow_two] at hend
    rcases eq_or_eq_of_square hp hy hend with h | h
    · exact absurd h hone
    · exact absurd h hminus
  | succ count ih =>
    rw [squareUntil, Bool.or_eq_true, decide_eq_true_eq]
    by_cases hsquare : y * y % p = p - 1
    · exact .inl hsquare
    · refine .inr (ih (Nat.mod_lt _ hp.pos) ?_ ?_ hsquare)
      · rw [← Nat.pow_mod, ← Nat.pow_two, ← Nat.pow_mul, ← Nat.pow_succ']
        exact hend
      · intro h
        rcases eq_or_eq_of_square hp hy h with h | h
        · exact hone h
        · exact hminus h

/-- A prime passes for every base that it does not divide. -/
theorem strong_of_prime {p base d s : Nat} (hp : p.Prime) (hs : 0 < s) (hd : p - 1 = d * 2 ^ s)
    (hbase : ¬ p ∣ base) :
    base ^ d % p = 1 ∨ base ^ d % p = p - 1 ∨ squareUntil p (s - 1) (base ^ d % p) = true := by
  have hend : (base ^ d % p) ^ 2 ^ (s - 1 + 1) % p = 1 := by
    have hcoprime : Nat.Coprime base p :=
      Nat.coprime_comm.mp ((Nat.Prime.coprime_iff_not_dvd hp).mpr hbase)
    have hfermat := Nat.ModEq.pow_totient hcoprime
    rw [Nat.totient_prime hp, hd, Nat.ModEq, Nat.mod_eq_of_lt hp.one_lt] at hfermat
    rw [← Nat.pow_mod, ← Nat.pow_mul, Nat.sub_add_cancel hs]
    exact hfermat
  by_cases hone : base ^ d % p = 1
  · exact .inl hone
  · by_cases hminus : base ^ d % p = p - 1
    · exact .inr (.inl hminus)
    · exact .inr (.inr (squareUntil_of_prime hp (Nat.mod_lt _ hp.pos) hend hone hminus))

/-- From an odd number on, an odd prime comes before its double. -/
theorem exists_oddPrime {n : Nat} (hodd : n % 2 = 1) :
    ∃ k, (n + 2 * k).Prime ∧ n + 2 * k ≤ 2 * n + 1 := by
  by_cases h1 : n = 1
  · exact ⟨1, by rw [h1]; norm_num, by omega⟩
  · obtain ⟨p, hp, hlt, hle⟩ := Nat.exists_prime_lt_and_le_two_mul n (by omega)
    have hpodd : p % 2 = 1 := by
      rcases hp.eq_two_or_odd with h | h
      · omega
      · exact h
    refine ⟨(p - n) / 2, ?_, by omega⟩
    rw [show n + 2 * ((p - n) / 2) = p by omega]
    exact hp

end Cairn.Verified.StrongTest
