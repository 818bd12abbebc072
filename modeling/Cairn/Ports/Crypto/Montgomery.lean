import Cairn.Ports.Crypto.Bignum
import Mathlib.Data.Nat.ModEq
import Mathlib.Data.Nat.Prime.Basic
import Mathlib.Data.UInt

/-!
# Montgomery multiplication

`Montgomery` of `src/crypto/bignum.rs`. `R` is the weight of the place above the
modulus. A reduction adds a multiple of the modulus that clears the low words, one
word at a time, and drops them; the result is below twice the modulus, so one
subtraction is enough. The constants are fields with what they are, so a value of
the type is a modulus it works for.
-/

namespace Cairn.Ports.Crypto

open Cairn.Verified Cairn.Verified.Limbs
open BigNat (addRow length_addRow value_addRow)

/-! ## The inverse of a word -/

/-- Newton's iteration for the inverse of an odd word. -/
def newtonStep (n0 inverse : UInt64) : UInt64 := inverse * (2 - n0 * inverse)

def newtonInverse (n0 : UInt64) : UInt64 := (newtonStep n0)^[6] 1

/-- A step squares what is missing. -/
theorem newtonStep_error {n0 x w w' c : UInt64} (h : 1 - n0 * x = w * c) (hw : w * w = w') :
    1 - n0 * newtonStep n0 x = w' * (c * c) := by
  have hsquare : 1 - n0 * newtonStep n0 x = (1 - n0 * x) * (1 - n0 * x) := by
    rw [newtonStep]
    grind
  rw [hsquare, h, ← hw]
  grind

/-- From one correct bit, six steps give 64. -/
theorem newtonInverse_spec {n0 : UInt64} (h : n0 &&& 1 = 1) : n0 * newtonInverse n0 = 1 := by
  have hodd : n0.toNat % 2 = 1 := by
    have htoNat := congrArg UInt64.toNat h
    rwa [UInt64.toNat_and, UInt64.toNat_one, Nat.and_one_is_mod] at htoNat
  have hhalf : n0 = 2 * (n0 / 2) + 1 := by
    refine UInt64.toNat_inj.mp ?_
    have hlt := n0.toNat_lt
    rw [UInt64.toNat_add, UInt64.toNat_mul, UInt64.toNat_div, UInt64.toNat_one,
      show (2 : UInt64).toNat = 2 from rfl]
    omega
  have h0 : 1 - n0 * 1 = 2 * (0 - n0 / 2) := by grind
  have h1 := newtonStep_error h0 (show (2 : UInt64) * 2 = 4 from rfl)
  have h2 := newtonStep_error h1 (show (4 : UInt64) * 4 = 16 from rfl)
  have h3 := newtonStep_error h2 (show (16 : UInt64) * 16 = 256 from rfl)
  have h4 := newtonStep_error h3 (show (256 : UInt64) * 256 = 65536 from rfl)
  have h5 := newtonStep_error h4 (show (65536 : UInt64) * 65536 = 4294967296 from rfl)
  have h6 := newtonStep_error h5 (show (4294967296 : UInt64) * 4294967296 = 0 from rfl)
  have hone : 1 - n0 * newtonInverse n0 = 0 := h6.trans UInt64.zero_mul
  grind

/-! ## The constants -/

structure Montgomery where
  modulus : BigNat
  limbs : Nat
  /-- `-modulus^{-1} mod 2^64`. -/
  nPrime : UInt64
  /-- `R mod modulus`, the form of one. -/
  r : BigNat
  /-- `R^2 mod modulus`, for converting into the form. -/
  r2 : BigNat
  odd : modulus.isOdd = true
  limbs_eq : limbs = modulus.limbs.length
  nPrime_eq : modulus.limbs.headD 0 * nPrime = -1
  r_eq : r.value = base ^ limbs % modulus.value
  r2_eq : r2.value = base ^ limbs * base ^ limbs % modulus.value

theorem BigNat.head_of_isOdd {n : BigNat} (h : n.isOdd = true) : n.limbs.headD 0 &&& 1 = 1 := by
  unfold isOdd at h
  cases hl : n.limbs with
  | nil =>
    rw [hl] at h
    cases h
  | cons limb limbs =>
    rw [hl] at h
    simpa using h

theorem BigNat.isZero_of_isOdd {n : BigNat} (h : n.isOdd = true) : n.isZero = false := by
  unfold isOdd at h
  unfold isZero
  cases hl : n.limbs with
  | nil =>
    rw [hl] at h
    cases h
  | cons limb limbs => rfl

/-- An odd word at the bottom makes an odd number. -/
theorem BigNat.isOdd_iff (n : BigNat) : n.isOdd = true ↔ n.value % 2 = 1 := by
  have hbit := bit_eq n 0
  rw [Nat.testBit_zero] at hbit
  have hodd : n.isOdd = n.bit 0 := by
    unfold isOdd bit
    cases n.limbs with
    | nil => rfl
    | cons limb limbs =>
      show (limb &&& 1 == 1) = ((limb >>> 0) &&& 1 == 1)
      rw [UInt64.shiftRight_zero]
  rw [hodd, hbit, decide_eq_true_eq]

namespace Montgomery

/-- Nothing for an even or zero modulus. -/
def new (modulus : BigNat) : Option Montgomery :=
  if h : modulus.isZero ∨ modulus.isOdd = false then none
  else
    have hzero : modulus.isZero = false := by simpa using fun hz => h (.inl hz)
    have hodd : modulus.isOdd = true := by simpa using fun ho => h (.inr ho)
    let limbs := modulus.limbs.length
    let inverse := newtonInverse (modulus.limbs.headD 0)
    let r := (BigNat.one.shl (64 * limbs)).rem modulus hzero
    let r2 := (r.mul r).rem modulus hzero
    some
      { modulus, limbs, nPrime := -inverse, r, r2
        odd := hodd
        limbs_eq := rfl
        nPrime_eq := by
          rw [UInt64.mul_neg, newtonInverse_spec (BigNat.head_of_isOdd hodd)]
        r_eq := by
          rw [BigNat.value_rem, BigNat.value_shl, BigNat.value_one, Nat.one_mul, Nat.pow_mul]
        r2_eq := by
          rw [BigNat.value_rem, BigNat.value_mul, BigNat.value_rem, BigNat.value_shl,
            BigNat.value_one, Nat.one_mul, Nat.pow_mul, ← Nat.mul_mod] }

variable (m : Montgomery)

/-- `R`. -/
def weight : Nat := base ^ m.limbs

/-- `resize`: cut off or filled with zeros. -/
def resize (limbs : List UInt64) (length : Nat) : List UInt64 :=
  limbs.take length ++ List.replicate (length - limbs.length) 0

/-- The rows of `redc`: each clears the word at its place. -/
def redcFrom (n : List UInt64) (nPrime : UInt64) : Nat → Nat → List UInt64 → List UInt64
  | 0, _, t => t
  | count + 1, i, t => redcFrom n nPrime count (i + 1) (addRow (t.getD i 0 * nPrime) n i t)

/-- A reduction before the last subtraction. -/
def redcTop (value : BigNat) : BigNat :=
  .ofLimbs <|
    (redcFrom m.modulus.limbs m.nPrime m.limbs 0 (resize value.limbs (2 * m.limbs + 1))).drop
      m.limbs

/-- Montgomery reduction of a double-width product. -/
def redc (value : BigNat) : BigNat :=
  let result := m.redcTop value
  if result.cmp m.modulus ≠ .lt then result.sub m.modulus else result

/-- Into Montgomery form: `a * R mod n`. -/
def enter (value : BigNat) : BigNat :=
  m.redc ((value.rem m.modulus (BigNat.isZero_of_isOdd m.odd)).mul m.r2)

/-- Out of Montgomery form. -/
def leave (value : BigNat) : BigNat := m.redc value

/-- `a * b * R^{-1} mod n`. -/
def mul (a b : BigNat) : BigNat := m.redc (a.mul b)

def one : BigNat := m.r

/-- One turn of square-and-multiply: the result and the square. -/
def powStep (exponent : BigNat) (state : BigNat × BigNat) (index : Nat) : BigNat × BigNat :=
  (if exponent.bit index then m.mul state.1 state.2 else state.1, m.mul state.2 state.2)

/-- `base^exponent mod n`, both operands ordinary. -/
def pow (b exponent : BigNat) : BigNat :=
  if exponent.isZero then BigNat.one.rem m.modulus (BigNat.isZero_of_isOdd m.odd)
  else
    m.leave ((List.range exponent.bits).foldl (m.powStep exponent) (m.one, m.enter b)).1

/-! ## What a reduction computes -/

/-- The row of a reduction clears the word at its place. -/
theorem value_row_mod {n : List UInt64} {nPrime w : UInt64} {rest : Nat}
    (hn : n.headD 0 * nPrime = -1) :
    (w.toNat + base * rest + (w * nPrime).toNat * Limbs.value n) % base = 0 := by
  have hword : w + w * nPrime * n.headD 0 = 0 := by grind
  have htoNat := congrArg UInt64.toNat hword
  rw [UInt64.toNat_add, UInt64.toNat_mul (w * nPrime), UInt64.toNat_zero] at htoNat
  have hsum : w.toNat + base * rest + (w * nPrime).toNat * Limbs.value n =
      w.toNat + (w * nPrime).toNat * (n.headD 0).toNat +
        base * (rest + (w * nPrime).toNat * Limbs.value n.tail) := by
    rw [BigNat.value_eq_head_tail n]
    ring
  rw [hsum, Nat.add_mul_mod_self_left, ← htoNat, Nat.add_mod_mod]

/-- The rows of a reduction add a multiple of the modulus that clears the words
they start at. -/
theorem value_redcFrom {n : List UInt64} {nPrime : UInt64} (hn : n.headD 0 * nPrime = -1)
    {count i : Nat} {t : List UInt64} (hlength : i + count + n.length ≤ t.length)
    (hzero : Limbs.value t % base ^ i = 0)
    (hfits : ∀ k < base ^ count,
      Limbs.value t + base ^ i * (k * Limbs.value n) < base ^ t.length) :
    ∃ k < base ^ count,
      Limbs.value (redcFrom n nPrime count i t) =
          Limbs.value t + base ^ i * (k * Limbs.value n) ∧
        Limbs.value (redcFrom n nPrime count i t) % base ^ (i + count) = 0 ∧
        (redcFrom n nPrime count i t).length = t.length := by
  induction count generalizing i t with
  | zero =>
    refine ⟨0, Nat.one_pos, ?_, hzero, rfl⟩
    rw [redcFrom, Nat.zero_mul, Nat.mul_zero, Nat.add_zero]
  | succ count ih =>
    have hi : i < t.length := by omega
    have hget : t.getD i 0 = (t.drop i).headD 0 := by
      rw [List.getD_eq_getElem?_getD, ← List.head?_drop, List.headD_eq_head?_getD]
    generalize hw : t.getD i 0 = w at *
    have hword := toNat_lt_base (w * nPrime)
    have hbound : ∀ k < base ^ count, (w * nPrime).toNat + base * k < base ^ (count + 1) := by
      intro k hk
      have hle : base * (k + 1) ≤ base * base ^ count := Nat.mul_le_mul_left _ hk
      rw [Nat.pow_succ, Nat.mul_comm (base ^ count)]
      rw [Nat.mul_add, Nat.mul_one] at hle
      omega
    have hcombine : ∀ k, base ^ i * ((w * nPrime).toNat * Limbs.value n) +
        base ^ (i + 1) * (k * Limbs.value n) =
          base ^ i * (((w * nPrime).toNat + base * k) * Limbs.value n) := by
      intro k
      rw [Nat.pow_succ]
      ring
    have hrow : Limbs.value t + base ^ i * ((w * nPrime).toNat * Limbs.value n) <
        base ^ t.length := by
      have h0 := hfits _ (hbound 0 (Nat.pow_pos (by decide)))
      rwa [← hcombine, Nat.zero_mul, Nat.mul_zero, Nat.add_zero] at h0
    have hlengthRow := @length_addRow (w * nPrime) n t i (by omega)
    have hvalueRow := (value_addRow (w * nPrime) (by omega) hrow).2
    have hclear : Limbs.value (addRow (w * nPrime) n i t) % base ^ (i + 1) = 0 := by
      have hsplit := value_take_add_drop i t (by omega)
      have hlow : Limbs.value (t.take i) = 0 := by
        have hlt := value_lt (t.take i)
        rw [List.length_take_of_le (by omega)] at hlt
        rwa [hsplit, Nat.add_mul_mod_self_left, Nat.mod_eq_of_lt hlt] at hzero
      have hhead := BigNat.value_eq_head_tail (t.drop i)
      rw [← hget] at hhead
      rw [hvalueRow, hsplit, hlow, Nat.zero_add, hhead, ← Nat.mul_add, Nat.pow_succ,
        Nat.mul_mod_mul_left, value_row_mod hn, Nat.mul_zero]
    obtain ⟨k, hk, hvalue, hmod, hlen⟩ := ih (i := i + 1) (t := addRow (w * nPrime) n i t)
      (by omega) hclear (by
        intro k hk
        rw [hvalueRow, hlengthRow, Nat.add_assoc, hcombine]
        exact hfits _ (hbound k hk))
    refine ⟨(w * nPrime).toNat + base * k, hbound k hk, ?_, ?_, ?_⟩
    · rw [redcFrom, hw, hvalue, hvalueRow, Nat.add_assoc, hcombine]
    · rw [redcFrom, hw, ← hmod]
      congr 2
      omega
    · rw [redcFrom, hw, hlen, hlengthRow]

theorem value_resize {limbs : List UInt64} {length : Nat} (h : Limbs.value limbs < base ^ length) :
    Limbs.value (resize limbs length) = Limbs.value limbs ∧
      (resize limbs length).length = length := by
  rw [resize]
  by_cases hle : limbs.length ≤ length
  · rw [List.take_of_length_le hle, value_append, value_replicate_zero, Nat.mul_zero,
      List.length_append, List.length_replicate]
    exact ⟨Nat.add_zero _, by omega⟩
  · have hsplit := value_take_add_drop length limbs (by omega)
    rw [value_drop_eq_zero h, Nat.mul_zero, Nat.add_zero] at hsplit
    rw [value_append, value_replicate_zero, Nat.mul_zero, Nat.add_zero, ← hsplit,
      List.length_append, List.length_replicate, List.length_take]
    exact ⟨rfl, by omega⟩

theorem modulus_pos : 0 < m.modulus.value :=
  BigNat.value_pos_of_isZero (BigNat.isZero_of_isOdd m.odd)

theorem modulus_lt_weight : m.modulus.value < m.weight := by
  rw [weight, m.limbs_eq]
  exact value_lt m.modulus.limbs

theorem weight_pos : 0 < m.weight := Nat.pow_pos (by decide)

theorem coprime_weight : Nat.Coprime m.modulus.value m.weight := by
  have hodd := (BigNat.isOdd_iff m.modulus).mp m.odd
  rw [weight, base, ← Nat.pow_mul]
  exact Nat.Coprime.pow_right _ (Nat.coprime_two_right.mpr (Nat.odd_iff.mpr hodd))

/-- Before the last subtraction the result is exact up to a multiple of the
modulus, and below twice the modulus. -/
theorem redcTop_spec {v : BigNat} (hv : v.value < m.modulus.value * m.weight) :
    (m.redcTop v).value < 2 * m.modulus.value ∧
      ∃ k, (m.redcTop v).value * m.weight = v.value + k * m.modulus.value := by
  have hN := m.modulus_lt_weight
  have hpos := m.weight_pos
  have htop : base ^ (2 * m.limbs + 1) = m.weight * m.weight * base := by
    rw [weight, Nat.pow_succ, Nat.two_mul, Nat.pow_add]
  have hroom : ∀ k < m.weight, v.value + k * m.modulus.value < 2 * m.modulus.value * m.weight := by
    intro k hk
    have hmul : k * m.modulus.value ≤ m.weight * m.modulus.value := Nat.mul_le_mul_right _ hk.le
    calc v.value + k * m.modulus.value
        < m.modulus.value * m.weight + m.weight * m.modulus.value := by omega
      _ = 2 * m.modulus.value * m.weight := by ring
  have hsmall : 2 * m.modulus.value * m.weight ≤ base ^ (2 * m.limbs + 1) := by
    rw [htop]
    calc 2 * m.modulus.value * m.weight ≤ 2 * m.weight * m.weight :=
          Nat.mul_le_mul_right _ (Nat.mul_le_mul_left _ hN.le)
      _ ≤ base * m.weight * m.weight :=
          Nat.mul_le_mul_right _ (Nat.mul_le_mul_right _ (by decide))
      _ = m.weight * m.weight * base := by ring
  have hresize := @value_resize v.limbs (2 * m.limbs + 1) (by
    have h0 := hroom 0 hpos
    rw [Nat.zero_mul, Nat.add_zero] at h0
    exact lt_of_lt_of_le h0 hsmall)
  obtain ⟨k, hk, hvalue, hmod, hlength⟩ := @value_redcFrom m.modulus.limbs
    m.nPrime m.nPrime_eq m.limbs 0 (resize v.limbs (2 * m.limbs + 1)) (by rw [hresize.2, ← m.limbs_eq]; omega)
    (by rw [Nat.pow_zero]; exact Nat.mod_one _) (by
      intro k hk
      rw [hresize.1, hresize.2, Nat.pow_zero, Nat.one_mul]
      exact lt_of_lt_of_le (hroom k hk) hsmall)
  rw [hresize.1, Nat.pow_zero, Nat.one_mul] at hvalue
  rw [Nat.zero_add] at hmod
  have hsplit := value_take_add_drop m.limbs _ (show m.limbs ≤ (redcFrom m.modulus.limbs m.nPrime
    m.limbs 0 (resize v.limbs (2 * m.limbs + 1))).length by rw [hlength, hresize.2]; omega)
  have hlow := value_lt ((redcFrom m.modulus.limbs m.nPrime m.limbs 0
    (resize v.limbs (2 * m.limbs + 1))).take m.limbs)
  rw [List.length_take_of_le (by rw [hlength, hresize.2]; omega)] at hlow
  have hexact : (m.redcTop v).value * m.weight = v.value + k * m.modulus.value := by
    rw [redcTop, BigNat.value_ofLimbs, weight]
    rw [hsplit, Nat.add_mul_mod_self_left, Nat.mod_eq_of_lt hlow] at hmod
    rw [hmod, Nat.zero_add, hvalue] at hsplit
    rw [Nat.mul_comm]
    exact hsplit.symm
  refine ⟨Nat.lt_of_mul_lt_mul_right (a := m.weight) ?_, k, hexact⟩
  rw [hexact]
  exact hroom k hk

/-- A reduction divides by `R` modulo the modulus. -/
theorem redc_spec {v : BigNat} (hv : v.value < m.modulus.value * m.weight) :
    (m.redc v).value < m.modulus.value ∧
      (m.redc v).value * m.weight ≡ v.value [MOD m.modulus.value] := by
  obtain ⟨hlt, k, hexact⟩ := m.redcTop_spec hv
  have hcongr : (m.redcTop v).value * m.weight ≡ v.value [MOD m.modulus.value] := by
    rw [hexact]
    exact Nat.ModEq.symm (Nat.modEq_of_dvd' (Nat.le_add_right _ _) (by
      rw [Nat.add_sub_cancel_left]
      exact Nat.dvd_mul_left _ _))
  rw [redc]
  by_cases hless : (m.redcTop v).cmp m.modulus = .lt
  · rw [if_neg (not_not.mpr hless)]
    exact ⟨(BigNat.cmp_eq_lt_iff _ _).mp hless, hcongr⟩
  · rw [if_pos hless]
    rw [BigNat.cmp_eq_lt_iff, not_lt] at hless
    have hsub := BigNat.value_sub hless
    refine ⟨by omega, ?_⟩
    have hback : (m.redcTop v).value = ((m.redcTop v).sub m.modulus).value + m.modulus.value := by
      omega
    rw [hback, Nat.add_mul] at hcongr
    refine Nat.ModEq.trans ?_ hcongr
    exact (Nat.modEq_of_dvd' (Nat.le_add_right _ _) (by
      rw [Nat.add_sub_cancel_left]
      exact Nat.dvd_mul_right _ _))

/-! ## Montgomery form -/

/-- A number in Montgomery form: below the modulus, and `R` times what it
represents. -/
def Represents (x : BigNat) (z : Nat) : Prop :=
  x.value < m.modulus.value ∧ x.value ≡ z * m.weight [MOD m.modulus.value]

theorem lt_mul_weight {v : Nat} (h : v < m.modulus.value) : v < m.modulus.value * m.weight :=
  lt_of_lt_of_le h (Nat.le_mul_of_pos_right _ m.weight_pos)

variable {m}

/-- Entering is exact. -/
theorem represents_enter (x : BigNat) : m.Represents (m.enter x) x.value := by
  have hr2 : m.r2.value < m.modulus.value := by
    rw [m.r2_eq]
    exact Nat.mod_lt _ m.modulus_pos
  have hrem : (x.rem m.modulus (BigNat.isZero_of_isOdd m.odd)).value = x.value % m.modulus.value :=
    BigNat.value_rem _ _ _
  have hlt := Nat.mod_lt x.value m.modulus_pos
  have hproduct : ((x.rem m.modulus (BigNat.isZero_of_isOdd m.odd)).mul m.r2).value <
      m.modulus.value * m.weight := by
    rw [BigNat.value_mul, hrem]
    exact Nat.mul_lt_mul'' hlt (hr2.trans m.modulus_lt_weight)
  obtain ⟨hless, hcongr⟩ := m.redc_spec hproduct
  refine ⟨hless, Nat.ModEq.cancel_right_of_coprime m.coprime_weight ?_⟩
  refine hcongr.trans ?_
  rw [BigNat.value_mul, hrem, m.r2_eq, Nat.mul_assoc]
  exact (Nat.mod_modEq _ _).mul (Nat.mod_modEq _ _)

/-- The form of one. -/
theorem represents_one : m.Represents m.one 1 := by
  rw [Represents, one, m.r_eq, Nat.one_mul]
  exact ⟨Nat.mod_lt _ m.modulus_pos, Nat.mod_modEq _ _⟩

/-- Products of represented numbers. -/
theorem Represents.mul {x y : BigNat} {z w : Nat} (hx : m.Represents x z)
    (hy : m.Represents y w) : m.Represents (m.mul x y) (z * w) := by
  have hproduct : (x.mul y).value < m.modulus.value * m.weight := by
    rw [BigNat.value_mul]
    exact Nat.mul_lt_mul'' hx.1 (hy.1.trans m.modulus_lt_weight)
  obtain ⟨hless, hcongr⟩ := m.redc_spec hproduct
  refine ⟨hless, Nat.ModEq.cancel_right_of_coprime m.coprime_weight ?_⟩
  refine hcongr.trans ?_
  rw [BigNat.value_mul]
  have h := hx.2.mul hy.2
  have hshape : z * m.weight * (w * m.weight) = z * w * m.weight * m.weight := by ring
  rwa [hshape] at h

/-- Leaving gives what is represented. -/
theorem Represents.value_leave {x : BigNat} {z : Nat} (h : m.Represents x z) :
    (m.leave x).value = z % m.modulus.value := by
  obtain ⟨hless, hcongr⟩ := m.redc_spec (m.lt_mul_weight h.1)
  have hcancel : (m.leave x).value ≡ z [MOD m.modulus.value] :=
    Nat.ModEq.cancel_right_of_coprime m.coprime_weight (hcongr.trans h.2)
  rw [← hcancel]
  exact (Nat.mod_eq_of_lt hless).symm

/-! ## Powers -/

/-- The low bits of a number, up to and with bit `k`. -/
theorem mod_two_pow_succ (e k : Nat) :
    e % 2 ^ (k + 1) = e % 2 ^ k + 2 ^ k * (e.testBit k).toNat := by
  rw [Nat.pow_succ, Nat.mod_mul, Nat.toNat_testBit]

/-- After `k` turns the result has the low bits of the exponent and the square is
a power of two. -/
theorem represents_powLoop (b exponent : BigNat) (k : Nat) :
    m.Represents ((List.range k).foldl (m.powStep exponent) (m.one, m.enter b)).1
        (b.value ^ (exponent.value % 2 ^ k)) ∧
      m.Represents ((List.range k).foldl (m.powStep exponent) (m.one, m.enter b)).2
        (b.value ^ 2 ^ k) := by
  induction k with
  | zero =>
    rw [Nat.pow_zero, Nat.mod_one, Nat.pow_zero, Nat.pow_one]
    exact ⟨represents_one, represents_enter b⟩
  | succ k ih =>
    obtain ⟨hresult, hsquare⟩ := ih
    rw [List.range_succ, List.foldl_append, List.foldl_cons, List.foldl_nil, powStep]
    constructor
    · rw [BigNat.bit_eq, mod_two_pow_succ]
      cases exponent.value.testBit k
      · rw [if_neg (by decide)]
        simpa using hresult
      · rw [if_pos rfl, Bool.toNat_true, Nat.mul_one, Nat.pow_add]
        exact hresult.mul hsquare
    · rw [Nat.pow_succ, Nat.mul_two, Nat.pow_add]
      exact hsquare.mul hsquare

variable (m)

/-- Powers are exact. -/
theorem value_pow (b exponent : BigNat) :
    (m.pow b exponent).value = b.value ^ exponent.value % m.modulus.value := by
  rw [pow]
  split_ifs with h
  · rw [(BigNat.isZero_iff exponent).mp h, Nat.pow_zero, BigNat.value_rem, BigNat.value_one]
  · have hloop := (represents_powLoop (m := m) b exponent exponent.bits).1
    rw [Nat.mod_eq_of_lt (BigNat.value_lt_bits exponent).1] at hloop
    exact hloop.value_leave

/-- Odd moduli, and no others, have constants. -/
theorem new_spec {modulus : BigNat} (h : modulus.value % 2 = 1) :
    ∃ m, new modulus = some m ∧ m.modulus = modulus := by
  have hodd := (BigNat.isOdd_iff modulus).mpr h
  have hzero := BigNat.isZero_of_isOdd hodd
  rw [new, dif_neg (by simp [hodd, hzero])]
  exact ⟨_, rfl, rfl⟩

/-- Montgomery arithmetic and long division are exact. -/
theorem arithmetic_exact :
    (∀ modulus : BigNat, modulus.value % 2 = 1 → 1 < modulus.value →
      ∃ m, new modulus = some m ∧ m.modulus = modulus ∧
        (∀ a : BigNat, a.value < modulus.value → m.leave (m.enter a) = a) ∧
        (∀ a b : BigNat, a.value < modulus.value → b.value < modulus.value →
          (m.redcTop (a.mul b)).value < 2 * modulus.value ∧
            (m.mul a b).value < modulus.value ∧
            (m.mul a b).value * m.weight ≡ a.value * b.value [MOD modulus.value]) ∧
        ∀ b exponent : BigNat, b.value < modulus.value →
          (m.pow b exponent).value = b.value ^ exponent.value % modulus.value) ∧
      (∀ (a d : BigNat) (h : d.isZero = false),
        a.value = (a.divrem d h).1.value * d.value + (a.divrem d h).2.value ∧
          (a.divrem d h).2.value < d.value) ∧
      ∀ (a b : BigNat) (bits : Nat),
        (a.add b).value = a.value + b.value ∧ (a.mul b).value = a.value * b.value ∧
          (a.shl bits).value = a.value * 2 ^ bits ∧
          (b.value ≤ a.value → (a.sub b).value = a.value - b.value) := by
  refine ⟨?_, ?_, fun a b bits => ⟨BigNat.value_add a b, BigNat.value_mul a b,
    BigNat.value_shl a bits, BigNat.value_sub⟩⟩
  · intro modulus hodd _
    obtain ⟨m, hnew, rfl⟩ := new_spec hodd
    refine ⟨m, hnew, rfl, fun a ha => ?_, fun a b ha hb => ?_, fun b exponent _ =>
      m.value_pow b exponent⟩
    · refine BigNat.value_injective ?_
      rw [(represents_enter a).value_leave, Nat.mod_eq_of_lt ha]
    · have hproduct : (a.mul b).value < m.modulus.value * m.weight := by
        rw [BigNat.value_mul]
        exact Nat.mul_lt_mul'' ha (hb.trans m.modulus_lt_weight)
      obtain ⟨hless, hcongr⟩ := m.redc_spec hproduct
      rw [BigNat.value_mul] at hcongr
      exact ⟨(m.redcTop_spec hproduct).1, hless, hcongr⟩
  · intro a d h
    obtain ⟨hq, hr⟩ := BigNat.divrem_eq a d h
    rw [hq, hr]
    exact ⟨(Nat.div_add_mod' a.value d.value).symm,
      Nat.mod_lt _ (BigNat.value_pos_of_isZero h)⟩

/-- Three modulo seven, and seventeen by five. -/
theorem arithmetic_exact_sample :
    ∃ m, new (.fromU64 7) = some m ∧ m.leave (m.enter (.fromU64 3)) = .fromU64 3 ∧
      (m.pow (.fromU64 3) (.fromU64 5)).value = 3 ^ 5 % 7 ∧
      17 = ((BigNat.fromU64 17).divrem (.fromU64 5) rfl).1.value * 5 +
        ((BigNat.fromU64 17).divrem (.fromU64 5) rfl).2.value := by
  obtain ⟨m, hnew, -, hback, -, hpow⟩ :=
    arithmetic_exact.1 (.fromU64 7) (by simp) (by simp)
  have h3 : (BigNat.fromU64 3).value < (BigNat.fromU64 7).value := by simp
  refine ⟨m, hnew, hback _ h3, ?_, ?_⟩
  · simpa using hpow (.fromU64 3) (.fromU64 5) h3
  · have hdiv := (arithmetic_exact.2.1 (.fromU64 17) (.fromU64 5) rfl).1
    simpa using hdiv

end Montgomery

end Cairn.Ports.Crypto
