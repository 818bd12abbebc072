import Cairn.Verified.Fractions

/-!
# Exact rationals

`src/incentive/exact.rs`: payoffs as quotients of two `i128` in lowest terms. The
checked operations refuse what does not fit, the operators saturate, and the
order is decided by cross-multiplying when that fits and by continued fractions
when it does not. Only printing is left out.

The build checks overflow, so a plain `*` or `-` that leaves the range stops the
program; `cmp` is the one place where that can happen, and there `none` says so.
-/

namespace Cairn.Ports.Incentive

open Cairn.Verified

namespace I128

def MAX : Int := 2 ^ 127 - 1

def MIN : Int := -2 ^ 127

/-- What an `i128` can hold. -/
def Fits (n : Int) : Prop := MIN ≤ n ∧ n ≤ MAX

instance (n : Int) : Decidable (Fits n) := inferInstanceAs (Decidable (_ ∧ _))

end I128

abbrev I128 := { n : Int // I128.Fits n }

namespace I128

def checked (n : Int) : Option I128 := if h : Fits n then some ⟨n, h⟩ else none

def checkedMul (a b : Int) : Option I128 := checked (a * b)

def checkedAdd (a b : Int) : Option I128 := checked (a + b)

def checkedSub (a b : Int) : Option I128 := checked (a - b)

def saturatingNeg (a : Int) : Int := if a = MIN then MAX else -a

def saturatingAbs (a : Int) : Int := if a = MIN then MAX else a.natAbs

theorem checked_eq_some {n : Int} {r : I128} : checked n = some r ↔ r.val = n := by
  unfold checked
  split
  · rw [Option.some_inj, Subtype.ext_iff, eq_comm]
  · constructor
    · intro h
      cases h
    · intro h
      exact absurd (h ▸ r.property) ‹_›

theorem checked_of_fits {n : Int} (h : Fits n) : checked n = some ⟨n, h⟩ := dif_pos h

end I128

/-- The largest magnitude a numerator or a denominator may have. -/
def LIMIT : Int := I128.MAX

/-- `floor(a / b)` for a positive `b`. -/
def floorDiv (a b : Int) : Int :=
  let quotient := a.tdiv b
  if a.tmod b < 0 then quotient - 1 else quotient

theorem floorDiv_eq {a b : Int} (hb : 0 < b) : floorDiv a b = a / b := by
  have hsplit := Int.mul_tdiv_add_tmod a b
  have hlt := Int.tmod_lt_of_pos a hb
  have hgt := Int.lt_tmod_of_pos a hb
  simp only [floorDiv]
  split
  · refine ((Int.ediv_emod_unique hb (r := a.tmod b + b)).mpr ⟨?_, by omega, by omega⟩).1.symm
    rw [Int.mul_sub, Int.mul_one]
    omega
  · exact ((Int.ediv_emod_unique hb (r := a.tmod b)).mpr ⟨by omega, by omega, hlt⟩).1.symm

def gcdLoop (a b : Int) : Int :=
  if _ : b = 0 then a else gcdLoop b (a.tmod b)
termination_by b.natAbs
decreasing_by
  rw [Int.natAbs_tmod]
  exact Nat.mod_lt _ (by omega)

/-- Greatest common divisor; of zero and zero it is one, so that every caller may
divide by it. -/
def gcd (a b : Int) : Int :=
  let a := gcdLoop (I128.saturatingAbs a) (I128.saturatingAbs b)
  if a = 0 then 1 else a

theorem gcdLoop_eq (a b : Int) (ha : 0 ≤ a) (hb : 0 ≤ b) : gcdLoop a b = Int.gcd a b := by
  induction a, b using gcdLoop.induct with
  | case1 a =>
    rw [gcdLoop, dif_pos rfl, Int.gcd_zero_right, Int.natAbs_of_nonneg ha]
  | case2 a b hne ih =>
    have hmod : a.tmod b = a % b := Int.tmod_eq_emod_of_nonneg ha
    rw [gcdLoop, dif_neg hne, ih hb (hmod ▸ Int.emod_nonneg a hne), hmod, Int.gcd_comm,
      Int.gcd_emod]

theorem saturatingAbs_eq {a : Int} (ha : a ≠ I128.MIN) : I128.saturatingAbs a = a.natAbs :=
  if_neg ha

theorem gcd_eq {a b : Int} (ha : a ≠ I128.MIN) (hb : b ≠ I128.MIN) (h : b ≠ 0) :
    gcd a b = Int.gcd a b := by
  have hloop : gcdLoop a.natAbs b.natAbs = Int.gcd a b := by
    rw [gcdLoop_eq _ _ (Int.natCast_nonneg _) (Int.natCast_nonneg _), Int.gcd, Int.natAbs_natCast,
      Int.natAbs_natCast, Int.gcd]
  have hpos : Int.gcd a b ≠ 0 := fun h0 => h (Int.gcd_eq_zero_iff.mp h0).2
  rw [gcd, saturatingAbs_eq ha, saturatingAbs_eq hb, hloop]
  exact if_neg (by exact_mod_cast hpos)

theorem ne_min {n : Int} (h : n.natAbs ≤ LIMIT) : n ≠ I128.MIN := by
  rintro rfl
  exact absurd h (by decide)

theorem fits_of_natAbs_le {n : Int} (h : n.natAbs ≤ LIMIT) : I128.Fits n := by
  unfold LIMIT at h
  unfold I128.Fits I128.MIN
  unfold I128.MAX at h ⊢
  omega

/-- What the greatest common divisor leaves of a fraction. -/
structure Reduced (num den : Int) : Prop where
  den_pos : 0 < den.tdiv (gcd num den)
  den_le : den.tdiv (gcd num den) ≤ LIMIT
  num_le : (num.tdiv (gcd num den)).natAbs ≤ LIMIT
  coprime : Int.gcd (num.tdiv (gcd num den)) (den.tdiv (gcd num den)) = 1

theorem reduced {num den : Int} (hnum : num.natAbs ≤ LIMIT) (hpos : 0 < den) (hle : den ≤ LIMIT) :
    Reduced num den := by
  have hg := gcd_eq (ne_min hnum) (ne_min (n := den) (by omega)) hpos.ne'
  have hgpos : 0 < Int.gcd num den := Int.gcd_pos_of_ne_zero_right _ hpos.ne'
  have hden := Int.natAbs_tdiv_le_natAbs den (gcd num den)
  have hnum' := Int.natAbs_tdiv_le_natAbs num (gcd num den)
  have hdiv : den.tdiv (gcd num den) = den / Int.gcd num den := by
    rw [hg, Int.tdiv_eq_ediv_of_dvd (Int.gcd_dvd_right _ _)]
  have hdivpos : 0 < den / (Int.gcd num den : Int) :=
    Int.ediv_pos_of_pos_of_dvd hpos (Int.natCast_nonneg _) (Int.gcd_dvd_right _ _)
  constructor
  · rwa [hdiv]
  · rw [hdiv] at hden ⊢
    omega
  · omega
  · rw [hg, Int.tdiv_eq_ediv_of_dvd (Int.gcd_dvd_left _ _),
      Int.tdiv_eq_ediv_of_dvd (Int.gcd_dvd_right _ _)]
    exact Int.gcd_ediv_gcd_ediv_gcd hgpos

/-- A fraction with the sign on its numerator. -/
def signed (num den : Int) : Int × Int :=
  if den < 0 then (I128.saturatingNeg num, I128.saturatingNeg den) else (num, den)

theorem signed_eq {num den : Int} (hnum : num.natAbs ≤ LIMIT) (hden : den.natAbs ≤ LIMIT)
    (hzero : den ≠ 0) : signed num den = (den.sign * num, (den.natAbs : Int)) := by
  rcases Int.lt_or_gt_of_ne hzero with h | h
  · rw [signed, if_pos h, I128.saturatingNeg, I128.saturatingNeg, if_neg (ne_min hnum),
      if_neg (ne_min hden), Int.sign_eq_neg_one_of_neg h]
    ext
    · show -num = -1 * num
      omega
    · show -den = den.natAbs
      omega
  · rw [signed, if_neg (by omega), Int.sign_eq_one_of_pos h]
    ext
    · show num = 1 * num
      omega
    · show den = den.natAbs
      omega

/-! ## The type -/

/-- `num / den` in lowest terms, with a positive denominator and without the one
integer that has no negation. -/
structure Rat where
  num : Int
  den : Int
  den_pos : 0 < den
  den_le : den ≤ LIMIT
  num_le : num.natAbs ≤ LIMIT
  coprime : Int.gcd num den = 1
  deriving DecidableEq

namespace Rat

def ZERO : Rat := ⟨0, 1, by decide, by decide, by decide, by decide⟩

def ONE : Rat := ⟨1, 1, by decide, by decide, by decide, by decide⟩

/-- The saturation bound. -/
def MAX : Rat := ⟨LIMIT, 1, by decide, by decide, by decide, by decide⟩

def MIN : Rat := ⟨-LIMIT, 1, by decide, by decide, by decide, by decide⟩

/-- The number that is meant. -/
def value (r : Rat) : ℚ := r.num / r.den

variable {a b r : Rat}

theorem value_inj (h : a.value = b.value) : a = b := by
  have ha : (a.num / a.den : ℚ).num = a.num :=
    Rat.num_div_eq_of_coprime a.den_pos a.coprime
  have hb : (b.num / b.den : ℚ).num = b.num :=
    Rat.num_div_eq_of_coprime b.den_pos b.coprime
  have ha' : ((a.num / a.den : ℚ).den : Int) = a.den :=
    Rat.den_div_eq_of_coprime a.den_pos a.coprime
  have hb' : ((b.num / b.den : ℚ).den : Int) = b.den :=
    Rat.den_div_eq_of_coprime b.den_pos b.coprime
  unfold value at h
  rw [h] at ha ha'
  have hnum := ha.symm.trans hb
  have hden := ha'.symm.trans hb'
  cases a
  cases b
  cases hnum
  cases hden
  rfl

/-- Lowest terms, by the greatest common divisor. -/
def reduce (num den : Int) (hnum : num.natAbs ≤ LIMIT) (hpos : 0 < den) (hle : den ≤ LIMIT) : Rat :=
  let g := gcd num den
  have h := reduced hnum hpos hle
  ⟨num.tdiv g, den.tdiv g, h.den_pos, h.den_le, h.num_le, h.coprime⟩

theorem value_reduce {num den : Int} (hnum : num.natAbs ≤ LIMIT) (hpos : 0 < den)
    (hle : den ≤ LIMIT) : (reduce num den hnum hpos hle).value = num / den := by
  have hg := gcd_eq (ne_min hnum) (ne_min (n := den) (by omega)) hpos.ne'
  have hgpos : 0 < Int.gcd num den := Int.gcd_pos_of_ne_zero_right _ hpos.ne'
  rw [value]
  show ((num.tdiv (gcd num den) : Int) / (den.tdiv (gcd num den) : Int) : ℚ) = _
  rw [hg, Int.tdiv_eq_ediv_of_dvd (Int.gcd_dvd_left _ _),
    Int.tdiv_eq_ediv_of_dvd (Int.gcd_dvd_right _ _),
    Int.cast_div (Int.gcd_dvd_left _ _) (by exact_mod_cast hgpos.ne'),
    Int.cast_div (Int.gcd_dvd_right _ _) (by exact_mod_cast hgpos.ne')]
  rw [div_div_div_cancel_right₀]
  exact_mod_cast hgpos.ne'

/-- Lowest terms, with the sign on the numerator. -/
def normalise (num den : Int) (hnum : num.natAbs ≤ LIMIT) (hden : den.natAbs ≤ LIMIT)
    (hzero : den ≠ 0) : Rat :=
  if num = 0 then ZERO
  else
    have h := signed_eq hnum hden hzero
    reduce (signed num den).1 (signed num den).2
      (by rw [h, Int.natAbs_mul, Int.natAbs_sign_of_ne_zero hzero, Nat.one_mul]; exact hnum)
      (by rw [h]; omega) (by rw [h]; exact hden)

theorem value_normalise {num den : Int} (hnum : num.natAbs ≤ LIMIT) (hden : den.natAbs ≤ LIMIT)
    (hzero : den ≠ 0) : (normalise num den hnum hden hzero).value = num / den := by
  have h := signed_eq hnum hden hzero
  unfold normalise
  split
  · rename_i hnum0
    rw [hnum0, value]
    norm_num [ZERO]
  · rw [value_reduce]
    have hcast : (den : ℚ) ≠ 0 := by exact_mod_cast hzero
    rcases Int.lt_or_gt_of_ne hzero with hneg | hpos
    · have hnum' : (signed num den).1 = -num := by
        rw [h, Int.sign_eq_neg_one_of_neg hneg, Int.neg_one_mul]
      have hden' : (signed num den).2 = -den := by
        rw [h]
        omega
      rw [hnum', hden', Int.cast_neg, Int.cast_neg, neg_div_neg_eq]
    · have hnum' : (signed num den).1 = num := by
        rw [h, Int.sign_eq_one_of_pos hpos, Int.one_mul]
      have hden' : (signed num den).2 = den := by
        rw [h]
        omega
      rw [hnum', hden']

theorem natAbs_le_limit {n : I128} (h : n.val ≠ I128.MIN) : n.val.natAbs ≤ LIMIT := by
  have hmin := n.property.1
  have hmax := n.property.2
  unfold LIMIT
  unfold I128.MIN at h hmin
  unfold I128.MAX at hmax ⊢
  omega

/-- `none` for a zero denominator and for the integer without a negation. -/
def new (num den : I128) : Option Rat :=
  if h : den.val = 0 ∨ num.val = I128.MIN ∨ den.val = I128.MIN then none
  else
    some (normalise num den (natAbs_le_limit fun h' => h (.inr (.inl h')))
      (natAbs_le_limit fun h' => h (.inr (.inr h'))) fun h' => h (.inl h'))

theorem value_new {num den : I128} (h : new num den = some r) : r.value = num.val / den.val := by
  unfold new at h
  split at h
  · cases h
  · cases h
    exact value_normalise _ _ _

theorem new_eq_none {num den : I128} :
    new num den = none ↔ den.val = 0 ∨ num.val = I128.MIN ∨ den.val = I128.MIN := by
  unfold new
  split <;> simp_all

/-- `n / 1`. -/
def int (n : Int64) : Rat where
  num := n.toInt
  den := 1
  den_pos := by decide
  den_le := by decide
  num_le := by
    have hmin := n.le_toInt
    have hmax := n.toInt_lt
    unfold LIMIT I128.MAX
    omega
  coprime := Int.gcd_one_right _

def units (n : UInt64) : Rat where
  num := n.toNat
  den := 1
  den_pos := by decide
  den_le := by decide
  num_le := by
    have hmax := n.toNat_lt
    unfold LIMIT I128.MAX
    omega
  coprime := Int.gcd_one_right _

/-- A probability. -/
def rate (num den : UInt32) : Option Rat :=
  if h : den = 0 ∨ num > den then none
  else
    some (normalise num.toNat den.toNat
      (by have := num.toNat_lt; unfold LIMIT I128.MAX; omega)
      (by have := den.toNat_lt; unfold LIMIT I128.MAX; omega)
      fun h' => h (.inl (UInt32.toNat_inj.mp (by exact_mod_cast h'))))

def isNegative (self : Rat) : Bool := self.num < 0

def abs (self : Rat) : Rat :=
  ⟨I128.saturatingAbs self.num, self.den, self.den_pos, self.den_le,
    by rw [saturatingAbs_eq (ne_min self.num_le), Int.natAbs_natCast]; exact self.num_le,
    by rw [saturatingAbs_eq (ne_min self.num_le), Int.gcd, Int.natAbs_natCast]; exact self.coprime⟩

/-- Largest integer that is not above. The quotient is no larger than the
numerator, so one less still fits. -/
def floor (self : Rat) : Int :=
  let quotient := self.num.tdiv self.den
  if self.num.tmod self.den < 0 then quotient - 1 else quotient

/-- The same with the other sign. -/
def negated (self : Rat) : Rat :=
  ⟨-self.num, self.den, self.den_pos, self.den_le, by rw [Int.natAbs_neg]; exact self.num_le,
    by rw [Int.neg_gcd]; exact self.coprime⟩

def checkedNeg (self : Rat) : Option Rat :=
  if self.num = I128.MIN then none else some self.negated

def checkedAdd (self other : Rat) : Option Rat := do
  -- the denominators are reduced before the cross-multiplication
  let g := gcd self.den other.den
  let leftScale := other.den.tdiv g
  let rightScale := self.den.tdiv g
  let left ← I128.checkedMul self.num leftScale
  let right ← I128.checkedMul other.num rightScale
  let num ← I128.checkedAdd left right
  let den ← I128.checkedMul self.den leftScale
  new num den

def checkedSub (self other : Rat) : Option Rat := do
  self.checkedAdd (← other.checkedNeg)

def checkedMul (self other : Rat) : Option Rat := do
  -- cross-cancelled first
  let left := gcd self.num other.den
  let right := gcd other.num self.den
  let num ← I128.checkedMul (self.num.tdiv left) (other.num.tdiv right)
  let den ← I128.checkedMul (self.den.tdiv right) (other.den.tdiv left)
  new num den

/-- Numerator and denominator as the code holds them. -/
def num128 (self : Rat) : I128 := ⟨self.num, fits_of_natAbs_le self.num_le⟩

def den128 (self : Rat) : I128 :=
  ⟨self.den, fits_of_natAbs_le (by have h := self.den_le; have h' := self.den_pos; omega)⟩

/-- `none` if `other` is zero. -/
def checkedDiv (self other : Rat) : Option Rat :=
  if other.num = 0 then none
  else do self.checkedMul (← new other.den128 other.num128)

/-- `parts` equal shares. -/
def share (self : Rat) (parts : UInt32) : Option Rat :=
  if parts = 0 then none else self.checkedDiv (int parts.toUInt64.toInt64)

/-! ## The order -/

/-- One side of the comparison by continued fractions. -/
structure Fraction where
  num : I128
  den : I128
  den_pos : 0 < den.val

namespace Fraction

def value (x : Fraction) : ℚ := x.num.val / x.den.val

def whole (x : Fraction) : Int := floorDiv x.num.val x.den.val

/-- What the whole part leaves; the product is a plain one and may overflow. -/
def rest (x : Fraction) : Option I128 := do
  I128.checkedSub x.num.val (← I128.checkedMul x.whole x.den.val)

theorem whole_eq (x : Fraction) : x.whole = x.num.val / x.den.val := floorDiv_eq x.den_pos

variable {r : I128} {x : Fraction}

theorem rest_val (h : x.rest = some r) : r.val = x.num.val % x.den.val := by
  obtain ⟨product, hproduct, hr⟩ := Option.bind_eq_some_iff.mp h
  rw [I128.checked_eq_some.mp hr, I128.checked_eq_some.mp hproduct, whole_eq, Int.mul_comm]
  exact (Int.emod_def _ _).symm

theorem rest_nonneg (h : x.rest = some r) : 0 ≤ r.val := by
  rw [rest_val h]
  exact Int.emod_nonneg _ x.den_pos.ne'

theorem rest_lt (h : x.rest = some r) : r.val < x.den.val := by
  rw [rest_val h]
  exact Int.emod_lt_of_pos _ x.den_pos

/-- The reciprocal of what the whole part leaves. -/
def next (x : Fraction) {r : I128} (h : x.rest = some r) (hr : r.val ≠ 0) : Fraction where
  num := x.den
  den := r
  den_pos := lt_of_le_of_ne (rest_nonneg h) (Ne.symm hr)

theorem whole_eq_floor (x : Fraction) : x.whole = ⌊x.value⌋ := by
  rw [whole_eq, value, Fractions.floor_div x.den_pos]

theorem rest_div (h : x.rest = some r) : (r.val / x.den.val : ℚ) = Int.fract x.value := by
  rw [value, Fractions.fract_div x.den_pos, rest_val h]

theorem rest_eq_zero (h : x.rest = some r) : r.val = 0 ↔ Int.fract x.value = 0 := by
  have hden : (x.den.val : ℚ) ≠ 0 := by exact_mod_cast x.den_pos.ne'
  rw [← rest_div h, div_eq_zero_iff, or_iff_left hden]
  exact_mod_cast Iff.rfl

theorem value_next (h : x.rest = some r) (hr : r.val ≠ 0) :
    (x.next h hr).value = (Int.fract x.value)⁻¹ := by
  rw [← rest_div h, inv_div]
  rfl

theorem compare_fract {a b : Fraction} (h : a.whole = b.whole) :
    compare (Int.fract a.value) (Int.fract b.value) = compare a.value b.value := by
  rw [whole_eq_floor, whole_eq_floor] at h
  exact Fractions.compare_fract h

/-- The product is the numerator less what is left over. -/
theorem rest_isSome_iff (x : Fraction) :
    x.rest.isSome ↔ I128.MIN ≤ x.num.val - x.num.val % x.den.val := by
  have hmod := Int.emod_nonneg x.num.val x.den_pos.ne'
  have hlt := Int.emod_lt_of_pos x.num.val x.den_pos
  have hmul : x.whole * x.den.val = x.num.val - x.num.val % x.den.val := by
    rw [whole_eq, Int.mul_comm, Int.emod_def]
    omega
  have hnum := x.num.property
  have hden := x.den.property
  have hpos := x.den_pos
  unfold I128.Fits at hnum hden
  constructor
  · intro h
    obtain ⟨r, hr⟩ := Option.isSome_iff_exists.mp h
    obtain ⟨product, hproduct, -⟩ := Option.bind_eq_some_iff.mp hr
    have hfits := product.property.1
    rwa [I128.checked_eq_some.mp hproduct, hmul] at hfits
  · intro h
    have hproduct : I128.Fits (x.whole * x.den.val) := by
      rw [hmul]
      exact ⟨h, by omega⟩
    have hrest : I128.Fits (x.num.val - x.whole * x.den.val) := by
      rw [hmul]
      unfold I128.Fits I128.MIN at *
      omega
    rw [rest, I128.checkedMul, I128.checked_of_fits hproduct]
    show (I128.checked (x.num.val - x.whole * x.den.val)).isSome
    rw [I128.checked_of_fits hrest]
    rfl

theorem rest_isSome_of_nonneg (h : 0 ≤ x.num.val) : x.rest.isSome := by
  have hsplit := Int.mul_ediv_add_emod x.num.val x.den.val
  have hquotient : 0 ≤ x.den.val * (x.num.val / x.den.val) :=
    Int.mul_nonneg x.den_pos.le (Int.ediv_nonneg h x.den_pos.le)
  refine x.rest_isSome_iff.mpr (le_trans ?_ (by omega : 0 ≤ x.num.val - x.num.val % x.den.val))
  decide

end Fraction

/-- The rounds of the comparison; `none` when a product overflows. -/
def compareLoop (a b : Fraction) (flipped : Bool) : Option Ordering :=
  if a.whole ≠ b.whole then
    let ordering := compare a.whole b.whole
    some (if flipped then ordering.swap else ordering)
  else
    match ha : a.rest, hb : b.rest with
    | some aRest, some bRest =>
      if ha0 : aRest.val = 0 then
        if bRest.val = 0 then some .eq
        else some (if flipped then .gt else .lt)
      else if hb0 : bRest.val = 0 then some (if flipped then .lt else .gt)
      -- reciprocals invert the order
      else compareLoop (a.next ha ha0) (b.next hb hb0) (!flipped)
    | _, _ => none
termination_by a.den.val.toNat
decreasing_by
  have hlt := Fraction.rest_lt ha
  have hpos := a.den_pos
  show aRest.val.toNat < a.den.val.toNat
  omega

/-- The continued fractions decide the numeric order. -/
theorem compareLoop_eq (a b : Fraction) (flipped : Bool)
    (hrest : a.whole = b.whole → a.rest.isSome ∧ b.rest.isSome) :
    compareLoop a b flipped = some (if flipped then (compare a.value b.value).swap
      else compare a.value b.value) := by
  fun_induction compareLoop a b flipped with
  | case1 a b flipped hne =>
    rw [Fraction.whole_eq_floor, Fraction.whole_eq_floor] at hne
    show some (if flipped then (compare a.whole b.whole).swap else compare a.whole b.whole) = _
    rw [Fraction.whole_eq_floor, Fraction.whole_eq_floor, Fractions.compare_floor hne]
  | case2 a b flipped heq aRest bRest ha hb ha0 hb0 =>
    rw [← Fraction.compare_fract (not_ne_iff.mp heq), (Fraction.rest_eq_zero ha).mp ha0,
      (Fraction.rest_eq_zero hb).mp hb0, compare_eq_iff_eq.mpr rfl]
    cases flipped <;> rfl
  | case3 a b flipped heq aRest bRest ha hb ha0 hb0 =>
    have hb0' := mt (Fraction.rest_eq_zero hb).mpr hb0
    have hlt : 0 < Int.fract b.value := lt_of_le_of_ne (Int.fract_nonneg _) (Ne.symm hb0')
    rw [← Fraction.compare_fract (not_ne_iff.mp heq), (Fraction.rest_eq_zero ha).mp ha0,
      compare_lt_iff_lt.mpr hlt]
    cases flipped <;> rfl
  | case4 a b flipped heq aRest bRest ha hb ha0 hb0 =>
    have ha0' := mt (Fraction.rest_eq_zero ha).mpr ha0
    have hlt : 0 < Int.fract a.value := lt_of_le_of_ne (Int.fract_nonneg _) (Ne.symm ha0')
    rw [← Fraction.compare_fract (not_ne_iff.mp heq), (Fraction.rest_eq_zero hb).mp hb0,
      compare_gt_iff_gt.mpr hlt]
    cases flipped <;> rfl
  | case5 a b flipped heq aRest bRest ha hb ha0 hb0 ih =>
    have ha0' := mt (Fraction.rest_eq_zero ha).mpr ha0
    have hb0' := mt (Fraction.rest_eq_zero hb).mpr hb0
    have hapos : 0 < Int.fract a.value := lt_of_le_of_ne (Int.fract_nonneg _) (Ne.symm ha0')
    have hbpos : 0 < Int.fract b.value := lt_of_le_of_ne (Int.fract_nonneg _) (Ne.symm hb0')
    have hnext : ∀ (x : Fraction) (r : I128) (h : x.rest = some r) (hr : r.val ≠ 0),
        (x.next h hr).rest.isSome := fun x r h hr => Fraction.rest_isSome_of_nonneg x.den_pos.le
    rw [ih (fun _ => ⟨hnext a aRest ha ha0, hnext b bRest hb hb0⟩),
      ← Fraction.compare_fract (not_ne_iff.mp heq), Fraction.value_next, Fraction.value_next,
      ← Fractions.compare_inv hapos hbpos]
    cases flipped
    · rfl
    · rw [Ordering.swap_swap]
      rfl
  | case6 a b flipped heq hnone =>
    obtain ⟨ha, hb⟩ := hrest (not_ne_iff.mp heq)
    obtain ⟨aRest, ha⟩ := Option.isSome_iff_exists.mp ha
    obtain ⟨bRest, hb⟩ := Option.isSome_iff_exists.mp hb
    exact (hnone aRest bRest ha hb).elim

theorem compareLoop_isSome {a b : Fraction} {flipped : Bool} {ordering : Ordering}
    (h : compareLoop a b flipped = some ordering) :
    a.whole = b.whole → a.rest.isSome ∧ b.rest.isSome := by
  intro heq
  rw [compareLoop, if_neg (not_not.mpr heq)] at h
  split at h
  · rename_i aRest bRest ha hb
    rw [ha, hb]
    exact ⟨rfl, rfl⟩
  · cases h

def fraction (self : Rat) : Fraction := ⟨self.num128, self.den128, self.den_pos⟩

/-- Cross-multiplication when it fits, continued fractions otherwise. -/
def cmp (self other : Rat) : Option Ordering :=
  match I128.checkedMul self.num other.den, I128.checkedMul other.num self.den with
  | some left, some right => some (compare left.val right.val)
  | _, _ => compareLoop self.fraction other.fraction false

/-! ## Saturating operators -/

def add (self other : Rat) : Rat :=
  (self.checkedAdd other).getD (if other.isNegative then MIN else MAX)

def sub (self other : Rat) : Rat :=
  (self.checkedSub other).getD (if other.isNegative then MAX else MIN)

def mul (self other : Rat) : Rat :=
  (self.checkedMul other).getD (if self.isNegative != other.isNegative then MIN else MAX)

/-- Division by zero yields zero. -/
def div (self other : Rat) : Rat := (self.checkedDiv other).getD ZERO

def neg (self : Rat) : Rat := self.checkedNeg.getD MIN

def sum (xs : List Rat) : Rat := xs.foldl add ZERO

/-! ## What fits is exact -/

theorem checkedNeg_eq (self : Rat) : self.checkedNeg = some self.negated :=
  if_neg (ne_min self.num_le)

theorem value_negated (self : Rat) : self.negated.value = -self.value := by
  show ((-self.num : Int) / self.den : ℚ) = -(self.num / self.den)
  rw [Int.cast_neg, neg_div]

theorem cast_den_pos (self : Rat) : (0 : ℚ) < self.den := by exact_mod_cast self.den_pos

theorem den_ne_min (self : Rat) : self.den ≠ I128.MIN := by
  have h := self.den_pos
  unfold I128.MIN
  omega

/-- The greatest common divisor of the denominators, and what it leaves. -/
theorem den_tdiv (a b : Rat) :
    b.den.tdiv (gcd a.den b.den) = b.den / Int.gcd a.den b.den ∧
      a.den.tdiv (gcd a.den b.den) = a.den / Int.gcd a.den b.den := by
  rw [gcd_eq a.den_ne_min b.den_ne_min b.den_pos.ne',
    Int.tdiv_eq_ediv_of_dvd (Int.gcd_dvd_right _ _), Int.tdiv_eq_ediv_of_dvd (Int.gcd_dvd_left _ _)]
  exact ⟨rfl, rfl⟩

/-- The numbers in an addition that the type has to hold. -/
structure AddFits (a b : Rat) : Prop where
  left : I128.Fits (a.num * (b.den / Int.gcd a.den b.den))
  right : I128.Fits (b.num * (a.den / Int.gcd a.den b.den))
  sum : I128.Fits (a.num * (b.den / Int.gcd a.den b.den) + b.num * (a.den / Int.gcd a.den b.den))
  sum_ne : a.num * (b.den / Int.gcd a.den b.den) + b.num * (a.den / Int.gcd a.den b.den) ≠ I128.MIN
  den : I128.Fits (a.den * (b.den / Int.gcd a.den b.den))

theorem checkedAdd_cases (h : a.checkedAdd b = some r) :
    AddFits a b ∧ r.value = a.value + b.value := by
  obtain ⟨left, hleft, h⟩ := Option.bind_eq_some_iff.mp h
  obtain ⟨right, hright, h⟩ := Option.bind_eq_some_iff.mp h
  obtain ⟨num, hnum, h⟩ := Option.bind_eq_some_iff.mp h
  obtain ⟨den, hden, h⟩ := Option.bind_eq_some_iff.mp h
  have hleft := I128.checked_eq_some.mp hleft
  have hright := I128.checked_eq_some.mp hright
  have hnum := I128.checked_eq_some.mp hnum
  have hden := I128.checked_eq_some.mp hden
  obtain ⟨hbdiv, hadiv⟩ := den_tdiv a b
  rw [hbdiv] at hleft hden
  rw [hadiv] at hright
  rw [hleft, hright] at hnum
  refine ⟨⟨hleft ▸ left.property, hright ▸ right.property, hnum ▸ num.property, ?_,
    hden ▸ den.property⟩, ?_⟩
  · intro hmin
    rw [new_eq_none.mpr (.inr (.inl (hnum.trans hmin)))] at h
    cases h
  · rw [value_new h, hnum, hden]
    exact Fractions.add_over_common a.den_pos.ne' b.den_pos.ne' (Int.gcd_dvd_left _ _)
      (Int.gcd_dvd_right _ _)

theorem checkedAdd_of_fits (h : AddFits a b) : ∃ r, a.checkedAdd b = some r := by
  obtain ⟨hbdiv, hadiv⟩ := den_tdiv a b
  have hscale : 0 < b.den / (Int.gcd a.den b.den : Int) := Int.ediv_pos_of_pos_of_dvd b.den_pos
    (Int.natCast_nonneg _) (Int.gcd_dvd_right _ _)
  have hden : 0 < a.den * (b.den / (Int.gcd a.den b.den : Int)) := Int.mul_pos a.den_pos hscale
  cases hnew : new ⟨_, h.sum⟩ ⟨_, h.den⟩ with
  | none =>
    rcases new_eq_none.mp hnew with hzero | hmin | hmin
    · exact absurd hzero hden.ne'
    · exact absurd hmin h.sum_ne
    · exact absurd (hden.trans_eq hmin) (by decide)
  | some r =>
    refine ⟨r, ?_⟩
    simp only [checkedAdd]
    rw [hbdiv, hadiv, I128.checkedMul, I128.checked_of_fits h.left, I128.checkedMul,
      I128.checked_of_fits h.right, I128.checkedMul, I128.checked_of_fits h.den]
    show (I128.checkedAdd _ _ >>= _) = _
    rw [I128.checkedAdd, I128.checked_of_fits h.sum]
    exact hnew

theorem checkedAdd_eq_none : a.checkedAdd b = none ↔ ¬AddFits a b := by
  constructor
  · intro h hfits
    obtain ⟨r, hr⟩ := checkedAdd_of_fits hfits
    rw [hr] at h
    cases h
  · intro h
    cases hadd : a.checkedAdd b with
    | none => rfl
    | some r => exact absurd (checkedAdd_cases hadd).1 h

theorem checkedSub_eq (a b : Rat) : a.checkedSub b = a.checkedAdd b.negated := by
  rw [checkedSub, checkedNeg_eq]
  rfl

theorem value_checkedMul (h : a.checkedMul b = some r) : r.value = a.value * b.value := by
  obtain ⟨num, hnum, h⟩ := Option.bind_eq_some_iff.mp h
  obtain ⟨den, hden, h⟩ := Option.bind_eq_some_iff.mp h
  have hnum := I128.checked_eq_some.mp hnum
  have hden := I128.checked_eq_some.mp hden
  have hleft := gcd_eq (ne_min a.num_le) b.den_ne_min b.den_pos.ne'
  have hright := gcd_eq (ne_min b.num_le) a.den_ne_min a.den_pos.ne'
  rw [hleft, hright, Int.tdiv_eq_ediv_of_dvd (Int.gcd_dvd_left _ _),
    Int.tdiv_eq_ediv_of_dvd (Int.gcd_dvd_left _ _)] at hnum
  rw [hleft, hright, Int.tdiv_eq_ediv_of_dvd (Int.gcd_dvd_right _ _),
    Int.tdiv_eq_ediv_of_dvd (Int.gcd_dvd_right _ _)] at hden
  rw [value_new h, hnum, hden]
  exact Fractions.mul_cancelled a.den_pos.ne' b.den_pos.ne' (Int.gcd_dvd_left _ _)
    (Int.gcd_dvd_right _ _) (Int.gcd_dvd_left _ _) (Int.gcd_dvd_right _ _)

theorem value_checkedDiv (h : a.checkedDiv b = some r) :
    b.num ≠ 0 ∧ r.value = a.value / b.value := by
  unfold checkedDiv at h
  split at h
  · cases h
  · rename_i hne
    obtain ⟨inverse, hinverse, h⟩ := Option.bind_eq_some_iff.mp h
    refine ⟨hne, ?_⟩
    have hvalue : inverse.value = b.value⁻¹ := by
      rw [value_new hinverse, value, inv_div]
      rfl
    rw [value_checkedMul h, hvalue, div_eq_mul_inv]

theorem floor_eq (self : Rat) : self.floor = ⌊self.value⌋ := by
  rw [value, Fractions.floor_div self.den_pos]
  exact floorDiv_eq self.den_pos

/-- Cross products have the order of the values. -/
theorem compare_cross (a b : Rat) :
    compare (a.num * b.den) (b.num * a.den) = compare a.value b.value := by
  apply Fractions.compare_congr
  · rw [value, value, div_lt_div_iff₀ a.cast_den_pos b.cast_den_pos]
    exact_mod_cast Iff.rfl
  · rw [value, value, div_lt_div_iff₀ b.cast_den_pos a.cast_den_pos]
    exact_mod_cast Iff.rfl

/-- When a comparison stays in range: the cross products fit, or the whole parts
differ, or both numerators are at least what is left over above the bound. -/
def CmpFits (a b : Rat) : Prop :=
  (I128.Fits (a.num * b.den) ∧ I128.Fits (b.num * a.den)) ∨ a.num / a.den ≠ b.num / b.den ∨
    (I128.MIN ≤ a.num - a.num % a.den ∧ I128.MIN ≤ b.num - b.num % b.den)

theorem cmp_of_fits (h : CmpFits a b) : a.cmp b = some (compare a.value b.value) := by
  unfold cmp
  split
  · rename_i left right hleft hright
    rw [I128.checked_eq_some.mp hleft, I128.checked_eq_some.mp hright, compare_cross]
  · rename_i hcross
    rw [compareLoop_eq]
    · rfl
    · intro hwhole
      rw [Fraction.whole_eq, Fraction.whole_eq] at hwhole
      rw [Fraction.rest_isSome_iff, Fraction.rest_isSome_iff]
      rcases h with ⟨hleft, hright⟩ | hne | h
      · exact (hcross _ _ (I128.checked_of_fits hleft) (I128.checked_of_fits hright)).elim
      · exact absurd hwhole hne
      · exact h

theorem fits_of_cmp {ordering : Ordering} (h : a.cmp b = some ordering) : CmpFits a b := by
  unfold cmp at h
  split at h
  · rename_i left right hleft hright
    have hleft := I128.checked_eq_some.mp hleft
    have hright := I128.checked_eq_some.mp hright
    exact .inl ⟨hleft ▸ left.property, hright ▸ right.property⟩
  · by_cases hwhole : a.num / a.den = b.num / b.den
    · have hrest := compareLoop_isSome h (by
        rw [Fraction.whole_eq, Fraction.whole_eq]
        exact hwhole)
      rw [Fraction.rest_isSome_iff, Fraction.rest_isSome_iff] at hrest
      exact .inr (.inr hrest)
    · exact .inr (.inl hwhole)

/-- The exact result, or the bound on its side. -/
def Saturates (r : Rat) (exact : ℚ) : Prop :=
  r.value = exact ∨ (r = MAX ∧ 0 < exact) ∨ (r = MIN ∧ exact < 0)

theorem value_max_pos : 0 < MAX.value := by
  rw [value]
  exact div_pos (by exact_mod_cast (by decide : 0 < LIMIT)) MAX.cast_den_pos

theorem value_min_neg : MIN.value < 0 := by
  rw [value]
  exact div_neg_of_neg_of_pos (by exact_mod_cast (by decide : -LIMIT < 0)) MIN.cast_den_pos

theorem saturates_max {exact : ℚ} : Saturates MAX exact ↔ 0 < exact := by
  constructor
  · rintro (rfl | ⟨-, h⟩ | ⟨h, -⟩)
    · exact value_max_pos
    · exact h
    · exact absurd h (by decide)
  · exact fun h => .inr (.inl ⟨rfl, h⟩)

theorem saturates_min {exact : ℚ} : Saturates MIN exact ↔ exact < 0 := by
  constructor
  · rintro (rfl | ⟨h, -⟩ | ⟨-, h⟩)
    · exact value_min_neg
    · exact absurd h (by decide)
    · exact h
  · exact fun h => .inr (.inr ⟨rfl, h⟩)

theorem value_neg_iff (self : Rat) : self.value < 0 ↔ self.num < 0 := by
  rw [value, div_lt_iff₀ self.cast_den_pos, zero_mul]
  exact_mod_cast Iff.rfl

theorem isNegative_eq (self : Rat) : self.isNegative = decide (self.value < 0) := by
  exact decide_eq_decide.mpr self.value_neg_iff.symm

theorem value_eq_zero_iff (self : Rat) : self.value = 0 ↔ self.num = 0 := by
  rw [value, div_eq_zero_iff, or_iff_left self.cast_den_pos.ne']
  exact_mod_cast Iff.rfl

/-- The sign of a sum is the sign of the cross products' sum. -/
theorem value_add_neg_iff (a b : Rat) :
    a.value + b.value < 0 ↔ a.num * b.den + b.num * a.den < 0 := by
  rw [value, value, div_add_div _ _ a.cast_den_pos.ne' b.cast_den_pos.ne',
    div_lt_iff₀ (mul_pos a.cast_den_pos b.cast_den_pos), zero_mul, mul_comm (a.den : ℚ)]
  exact_mod_cast Iff.rfl

/-- Opposite values add up to zero without leaving the range. -/
theorem value_add_ne_zero (h : ¬AddFits a b) : a.value + b.value ≠ 0 := by
  intro hzero
  have hb : b = a.negated := by
    apply value_inj
    rw [value_negated]
    exact (neg_eq_of_add_eq_zero_right hzero).symm
  apply h
  have hg : (Int.gcd a.den a.den : Int) = a.den := by
    rw [Int.gcd_self, Int.natAbs_of_nonneg a.den_pos.le]
  have hone : a.den / (Int.gcd a.den b.den : Int) = 1 := by
    rw [hb]
    show a.den / (Int.gcd a.den a.den : Int) = 1
    rw [hg, Int.ediv_self a.den_pos.ne']
  have hone' : b.den / (Int.gcd a.den b.den : Int) = 1 := by
    rw [hb]
    show a.den / (Int.gcd a.den a.den : Int) = 1
    rw [hg, Int.ediv_self a.den_pos.ne']
  have hnum : b.num = -a.num := by rw [hb]; rfl
  have hfits := fits_of_natAbs_le b.num_le
  refine ⟨?_, ?_, ?_, ?_, ?_⟩ <;> simp only [hone, hone', Int.mul_one]
  · exact a.num128.property
  · exact b.num128.property
  · rw [hnum, Int.add_right_neg]
    decide
  · rw [hnum, Int.add_right_neg]
    decide
  · exact a.den128.property

theorem add_saturates_iff (a b : Rat) : Saturates (a.add b) (a.value + b.value) ↔
    AddFits a b ∨ (b.num < 0 ↔ a.num * b.den + b.num * a.den < 0) := by
  rw [add, ← value_add_neg_iff]
  cases hadd : a.checkedAdd b with
  | some r =>
    obtain ⟨hfits, hvalue⟩ := checkedAdd_cases hadd
    exact ⟨fun _ => .inl hfits, fun _ => .inl hvalue⟩
  | none =>
    have hfits := checkedAdd_eq_none.mp hadd
    have hne := value_add_ne_zero hfits
    rw [or_iff_right hfits, Option.getD_none]
    by_cases hneg : b.num < 0
    · rw [if_pos (by simpa [isNegative] using hneg), saturates_min, iff_true_left hneg]
    · rw [if_neg (by simpa [isNegative] using hneg), saturates_max, iff_false_left hneg, not_lt,
        hne.symm.le_iff_lt]

theorem sub_saturates_iff (a b : Rat) : Saturates (a.sub b) (a.value - b.value) ↔
    AddFits a b.negated ∨ (b.num < 0 ↔ 0 < a.num * b.den - b.num * a.den) := by
  have hsub : a.value - b.value = a.value + b.negated.value := by
    rw [value_negated, sub_eq_add_neg]
  have hsign : 0 < a.num * b.den - b.num * a.den ↔ 0 < a.value - b.value := by
    rw [value, value, div_sub_div _ _ a.cast_den_pos.ne' b.cast_den_pos.ne',
      div_pos_iff_of_pos_right (mul_pos a.cast_den_pos b.cast_den_pos), mul_comm (a.den : ℚ)]
    exact_mod_cast Iff.rfl
  rw [sub, hsign, checkedSub_eq, hsub]
  cases hadd : a.checkedAdd b.negated with
  | some r =>
    obtain ⟨hfits, hvalue⟩ := checkedAdd_cases hadd
    exact ⟨fun _ => .inl hfits, fun _ => .inl hvalue⟩
  | none =>
    have hfits := checkedAdd_eq_none.mp hadd
    have hne := value_add_ne_zero hfits
    rw [or_iff_right hfits, Option.getD_none]
    by_cases hneg : b.num < 0
    · rw [if_pos (by simpa [isNegative] using hneg), saturates_max, iff_true_left hneg]
    · rw [if_neg (by simpa [isNegative] using hneg), saturates_min, iff_false_left hneg, not_lt,
        hne.le_iff_lt]

/-- A product with zero fits. -/
theorem checkedMul_zero (h : a.num = 0 ∨ b.num = 0) : ∃ r, a.checkedMul b = some r := by
  have hleft := gcd_eq (ne_min a.num_le) b.den_ne_min b.den_pos.ne'
  have hright := gcd_eq (ne_min b.num_le) a.den_ne_min a.den_pos.ne'
  have hself : ∀ r : Rat, r.num = 0 → r.den = 1 := by
    intro r hr
    have hcoprime := r.coprime
    rw [hr, Int.zero_gcd] at hcoprime
    have hpos := r.den_pos
    omega
  have hnum : a.num.tdiv (gcd a.num b.den) * b.num.tdiv (gcd b.num a.den) = 0 := by
    rcases h with h | h
    · rw [h, Int.zero_tdiv, Int.zero_mul]
    · rw [h, Int.zero_tdiv, Int.mul_zero]
  have hden : a.den.tdiv (gcd b.num a.den) * b.den.tdiv (gcd a.num b.den) = 1 := by
    rw [hleft, hright]
    rcases h with h | h
    · rw [h, hself a h, Int.zero_gcd, Int.natAbs_of_nonneg b.den_pos.le, Int.gcd_one_right,
        Int.tdiv_self b.den_pos.ne']
      rfl
    · rw [h, hself b h, Int.zero_gcd, Int.natAbs_of_nonneg a.den_pos.le, Int.gcd_one_right,
        Int.tdiv_self a.den_pos.ne']
      rfl
  refine ⟨normalise 0 1 (by decide) (by decide) (by decide), ?_⟩
  simp only [checkedMul, I128.checkedMul]
  rw [hnum, hden]
  rfl

theorem mul_saturates (a b : Rat) : Saturates (a.mul b) (a.value * b.value) := by
  rw [mul]
  cases hmul : a.checkedMul b with
  | some r => exact .inl (value_checkedMul hmul)
  | none =>
    have hzero : ¬(a.num = 0 ∨ b.num = 0) := by
      intro h
      obtain ⟨r, hr⟩ := checkedMul_zero h
      rw [hmul] at hr
      cases hr
    obtain ⟨ha, hb⟩ := not_or.mp hzero
    have ha' := mt a.value_eq_zero_iff.mp ha
    have hb' := mt b.value_eq_zero_iff.mp hb
    rw [Option.getD_none, isNegative_eq, isNegative_eq]
    rcases lt_or_gt_of_ne ha' with hna | hpa <;> rcases lt_or_gt_of_ne hb' with hnb | hpb
    · simpa [hna, hnb] using saturates_max.mpr (mul_pos_of_neg_of_neg hna hnb)
    · simpa [hna, hpb.not_gt] using saturates_min.mpr (mul_neg_of_neg_of_pos hna hpb)
    · simpa [hpa.not_gt, hnb] using saturates_min.mpr (mul_neg_of_pos_of_neg hpa hnb)
    · simpa [hpa.not_gt, hpb.not_gt] using saturates_max.mpr (mul_pos hpa hpb)

theorem neg_saturates (a : Rat) : Saturates a.neg (-a.value) := by
  rw [neg, checkedNeg_eq]
  exact .inl a.value_negated

/-- What exact rationals promise about two values. -/
structure Exact (a b : Rat) : Prop where
  normal : ∀ r ∈ [a, b], 0 < r.den ∧ Int.gcd r.num r.den = 1 ∧
    (I128.Fits r.num ∧ r.num ≠ I128.MIN) ∧ I128.Fits r.den ∧ r.den ≠ I128.MIN
  checkedAdd : ∀ r, a.checkedAdd b = some r → r.value = a.value + b.value
  checkedSub : ∀ r, a.checkedSub b = some r → r.value = a.value - b.value
  checkedMul : ∀ r, a.checkedMul b = some r → r.value = a.value * b.value
  checkedDiv : ∀ r, a.checkedDiv b = some r → b.value ≠ 0 ∧ r.value = a.value / b.value
  cmp : a.cmp b = some (compare a.value b.value)
  cmp_eq : a.cmp b = some .eq ↔ a = b
  floor : a.floor = ⌊a.value⌋
  add : Saturates (a.add b) (a.value + b.value)
  sub : Saturates (a.sub b) (a.value - b.value)
  mul : Saturates (a.mul b) (a.value * b.value)
  neg : Saturates a.neg (-a.value)

theorem value_checkedSub (h : a.checkedSub b = some r) : r.value = a.value - b.value := by
  rw [checkedSub_eq] at h
  rw [(checkedAdd_cases h).2, value_negated, sub_eq_add_neg]

theorem normal (self : Rat) : 0 < self.den ∧ Int.gcd self.num self.den = 1 ∧
    (I128.Fits self.num ∧ self.num ≠ I128.MIN) ∧ I128.Fits self.den ∧ self.den ≠ I128.MIN :=
  ⟨self.den_pos, self.coprime, ⟨self.num128.property, ne_min self.num_le⟩, self.den128.property,
    self.den_ne_min⟩

/-- All of it holds of two values exactly when comparing them stays in range and
a sum or difference that does not fit has the sign its bound is chosen by. -/
theorem exact_iff (a b : Rat) : Exact a b ↔
    CmpFits a b ∧
    (AddFits a b ∨ (b.num < 0 ↔ a.num * b.den + b.num * a.den < 0)) ∧
    (AddFits a b.negated ∨ (b.num < 0 ↔ 0 < a.num * b.den - b.num * a.den)) := by
  constructor
  · intro h
    exact ⟨fits_of_cmp h.cmp, (add_saturates_iff a b).mp h.add, (sub_saturates_iff a b).mp h.sub⟩
  · rintro ⟨hcmp, hadd, hsub⟩
    have hordering := cmp_of_fits hcmp
    refine
      { normal := fun r _ => r.normal
        checkedAdd := fun r h => (checkedAdd_cases h).2
        checkedSub := fun r h => value_checkedSub h
        checkedMul := fun r h => value_checkedMul h
        checkedDiv := fun r h => ?_
        cmp := hordering
        cmp_eq := ?_
        floor := a.floor_eq
        add := (add_saturates_iff a b).mpr hadd
        sub := (sub_saturates_iff a b).mpr hsub
        mul := mul_saturates a b
        neg := neg_saturates a }
    · obtain ⟨hnum, hvalue⟩ := value_checkedDiv h
      exact ⟨mt b.value_eq_zero_iff.mp hnum, hvalue⟩
    · rw [hordering, Option.some_inj, compare_eq_iff_eq]
      exact ⟨value_inj, fun h => congrArg value h⟩

/-- A third below zero, and the value in thirds that is nearest the lower bound. -/
def minusThird : Rat := ⟨-1, 3, by decide, by decide, by decide, by decide⟩

def lowest : Rat := ⟨-LIMIT, 3, by decide, by decide, by decide, by decide⟩

/-- The largest value less a third saturates at the lower bound, and comparing
the lowest thirds overflows. -/
theorem not_exact : ¬Exact MAX minusThird ∧ ¬Exact lowest lowest := by
  constructor
  · intro h
    rcases (add_saturates_iff MAX minusThird).mp h.add with hfits | hsign
    · exact absurd hfits.left (by decide)
    · exact absurd hsign (by decide)
  · intro h
    exact absurd (fits_of_cmp h.cmp) (by unfold CmpFits; decide)

end Rat

end Cairn.Ports.Incentive
