import Cairn.Verified.Limbs
import Mathlib.Data.Nat.Log

/-!
# Natural numbers in words

`Nat` of `src/crypto/bignum.rs`, here `BigNat`: words of 64 bits, least significant
first, with no zero at the top. The invariant is a field, so a number has one
representation and equality of representations is equality of numbers.

A carry is a `u128`. Products are taken modulo `2 ^ 128` as the source does, and the
row lemma shows that nothing is lost. A row and a carry that run past the last
word return what was left over: the source panics there in `mul` and stops in
`redc`, and the multiplication lemma shows that nothing is left.
-/

namespace Cairn.Ports.Crypto

open Cairn.Verified Cairn.Verified.Limbs

structure BigNat where
  limbs : List UInt64
  trimmed : Trimmed limbs
deriving DecidableEq

namespace BigNat

/-- The number represented. -/
def value (n : BigNat) : Nat := Limbs.value n.limbs

/-- `normalise`. -/
def ofLimbs (limbs : List UInt64) : BigNat := ⟨trim limbs, trimmed_trim limbs⟩

def zero : BigNat := ⟨[], nofun⟩

def one : BigNat := ⟨[1], by decide⟩

def fromU64 (value : UInt64) : BigNat := ofLimbs [value]

def isZero (n : BigNat) : Bool := n.limbs.isEmpty

def isOdd (n : BigNat) : Bool := n.limbs.head?.any fun limb => limb &&& 1 == 1

/-- `u64::leading_zeros`. -/
def leadingZeros (x : UInt64) : Nat := if x = 0 then 64 else 63 - Nat.log 2 x.toNat

def bits (n : BigNat) : Nat :=
  match n.limbs.getLast? with
  | none => 0
  | some top => n.limbs.length * 64 - leadingZeros top

/-- Bit `index`, counting from the least significant. -/
def bit (n : BigNat) (index : Nat) : Bool :=
  match n.limbs[index / 64]? with
  | none => false
  | some limb => (limb >>> UInt64.ofNat (index % 64)) &&& 1 == 1

def toU128 (n : BigNat) : Option Nat :=
  if 2 < n.limbs.length then none
  else some ((n.limbs.getD 1 0).toNat * 2 ^ 64 + (n.limbs.getD 0 0).toNat)

/-- Ordering by value: by length, then from the top word down. -/
def cmp (a b : BigNat) : Ordering :=
  match compare a.limbs.length b.limbs.length with
  | .eq => compareTop a.limbs.reverse b.limbs.reverse
  | other => other

/-! ## Addition and subtraction -/

/-- The loop of `add` from a place on. -/
def addFrom : Nat → List UInt64 → List UInt64 → Nat → List UInt64
  | 0, _, _, carry => if 0 < carry then [UInt64.ofNat carry] else []
  | count + 1, as, bs, carry =>
    let sum := (as.headD 0).toNat + (bs.headD 0).toNat + carry
    UInt64.ofNat sum :: addFrom count as.tail bs.tail (sum / base)

def add (a b : BigNat) : BigNat :=
  ofLimbs (addFrom (max a.limbs.length b.limbs.length) a.limbs b.limbs 0)

/-- The loop of `sub` from a place on. -/
def subFrom : List UInt64 → List UInt64 → Nat → List UInt64
  | [], _, _ => []
  | a :: as, bs, borrow =>
    let diff := (a.toNat : Int) - (bs.headD 0).toNat - borrow
    if diff < 0 then UInt64.ofNat (diff + base).toNat :: subFrom as bs.tail 1
    else UInt64.ofNat diff.toNat :: subFrom as bs.tail 0

/-- `self - other`, which the caller must know is non-negative. -/
def sub (a b : BigNat) : BigNat := ofLimbs (subFrom a.limbs b.limbs 0)

/-! ## Multiplication -/

/-- `while carry > 0`: a carry added from a place on, and what is left of it past
the last word. -/
def carryOn : List UInt64 → Nat → List UInt64 × Nat
  | acc, 0 => (acc, 0)
  | [], carry + 1 => ([], carry + 1)
  | x :: acc, carry + 1 =>
    let sum := x.toNat + (carry + 1)
    let rest := carryOn acc (sum / base)
    (UInt64.ofNat sum :: rest.1, rest.2)

/-- One row: `a` times the words of `bs`, added from a place on. -/
def mulRow (a : UInt64) : List UInt64 → List UInt64 → Nat → List UInt64 × Nat
  | [], acc, carry => carryOn acc carry
  | _ :: _, [], carry => ([], carry)
  | b :: bs, x :: acc, carry =>
    let product := (a.toNat * b.toNat + x.toNat + carry) % 2 ^ 128
    let rest := mulRow a bs acc (product / base)
    (UInt64.ofNat product :: rest.1, rest.2)

/-- A row added from place `i` on. -/
def addRow (a : UInt64) (bs : List UInt64) (i : Nat) (limbs : List UInt64) : List UInt64 :=
  limbs.take i ++ (mulRow a bs (limbs.drop i) 0).1

/-- The rows of `mul`, each one word further on. -/
def mulFrom (bs : List UInt64) : Nat → List UInt64 → List UInt64 → List UInt64
  | _, [], limbs => limbs
  | i, a :: as, limbs =>
    mulFrom bs (i + 1) as (addRow a bs i limbs)

def mul (a b : BigNat) : BigNat :=
  if a.isZero || b.isZero then zero
  else
    ofLimbs (mulFrom b.limbs 0 a.limbs (List.replicate (a.limbs.length + b.limbs.length) 0))

/-! ## Shifting -/

/-- The loop of `shl` for a shift within a word. -/
def shlFrom (part : Nat) : List UInt64 → UInt64 → List UInt64
  | [], carry => if part ≠ 0 ∧ carry ≠ 0 then [carry] else []
  | limb :: limbs, carry =>
    if part = 0 then limb :: shlFrom part limbs carry
    else
      ((limb <<< UInt64.ofNat part) ||| carry) ::
        shlFrom part limbs (limb >>> UInt64.ofNat (64 - part))

def shl (n : BigNat) (bits : Nat) : BigNat :=
  if n.isZero then zero
  else ofLimbs (List.replicate (bits / 64) 0 ++ shlFrom (bits % 64) n.limbs 0)

/-! ## Division -/

/-- A bit of the dividend brought down behind a remainder. -/
def pullBit (a remainder : BigNat) (index : Nat) : BigNat :=
  if a.bit index then (remainder.shl 1).add one else remainder.shl 1

/-- One bit of a long division: the words of the quotient and the remainder. -/
def divStep (a divisor : BigNat) (state : List UInt64 × BigNat) (index : Nat) :
    List UInt64 × BigNat :=
  let remainder := pullBit a state.2 index
  if remainder.cmp divisor ≠ .lt then
    (if index / 64 < state.1.length then setBit state.1 index else state.1,
      remainder.sub divisor)
  else (state.1, remainder)

/-- Long division, one bit at a time from the top. The source asserts that the
divisor is not zero. -/
def divrem (a divisor : BigNat) (_ : divisor.isZero = false) : BigNat × BigNat :=
  if a.cmp divisor = .lt then (zero, a)
  else
    let out := (List.range a.bits).reverse.foldl (divStep a divisor)
      (List.replicate a.limbs.length 0, zero)
    (ofLimbs out.1, out.2)

def rem (a modulus : BigNat) (h : modulus.isZero = false) : BigNat := (a.divrem modulus h).2

/-! ## One representation a number -/

@[simp] theorem value_ofLimbs (limbs : List UInt64) : (ofLimbs limbs).value = Limbs.value limbs :=
  value_trim limbs

theorem value_injective {a b : BigNat} (h : a.value = b.value) : a = b := by
  obtain ⟨as, ha⟩ := a
  obtain ⟨bs, hb⟩ := b
  obtain rfl : as = bs := eq_of_trimmed ha hb h
  rfl

@[simp] theorem value_zero : zero.value = 0 := rfl

@[simp] theorem value_one : one.value = 1 := rfl

@[simp] theorem value_fromU64 (x : UInt64) : (fromU64 x).value = x.toNat := by
  rw [fromU64, value_ofLimbs, value_singleton]

theorem isZero_iff (n : BigNat) : n.isZero = true ↔ n.value = 0 := by
  rw [isZero, List.isEmpty_iff]
  constructor
  · intro h
    rw [value, h, Limbs.value_nil]
  · intro h
    exact congrArg limbs (value_injective (b := zero) h)

theorem value_pos_of_isZero {n : BigNat} (h : n.isZero = false) : 0 < n.value := by
  refine Nat.pos_of_ne_zero fun h0 => ?_
  rw [(isZero_iff n).mpr h0] at h
  cases h

/-- Comparison is by value. -/
theorem cmp_eq (a b : BigNat) : a.cmp b = compare a.value b.value := by
  unfold cmp
  rcases Nat.lt_trichotomy a.limbs.length b.limbs.length with hlt | heq | hgt
  · rw [Nat.compare_eq_lt.mpr hlt]
    exact (Nat.compare_eq_lt.mpr (value_lt_of_length_lt b.trimmed hlt)).symm
  · rw [Nat.compare_eq_eq.mpr heq]
    have htop := @compareTop_eq a.limbs.reverse b.limbs.reverse
      (by rw [List.length_reverse, List.length_reverse, heq])
    rw [List.reverse_reverse, List.reverse_reverse] at htop
    exact htop
  · rw [Nat.compare_eq_gt.mpr hgt]
    exact (Nat.compare_eq_gt.mpr (value_lt_of_length_lt a.trimmed hgt)).symm

theorem cmp_eq_lt_iff (a b : BigNat) : a.cmp b = .lt ↔ a.value < b.value := by
  rw [cmp_eq, Nat.compare_eq_lt]

/-! ## Addition and subtraction are exact -/

theorem toNat_ofNat_add (n : Nat) : (UInt64.ofNat n).toNat + base * (n / base) = n := by
  rw [UInt64.toNat_ofNat']
  exact Nat.mod_add_div n (2 ^ 64)

theorem value_eq_head_tail (xs : List UInt64) :
    Limbs.value xs = (xs.headD 0).toNat + base * Limbs.value xs.tail := by
  cases xs <;> rfl

theorem value_addFrom (count : Nat) {as bs : List UInt64} {carry : Nat} (ha : as.length ≤ count)
    (hb : bs.length ≤ count) (hcarry : carry < base) :
    Limbs.value (addFrom count as bs carry) = Limbs.value as + Limbs.value bs + carry := by
  induction count generalizing as bs carry with
  | zero =>
    rw [List.length_eq_zero_iff.mp (Nat.le_zero.mp ha),
      List.length_eq_zero_iff.mp (Nat.le_zero.mp hb), addFrom]
    split_ifs with hpos
    · rw [value_singleton, UInt64.toNat_ofNat_of_lt' hcarry]
      simp
    · simp only [Limbs.value_nil]
      omega
  | succ count ih =>
    have hx := toNat_lt_base (as.headD 0)
    have hy := toNat_lt_base (bs.headD 0)
    have hsum := toNat_ofNat_add ((as.headD 0).toNat + (bs.headD 0).toNat + carry)
    have hnext : ((as.headD 0).toNat + (bs.headD 0).toNat + carry) / base < base := by
      unfold base at *
      omega
    have hrest := @ih as.tail bs.tail _ (by rw [List.length_tail]; omega)
      (by rw [List.length_tail]; omega) hnext
    rw [addFrom, Limbs.value_cons, hrest, value_eq_head_tail as, value_eq_head_tail bs]
    rw [Nat.mul_add, Nat.mul_add]
    omega

theorem value_add (a b : BigNat) : (a.add b).value = a.value + b.value := by
  rw [add, value_ofLimbs, value_addFrom _ (Nat.le_max_left _ _) (Nat.le_max_right _ _) (by decide)]
  rfl

/-- The loop of `sub` with what the last borrow would take from a word above the last. -/
theorem value_subFrom (as bs : List UInt64) {borrow : Nat} (hborrow : borrow ≤ 1) :
    ∃ wraps, Limbs.value (subFrom as bs borrow) + Limbs.value bs + borrow =
      Limbs.value as + base ^ as.length * wraps := by
  induction as generalizing bs borrow with
  | nil => exact ⟨Limbs.value bs + borrow, by simp [subFrom]⟩
  | cons a as ih =>
    have ha := toNat_lt_base a
    have hb := toNat_lt_base (bs.headD 0)
    rw [value_eq_head_tail bs, Limbs.value_cons a as, List.length_cons, Nat.pow_succ, subFrom]
    unfold base at ha hb ⊢
    split_ifs with hneg
    · have hword : (UInt64.ofNat
          ((a.toNat : Int) - (bs.headD 0).toNat - borrow + (2 ^ 64 : Nat)).toNat).toNat =
          2 ^ 64 + a.toNat - (bs.headD 0).toNat - borrow := by
        rw [UInt64.toNat_ofNat_of_lt' (show _ < 2 ^ 64 by omega)]
        omega
      obtain ⟨wraps, hrest⟩ := @ih bs.tail 1 le_rfl
      have hscaled := congrArg (2 ^ 64 * ·) hrest
      refine ⟨wraps, ?_⟩
      rw [Limbs.value_cons, hword, Nat.mul_comm ((2 ^ 64) ^ as.length), Nat.mul_assoc]
      simp only [Nat.mul_add] at hscaled
      unfold base at hscaled ⊢
      omega
    · have hword : (UInt64.ofNat ((a.toNat : Int) - (bs.headD 0).toNat - borrow).toNat).toNat =
          a.toNat - (bs.headD 0).toNat - borrow := by
        rw [UInt64.toNat_ofNat_of_lt' (show _ < 2 ^ 64 by omega)]
        omega
      obtain ⟨wraps, hrest⟩ := @ih bs.tail 0 (Nat.zero_le 1)
      have hscaled := congrArg (2 ^ 64 * ·) hrest
      refine ⟨wraps, ?_⟩
      rw [Limbs.value_cons, hword, Nat.mul_comm ((2 ^ 64) ^ as.length), Nat.mul_assoc]
      simp only [Nat.mul_add] at hscaled
      unfold base at hscaled ⊢
      omega

theorem length_subFrom (as bs : List UInt64) (borrow : Nat) :
    (subFrom as bs borrow).length = as.length := by
  induction as generalizing bs borrow with
  | nil => rfl
  | cons a as ih =>
    rw [subFrom]
    split_ifs <;> rw [List.length_cons, List.length_cons, ih]

/-- A difference is taken modulo the room of the words of `self`: the last borrow is
dropped. -/
theorem value_sub_wraps (a b : BigNat) :
    (a.sub b).value < base ^ a.limbs.length ∧
      ∃ wraps, (a.sub b).value + b.value = a.value + base ^ a.limbs.length * wraps := by
  obtain ⟨wraps, hsub⟩ := value_subFrom a.limbs b.limbs (Nat.zero_le 1)
  have hlt := value_lt (subFrom a.limbs b.limbs 0)
  rw [length_subFrom] at hlt
  rw [sub, value_ofLimbs]
  exact ⟨hlt, wraps, hsub⟩

/-- Subtraction is exact where the difference is not negative. -/
theorem value_sub {a b : BigNat} (h : b.value ≤ a.value) : (a.sub b).value = a.value - b.value := by
  obtain ⟨hlt, wraps, hsub⟩ := value_sub_wraps a b
  cases wraps with
  | zero => omega
  | succ wraps =>
    rw [Nat.mul_succ] at hsub
    omega

/-- Subtraction past zero gives zero only where the difference is a multiple of the room of
the words of `self`; the result is normalised either way. -/
theorem sub_truncated_iff (a b : BigNat) :
    ((a.sub b).value = a.value - b.value ∧ Trimmed (a.sub b).limbs) ↔
      b.value ≤ a.value ∨ base ^ a.limbs.length ∣ b.value - a.value := by
  rw [and_iff_left (a.sub b).trimmed]
  rcases Nat.lt_or_ge a.value b.value with hgt | hle
  · obtain ⟨hlt, wraps, hsub⟩ := value_sub_wraps a b
    rw [Nat.sub_eq_zero_of_le hgt.le, or_iff_right hgt.not_ge]
    constructor
    · intro hzero
      exact ⟨wraps, by omega⟩
    · rintro ⟨k, hk⟩
      have hmul : (a.sub b).value + base ^ a.limbs.length * k =
          base ^ a.limbs.length * wraps := by omega
      have hmod := congrArg (· % base ^ a.limbs.length) hmul
      simp only [Nat.add_mul_mod_self_left, Nat.mul_mod_right] at hmod
      rwa [Nat.mod_eq_of_lt hlt] at hmod
  · exact iff_of_true (value_sub hle) (.inl hle)

/-- One less two is the largest word. -/
theorem sub_not_truncated : ¬((one.sub (fromU64 2)).value = one.value - (fromU64 2).value ∧
    Trimmed (one.sub (fromU64 2)).limbs) := by
  decide

/-! ## Multiplication is exact -/

theorem length_carryOn (acc : List UInt64) (carry : Nat) :
    (carryOn acc carry).1.length = acc.length := by
  induction acc generalizing carry with
  | nil => cases carry <;> rfl
  | cons x acc ih =>
    cases carry with
    | zero => rfl
    | succ carry => rw [carryOn, List.length_cons, ih, List.length_cons]

/-- What a carry adds, with what is left of it past the last word. -/
theorem value_carryOn (acc : List UInt64) (carry : Nat) :
    Limbs.value (carryOn acc carry).1 + base ^ acc.length * (carryOn acc carry).2 =
      Limbs.value acc + carry := by
  induction acc generalizing carry with
  | nil => cases carry <;> simp [carryOn]
  | cons x acc ih =>
    cases carry with
    | zero => simp [carryOn]
    | succ carry =>
      have hsum := toNat_ofNat_add (x.toNat + (carry + 1))
      have hrest := ih ((x.toNat + (carry + 1)) / base)
      have hrest' := congrArg (base * ·) hrest
      simp only [Nat.mul_add] at hrest'
      rw [carryOn, Limbs.value_cons, Limbs.value_cons, List.length_cons, Nat.pow_succ,
        Nat.mul_comm (base ^ acc.length), Nat.mul_assoc]
      simp only
      omega

/-- A product of words with two words added is below `2 ^ 128`. -/
theorem product_lt (a b x : UInt64) {carry : Nat} (hcarry : carry < base) :
    a.toNat * b.toNat + x.toNat + carry < base * base := by
  have ha := toNat_lt_base a
  have hb := toNat_lt_base b
  have hx := toNat_lt_base x
  have hmul : a.toNat * b.toNat ≤ (base - 1) * (base - 1) :=
    Nat.mul_le_mul (by omega) (by omega)
  unfold base at *
  omega

theorem length_mulRow (a : UInt64) {bs acc : List UInt64} {carry : Nat}
    (h : bs.length ≤ acc.length) : (mulRow a bs acc carry).1.length = acc.length := by
  induction bs generalizing acc carry with
  | nil => exact length_carryOn acc carry
  | cons b bs ih =>
    cases acc with
    | nil => cases h
    | cons x acc => rw [mulRow, List.length_cons, ih (by simpa using h), List.length_cons]

/-- What a row adds, with what is left of its carry past the last word. -/
theorem value_mulRow (a : UInt64) {bs acc : List UInt64} {carry : Nat}
    (h : bs.length ≤ acc.length) (hcarry : carry < base) :
    Limbs.value (mulRow a bs acc carry).1 + base ^ acc.length * (mulRow a bs acc carry).2 =
      Limbs.value acc + a.toNat * Limbs.value bs + carry := by
  induction bs generalizing acc carry with
  | nil =>
    rw [Limbs.value_nil, Nat.mul_zero, Nat.add_zero]
    exact value_carryOn acc carry
  | cons b bs ih =>
    cases acc with
    | nil => cases h
    | cons x acc =>
      have hlt := product_lt a b x hcarry
      have hsum := toNat_ofNat_add (a.toNat * b.toNat + x.toNat + carry)
      have hnext : (a.toNat * b.toNat + x.toNat + carry) / base < base :=
        Nat.div_lt_of_lt_mul hlt
      have hrest := congrArg (base * ·) (@ih acc _ (by simpa using h) hnext)
      simp only [Nat.mul_add] at hrest
      have hmod : (a.toNat * b.toNat + x.toNat + carry) % 2 ^ 128 =
          a.toNat * b.toNat + x.toNat + carry := Nat.mod_eq_of_lt hlt
      have hassoc : base * (a.toNat * Limbs.value bs) = a.toNat * (base * Limbs.value bs) :=
        Nat.mul_left_comm _ _ _
      rw [mulRow, hmod, Limbs.value_cons, Limbs.value_cons, Limbs.value_cons, List.length_cons,
        Nat.pow_succ, Nat.mul_comm (base ^ acc.length), Nat.mul_assoc, Nat.mul_add]
      simp only
      omega

/-- Where the sum fits the words, nothing of a row's carry is left. -/
theorem value_mulRow_of_lt (a : UInt64) {bs acc : List UInt64} (h : bs.length ≤ acc.length)
    (hlt : Limbs.value acc + a.toNat * Limbs.value bs < base ^ acc.length) :
    (mulRow a bs acc 0).2 = 0 ∧
      Limbs.value (mulRow a bs acc 0).1 = Limbs.value acc + a.toNat * Limbs.value bs := by
  have hrow := @value_mulRow a bs acc 0 h (by decide)
  have hzero : (mulRow a bs acc 0).2 = 0 := by
    by_contra hne
    have hle : base ^ acc.length * 1 ≤ base ^ acc.length * (mulRow a bs acc 0).2 :=
      Nat.mul_le_mul_left _ (Nat.pos_of_ne_zero hne)
    omega
  rw [hzero, Nat.mul_zero] at hrow
  exact ⟨hzero, hrow⟩

theorem length_addRow (a : UInt64) {bs limbs : List UInt64} {i : Nat}
    (h : i + bs.length ≤ limbs.length) : (addRow a bs i limbs).length = limbs.length := by
  rw [addRow, List.length_append, List.length_take_of_le (by omega),
    length_mulRow a (by rw [List.length_drop]; omega), List.length_drop]
  omega

/-- A row that fits adds the product at its place, and no index runs past the last
word. -/
theorem value_addRow (a : UInt64) {bs limbs : List UInt64} {i : Nat}
    (h : i + bs.length ≤ limbs.length)
    (hlt : Limbs.value limbs + base ^ i * (a.toNat * Limbs.value bs) < base ^ limbs.length) :
    (mulRow a bs (limbs.drop i) 0).2 = 0 ∧
      Limbs.value (addRow a bs i limbs) =
        Limbs.value limbs + base ^ i * (a.toNat * Limbs.value bs) := by
  have hi : i ≤ limbs.length := by omega
  have hsplit := value_take_add_drop i limbs hi
  have hpow : base ^ limbs.length = base ^ i * base ^ (limbs.drop i).length := by
    rw [List.length_drop, ← Nat.pow_add, Nat.add_sub_cancel' hi]
  have hfits : Limbs.value (limbs.drop i) + a.toNat * Limbs.value bs <
      base ^ (limbs.drop i).length := by
    refine Nat.lt_of_mul_lt_mul_left (a := base ^ i) ?_
    rw [← hpow, Nat.mul_add]
    omega
  obtain ⟨hzero, hrow⟩ := value_mulRow_of_lt a (by rw [List.length_drop]; omega) hfits
  refine ⟨hzero, ?_⟩
  rw [addRow, value_append, List.length_take_of_le hi, hrow, Nat.mul_add, hsplit]
  omega

theorem value_mulFrom {bs : List UInt64} {i : Nat} {as limbs : List UInt64}
    (h : i + as.length + bs.length ≤ limbs.length)
    (hlt : Limbs.value limbs + base ^ i * (Limbs.value as * Limbs.value bs) <
      base ^ limbs.length) :
    Limbs.value (mulFrom bs i as limbs) =
      Limbs.value limbs + base ^ i * (Limbs.value as * Limbs.value bs) := by
  induction as generalizing i limbs with
  | nil => rw [mulFrom, Limbs.value_nil, Nat.zero_mul, Nat.mul_zero, Nat.add_zero]
  | cons a as ih =>
    have hsplit : base ^ i * (Limbs.value (a :: as) * Limbs.value bs) =
        base ^ i * (a.toNat * Limbs.value bs) +
          base ^ (i + 1) * (Limbs.value as * Limbs.value bs) := by
      rw [Limbs.value_cons, Nat.pow_succ]
      ring
    rw [List.length_cons] at h
    have hlength := @length_addRow a bs limbs i (by omega)
    have hvalue := (@value_addRow a bs limbs i (by omega)
      (by omega)).2
    rw [mulFrom, ih (by omega) (by rw [hvalue, hlength]; omega), hvalue, hsplit]
    omega

/-- Multiplication is exact. -/
theorem value_mul (a b : BigNat) : (a.mul b).value = a.value * b.value := by
  rw [mul]
  split_ifs with h
  · rw [Bool.or_eq_true, isZero_iff, isZero_iff] at h
    rcases h with h | h <;> rw [h] <;> simp
  · have hlt : a.value * b.value < base ^ (a.limbs.length + b.limbs.length) := by
      rw [Nat.pow_add]
      exact Nat.mul_lt_mul'' (value_lt a.limbs) (value_lt b.limbs)
    have hmul := @value_mulFrom b.limbs 0 a.limbs
      (List.replicate (a.limbs.length + b.limbs.length) 0)
      (by rw [List.length_replicate]; omega)
      (by
        rw [value_replicate_zero, List.length_replicate, Nat.pow_zero, Nat.one_mul, Nat.zero_add]
        exact hlt)
    rw [value_replicate_zero, Nat.pow_zero, Nat.one_mul, Nat.zero_add] at hmul
    rw [value_ofLimbs, hmul]
    rfl

/-! ## Shifting is exact -/

theorem value_shlFrom {part : Nat} (hpart : part < 64) {limbs : List UInt64} {carry : UInt64}
    (hcarry : carry.toNat < 2 ^ part) :
    Limbs.value (shlFrom part limbs carry) = Limbs.value limbs * 2 ^ part + carry.toNat := by
  induction limbs generalizing carry with
  | nil =>
    rw [shlFrom, Limbs.value_nil, Nat.zero_mul, Nat.zero_add]
    split_ifs with h
    · exact value_singleton carry
    · rw [not_and_or, not_not, not_not] at h
      rcases h with rfl | rfl
      · rw [Limbs.value_nil]
        omega
      · rfl
  | cons limb limbs ih =>
    have hlimb := toNat_lt_base limb
    rw [shlFrom]
    split_ifs with h
    · subst h
      have hzero : carry.toNat = 0 := by omega
      simp only [Limbs.value_cons, ih hcarry, hzero, Nat.pow_zero, Nat.mul_one, Nat.add_zero]
    · have hword : (UInt64.ofNat part).toNat = part :=
        UInt64.toNat_ofNat_of_lt' (Nat.lt_trans hpart (by decide))
      have hrest : (UInt64.ofNat (64 - part)).toNat = 64 - part :=
        UInt64.toNat_ofNat_of_lt' (Nat.lt_of_le_of_lt (Nat.sub_le 64 part) (by decide))
      have hsplit : (2 : Nat) ^ 64 = 2 ^ part * 2 ^ (64 - part) := by
        rw [← Nat.pow_add]
        congr 1
        omega
      have hhigh : (limb >>> UInt64.ofNat (64 - part)).toNat = limb.toNat / 2 ^ (64 - part) := by
        rw [UInt64.toNat_shiftRight, hrest, Nat.mod_eq_of_lt (by omega),
          Nat.shiftRight_eq_div_pow]
      have hlow : ((limb <<< UInt64.ofNat part) ||| carry).toNat =
          2 ^ part * (limb.toNat % 2 ^ (64 - part)) + carry.toNat := by
        rw [UInt64.toNat_or, UInt64.toNat_shiftLeft, hword, Nat.mod_eq_of_lt hpart,
          Nat.shiftLeft_eq, Nat.mul_comm limb.toNat, hsplit, Nat.mul_mod_mul_left,
          Nat.two_pow_add_eq_or_of_lt hcarry]
      have hdiv := Nat.mod_add_div limb.toNat (2 ^ (64 - part))
      have hcarry' : (limb >>> UInt64.ofNat (64 - part)).toNat < 2 ^ part := by
        rw [hhigh]
        refine Nat.div_lt_of_lt_mul ?_
        rw [Nat.mul_comm, ← hsplit]
        exact hlimb
      rw [Limbs.value_cons, Limbs.value_cons, ih hcarry', hlow, hhigh]
      calc 2 ^ part * (limb.toNat % 2 ^ (64 - part)) + carry.toNat +
            base * (Limbs.value limbs * 2 ^ part + limb.toNat / 2 ^ (64 - part))
          = 2 ^ part * (limb.toNat % 2 ^ (64 - part)) +
              2 ^ part * 2 ^ (64 - part) * (limb.toNat / 2 ^ (64 - part)) +
              base * Limbs.value limbs * 2 ^ part + carry.toNat := by
            rw [← hsplit]
            unfold base
            ring
        _ = (limb.toNat + base * Limbs.value limbs) * 2 ^ part + carry.toNat := by
            rw [Nat.mul_assoc, ← Nat.mul_add, hdiv]
            ring

/-- Shifting multiplies by a power of two. -/
theorem value_shl (n : BigNat) (bits : Nat) : (n.shl bits).value = n.value * 2 ^ bits := by
  rw [shl]
  split_ifs with h
  · rw [(isZero_iff n).mp h, Nat.zero_mul]
    rfl
  · have hpart : bits % 64 < 64 := Nat.mod_lt _ (by decide)
    rw [value_ofLimbs, value_append, value_replicate_zero, List.length_replicate,
      @value_shlFrom _ hpart _ 0 (Nat.two_pow_pos _), ← base_pow_mul_two_pow bits]
    show 0 + base ^ (bits / 64) * (n.value * 2 ^ (bits % 64) + 0) = _
    ring

/-! ## Bits -/

theorem bit_eq (n : BigNat) (index : Nat) : n.bit index = n.value.testBit index := by
  have hword : (UInt64.ofNat (index % 64)).toNat = index % 64 :=
    UInt64.toNat_ofNat_of_lt' (Nat.lt_of_lt_of_le (Nat.mod_lt _ (by decide)) (by decide))
  rw [value, testBit_value, bit]
  cases hlimb : n.limbs[index / 64]? with
  | none => simp
  | some limb =>
    have htoNat : ((limb >>> UInt64.ofNat (index % 64)) &&& 1).toNat =
        limb.toNat / 2 ^ (index % 64) % 2 := by
      rw [UInt64.toNat_and, UInt64.toNat_shiftRight, hword, Nat.mod_mod_of_dvd index (by decide),
        Nat.shiftRight_eq_div_pow, UInt64.toNat_one, Nat.and_one_is_mod]
    rw [Option.getD_some, Nat.testBit_eq_decide_div_mod_eq]
    refine Bool.eq_iff_iff.mpr ?_
    rw [beq_iff_eq, decide_eq_true_eq, ← htoNat, ← UInt64.toNat_inj, UInt64.toNat_one]

/-- The bit count bounds the number, and every bit below it has a word. -/
theorem value_lt_bits (n : BigNat) : n.value < 2 ^ n.bits ∧ n.bits ≤ n.limbs.length * 64 := by
  unfold bits
  cases htop : n.limbs.getLast? with
  | none =>
    have hnil := List.getLast?_eq_none_iff.mp htop
    rw [value, hnil]
    exact ⟨Nat.one_pos, Nat.zero_le _⟩
  | some top =>
    have hne : n.limbs ≠ [] := by
      intro h
      rw [h] at htop
      cases htop
    obtain ⟨ys, hys⟩ : ∃ ys, n.limbs = ys ++ [top] := by
      refine ⟨n.limbs.dropLast, ?_⟩
      have hlast : n.limbs.getLast hne = top := by
        rw [List.getLast?_eq_some_getLast hne] at htop
        exact Option.some.inj htop
      rw [← hlast, List.dropLast_concat_getLast hne]
    have htop0 : top ≠ 0 := by
      rintro rfl
      exact n.trimmed htop
    have hpos : top.toNat ≠ 0 := fun h0 => htop0 (UInt64.toNat_inj.mp h0)
    have hlog : Nat.log 2 top.toNat < 64 := Nat.log_lt_of_lt_pow hpos top.toNat_lt
    have hbits : n.limbs.length * 64 - leadingZeros top =
        64 * ys.length + (Nat.log 2 top.toNat + 1) := by
      rw [leadingZeros, if_neg htop0, hys, List.length_append, List.length_singleton]
      omega
    refine ⟨?_, Nat.sub_le _ _⟩
    have hlt : top.toNat + 1 ≤ 2 ^ (Nat.log 2 top.toNat + 1) :=
      Nat.lt_pow_succ_log_self (by decide) _
    have hmul : base ^ ys.length * (top.toNat + 1) ≤
        base ^ ys.length * 2 ^ (Nat.log 2 top.toNat + 1) := Nat.mul_le_mul_left _ hlt
    have hlow := value_lt ys
    show n.value < 2 ^ (n.limbs.length * 64 - leadingZeros top)
    rw [hbits, value, hys, value_append, value_singleton, Nat.pow_add, Nat.pow_mul]
    rw [Nat.mul_add, Nat.mul_one] at hmul
    exact Nat.lt_of_lt_of_le (by omega) hmul

/-! ## Division -/

/-- What a long division has done down to bit `k`: it has divided the bits above. -/
structure Divided (a divisor : BigNat) (k : Nat) (state : List UInt64 × BigNat) : Prop where
  length : state.1.length = a.limbs.length
  quotient : Limbs.value state.1 = a.value / 2 ^ k / divisor.value * 2 ^ k
  remainder : state.2.value = a.value / 2 ^ k % divisor.value

/-- One more bit under a division: what quotient and remainder become. -/
theorem div_mod_double {m d : Nat} (b : Nat) (hd : 0 < d) (hb : b ≤ 1) :
    (d ≤ 2 * (m % d) + b → (2 * m + b) / d = 2 * (m / d) + 1 ∧
        (2 * m + b) % d = 2 * (m % d) + b - d) ∧
      (2 * (m % d) + b < d → (2 * m + b) / d = 2 * (m / d) ∧
        (2 * m + b) % d = 2 * (m % d) + b) := by
  have hmod := Nat.mod_lt m hd
  have hdiv := Nat.div_add_mod m d
  constructor
  · intro hle
    have heq : 2 * m + b = d * (2 * (m / d) + 1) + (2 * (m % d) + b - d) := by
      rw [Nat.mul_add, Nat.mul_left_comm, Nat.mul_one]
      omega
    have hlt : 2 * (m % d) + b - d < d := by omega
    rw [heq, Nat.mul_add_div hd, Nat.div_eq_of_lt hlt, Nat.mul_add_mod, Nat.mod_eq_of_lt hlt]
    exact ⟨Nat.add_zero _, rfl⟩
  · intro hlt
    have heq : 2 * m + b = d * (2 * (m / d)) + (2 * (m % d) + b) := by
      rw [Nat.mul_left_comm]
      omega
    rw [heq, Nat.mul_add_div hd, Nat.div_eq_of_lt hlt, Nat.mul_add_mod, Nat.mod_eq_of_lt hlt]
    exact ⟨Nat.add_zero _, rfl⟩

/-- The bits of a number down to place `k`, from those down to `k + 1`. -/
theorem div_two_pow_eq (n k : Nat) : n / 2 ^ k = 2 * (n / 2 ^ (k + 1)) + (n.testBit k).toNat := by
  rw [Nat.pow_succ, ← Nat.div_div_eq_div_mul, Nat.toNat_testBit]
  omega

theorem value_pullBit (a remainder : BigNat) (index : Nat) :
    (pullBit a remainder index).value = 2 * remainder.value + (a.value.testBit index).toNat := by
  rw [pullBit, bit_eq]
  cases a.value.testBit index
  · rw [if_neg (by decide), value_shl, Nat.pow_one, Nat.mul_comm]
    rfl
  · rw [if_pos rfl, value_add, value_shl, value_one, Nat.pow_one, Nat.mul_comm]
    rfl

theorem Divided.step {a divisor : BigNat} (hd : 0 < divisor.value) {k : Nat} (hk : k < a.bits)
    {state : List UInt64 × BigNat} (h : Divided a divisor (k + 1) state) :
    Divided a divisor k (divStep a divisor state k) := by
  obtain ⟨hlength, hquotient, hremainder⟩ := h
  have hin : k / 64 < state.1.length := by
    have hbits := (value_lt_bits a).2
    rw [hlength]
    omega
  have hnext : (pullBit a state.2 k).value =
      2 * (a.value / 2 ^ (k + 1) % divisor.value) + (a.value.testBit k).toNat := by
    rw [value_pullBit, hremainder]
  have hbit : (a.value.testBit k).toNat ≤ 1 := by cases a.value.testBit k <;> decide
  obtain ⟨hsubtract, hkeep⟩ := div_mod_double (m := a.value / 2 ^ (k + 1)) _ hd hbit
  have hshift := div_two_pow_eq a.value k
  rw [divStep]
  by_cases hlt : (pullBit a state.2 k).cmp divisor = .lt
  · rw [if_neg (not_not.mpr hlt)]
    rw [cmp_eq_lt_iff, hnext] at hlt
    obtain ⟨hq, hr⟩ := hkeep hlt
    refine ⟨hlength, ?_, ?_⟩
    · rw [hquotient, hshift, hq, Nat.pow_succ]
      ring
    · rw [hnext, hshift, hr]
  · rw [if_pos hlt, if_pos hin]
    rw [cmp_eq_lt_iff, hnext, not_lt] at hlt
    obtain ⟨hq, hr⟩ := hsubtract hlt
    refine ⟨by rw [length_setBit, hlength], ?_, ?_⟩
    · have hclear : Limbs.value state.1 % 2 ^ (k + 1) = 0 := by
        rw [hquotient, Nat.mul_mod_left]
      rw [value_setBit hin hclear, hquotient, hshift, hq, Nat.pow_succ]
      ring
    · rw [value_sub (by rw [hnext]; exact hlt), hnext, hshift, hr]

theorem Divided.run {a divisor : BigNat} (hd : 0 < divisor.value) {k : Nat} (hk : k ≤ a.bits)
    {state : List UInt64 × BigNat} (h : Divided a divisor k state) :
    Divided a divisor 0 ((List.range k).reverse.foldl (divStep a divisor) state) := by
  induction k generalizing state with
  | zero => exact h
  | succ k ih =>
    rw [List.range_succ, List.reverse_append, List.reverse_singleton, List.singleton_append,
      List.foldl_cons]
    exact ih (Nat.le_of_succ_le hk) (h.step hd hk)

/-- Long division gives the quotient and the remainder. -/
theorem divrem_eq (a divisor : BigNat) (h : divisor.isZero = false) :
    (a.divrem divisor h).1.value = a.value / divisor.value ∧
      (a.divrem divisor h).2.value = a.value % divisor.value := by
  have hd := value_pos_of_isZero h
  rw [divrem]
  split_ifs with hlt
  · rw [cmp_eq_lt_iff] at hlt
    exact ⟨(Nat.div_eq_of_lt hlt).symm, (Nat.mod_eq_of_lt hlt).symm⟩
  · have hzero : a.value / 2 ^ a.bits = 0 := Nat.div_eq_of_lt (value_lt_bits a).1
    have hstart : Divided a divisor a.bits (List.replicate a.limbs.length 0, zero) := by
      refine ⟨List.length_replicate, ?_, ?_⟩
      · rw [hzero, Nat.zero_div, Nat.zero_mul]
        exact value_replicate_zero _
      · rw [hzero, Nat.zero_mod]
        rfl
    have hrun := hstart.run hd le_rfl
    refine ⟨?_, ?_⟩
    · rw [value_ofLimbs, hrun.quotient, Nat.pow_zero, Nat.div_one, Nat.mul_one]
    · rw [hrun.remainder, Nat.pow_zero, Nat.div_one]

@[simp] theorem value_rem (a modulus : BigNat) (h : modulus.isZero = false) :
    (a.rem modulus h).value = a.value % modulus.value := (divrem_eq a modulus h).2

end BigNat

end Cairn.Ports.Crypto
