import Cairn.Ports.Crypto.Bignum

/-!
# Numbers as big-endian bytes

`Nat::from_be_bytes` and `Nat::to_be_bytes` of `src/crypto/bignum.rs`. Encoding pads
to a width and keeps the low bytes, so a number below the width's bound is read
back.
-/

namespace Cairn.Ports.Crypto

open Cairn.Verified Cairn.Verified.Limbs

/-- The number that bytes spell, first byte highest. -/
def beValue (bytes : List UInt8) : Nat := bytes.foldl (fun n b => 256 * n + b.toNat) 0

theorem foldl_bytes (bytes : List UInt8) (n : Nat) :
    bytes.foldl (fun n b => 256 * n + b.toNat) n = 256 ^ bytes.length * n + beValue bytes := by
  induction bytes generalizing n with
  | nil => simp [beValue]
  | cons b bytes ih =>
    have hcons : beValue (b :: bytes) = 256 ^ bytes.length * b.toNat + beValue bytes := by
      show bytes.foldl _ (256 * 0 + b.toNat) = _
      rw [Nat.mul_zero, Nat.zero_add, ih]
    rw [List.foldl_cons, ih, hcons, List.length_cons, Nat.pow_succ]
    ring

theorem beValue_append (xs ys : List UInt8) :
    beValue (xs ++ ys) = 256 ^ ys.length * beValue xs + beValue ys := by
  rw [beValue, List.foldl_append, foldl_bytes]
  rfl

theorem beValue_cons (b : UInt8) (bytes : List UInt8) :
    beValue (b :: bytes) = 256 ^ bytes.length * b.toNat + beValue bytes := by
  rw [← List.singleton_append, beValue_append]
  simp [beValue]

theorem beValue_lt (bytes : List UInt8) : beValue bytes < 256 ^ bytes.length := by
  induction bytes with
  | nil => exact Nat.one_pos
  | cons b bytes ih =>
    have hb := b.toNat_lt
    have hmul : 256 ^ bytes.length * (b.toNat + 1) ≤ 256 ^ bytes.length * 256 :=
      Nat.mul_le_mul_left _ hb
    rw [beValue_cons, List.length_cons, Nat.pow_succ]
    rw [Nat.mul_add, Nat.mul_one] at hmul
    omega

namespace BigNat

/-- The words of the first `taken` bytes, the last eight bytes first. -/
def beWords (bytes : List UInt8) : Nat → Nat → List UInt64
  | 0, _ => []
  | fuel + 1, taken =>
    if taken = 0 then []
    else
      UInt64.ofNat (beValue ((bytes.take taken).drop (taken - 8))) ::
        beWords bytes fuel (taken - 8)

/-- Decode big-endian bytes. -/
def fromBeBytes (bytes : List UInt8) : BigNat := ofLimbs (beWords bytes bytes.length bytes.length)

/-- The byte of a number at a place, counting from the least significant. -/
def byteAt (n : BigNat) (position : Nat) : UInt8 :=
  UInt8.ofNat ((n.limbs.getD (position / 8) 0).toNat / 2 ^ (8 * (position % 8)))

/-- Encode big-endian, zero-padded to `width` bytes. -/
def toBeBytes (n : BigNat) (width : Nat) : List UInt8 := (List.range width).reverse.map n.byteAt

theorem value_beWords (bytes : List UInt8) (fuel : Nat) {taken : Nat} (h : taken ≤ bytes.length)
    (hfuel : taken ≤ fuel) :
    Limbs.value (beWords bytes fuel taken) = beValue (bytes.take taken) := by
  induction fuel generalizing taken with
  | zero =>
    obtain rfl : taken = 0 := Nat.le_zero.mp hfuel
    rfl
  | succ fuel ih =>
    rw [beWords]
    split_ifs with hzero
    · subst hzero
      rfl
    · have hsplit := List.take_append_drop (taken - 8) (bytes.take taken)
      rw [List.take_take, Nat.min_eq_left (Nat.sub_le _ _)] at hsplit
      have hlength : ((bytes.take taken).drop (taken - 8)).length = taken - (taken - 8) := by
        rw [List.length_drop, List.length_take_of_le h]
      have hlt := beValue_lt ((bytes.take taken).drop (taken - 8))
      have hbase : beValue ((bytes.take taken).drop (taken - 8)) < base := by
        refine lt_of_lt_of_le hlt ?_
        rw [hlength, base, show (2 : Nat) ^ 64 = 256 ^ 8 from rfl]
        exact Nat.pow_le_pow_right (by decide) (by omega)
      have hvalue := beValue_append (bytes.take (taken - 8))
        ((bytes.take taken).drop (taken - 8))
      rw [hsplit] at hvalue
      rw [Limbs.value_cons, UInt64.toNat_ofNat_of_lt' hbase, ih (by omega) (by omega), hvalue,
        hlength]
      by_cases hshort : taken ≤ 8
      · rw [Nat.sub_eq_zero_of_le hshort, List.take_zero]
        simp [beValue]
      · rw [show taken - (taken - 8) = 8 by omega, Nat.add_comm]
        rfl

theorem value_fromBeBytes (bytes : List UInt8) : (fromBeBytes bytes).value = beValue bytes := by
  rw [fromBeBytes, value_ofLimbs, value_beWords bytes _ le_rfl le_rfl, List.take_length]

theorem toNat_byteAt (n : BigNat) (position : Nat) :
    (n.byteAt position).toNat = n.value / 256 ^ position % 256 := by
  have hpow : (256 : Nat) ^ position = 2 ^ (8 * position) := by
    rw [show (256 : Nat) = 2 ^ 8 from rfl, ← Nat.pow_mul]
  rw [byteAt, UInt8.toNat_ofNat', hpow, show (256 : Nat) = 2 ^ 8 from rfl]
  refine Nat.eq_of_testBit_eq fun j => ?_
  rw [Nat.testBit_mod_two_pow, Nat.testBit_mod_two_pow, Nat.testBit_div_two_pow,
    Nat.testBit_div_two_pow, value, testBit_value]
  by_cases hj : j < 8
  · have hdiv : (j + 8 * position) / 64 = position / 8 := by omega
    have hmod : (j + 8 * position) % 64 = j + 8 * (position % 8) := by omega
    rw [hdiv, hmod, List.getD_eq_getElem?_getD]
  · simp [hj]

theorem beValue_toBeBytes (n : BigNat) (width : Nat) :
    beValue (n.toBeBytes width) = n.value % 256 ^ width := by
  induction width with
  | zero => rw [Nat.pow_zero, Nat.mod_one]; rfl
  | succ width ih =>
    have hsucc : n.toBeBytes (width + 1) = n.byteAt width :: n.toBeBytes width := by
      rw [toBeBytes, List.range_succ, List.reverse_append, List.reverse_singleton,
        List.singleton_append, List.map_cons, toBeBytes]
    have hlength : (n.toBeBytes width).length = width := by
      rw [toBeBytes, List.length_map, List.length_reverse, List.length_range]
    rw [hsucc, beValue_cons, hlength, ih, toNat_byteAt, Nat.pow_succ, Nat.mod_mul, Nat.add_comm]

@[simp] theorem length_toBeBytes (n : BigNat) (width : Nat) :
    (n.toBeBytes width).length = width := by
  rw [toBeBytes, List.length_map, List.length_reverse, List.length_range]

/-- A number that fits the width is read back. -/
theorem fromBeBytes_toBeBytes {n : BigNat} {width : Nat} (h : n.value < 256 ^ width) :
    fromBeBytes (n.toBeBytes width) = n := by
  refine value_injective ?_
  rw [value_fromBeBytes, beValue_toBeBytes, Nat.mod_eq_of_lt h]

end BigNat

end Cairn.Ports.Crypto
