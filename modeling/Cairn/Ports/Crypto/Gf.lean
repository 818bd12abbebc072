import Mathlib.Algebra.Field.Defs
import Mathlib.Data.List.Iterate
import Mathlib.Data.UInt
import Mathlib.Data.Vector.Basic

/-!
# GF(2^8)

`src/crypto/gf.rs`: one multiply, a masked loop of eight rounds, and the
table `Row` that caches it for one coefficient.

Sixty-five thousand products are too many to try one by one, and there is no
need to: `mul` is linear in each of its arguments over `^`, since every round
is (`mulLoop_xor_left`, `mulLoop_xor_right`). A byte is a sum of the eight
single bits, so a law that both sides state linearly holds once it holds of
single bits, 64 pairs for commutativity and as many for associativity, where
the first factor may be taken to be the bit that the others are powers of.
Inverses are the one law that is not linear; there a byte is a power of 3, and
`pow` is multiplicative.
-/

namespace Cairn.Ports.Crypto.Gf

/-- Low byte of `x^8 + x^4 + x^3 + x + 1` after the implicit `x^8`. -/
def REDUCTION : UInt8 := 0x1b

/-- The rounds of `mul` on `a`, `b` and `acc`. -/
def mulLoop : Nat → UInt8 → UInt8 → UInt8 → UInt8
  | 0, _, _, acc => acc
  | steps + 1, a, b, acc =>
    let add := -(b &&& 1)
    let overflow := -((a >>> 7) &&& 1)
    mulLoop steps ((a <<< 1) ^^^ (REDUCTION &&& overflow)) (b >>> 1) (acc ^^^ (a &&& add))

def mul (a b : UInt8) : UInt8 := mulLoop 8 a b 0

/-- The turns of `pow`: a `u32` exponent is used up after 32 of them. -/
def powLoop : Nat → UInt8 → UInt8 → UInt32 → UInt8
  | 0, result, _, _ => result
  | turns + 1, result, squared, e =>
    if e = 0 then result
    else powLoop turns (if e &&& 1 = 1 then mul result squared else result)
      (mul squared squared) (e >>> 1)

def pow (base : UInt8) (exponent : UInt32) : UInt8 := powLoop 32 1 base exponent

def inv (a : UInt8) : Option UInt8 := if a = 0 then none else some (pow a 254)

/-! ## Linearity -/

/-- What holds of 256 numbers holds of every byte. -/
theorem forall_byte {P : UInt8 → Prop} (h : ∀ n < 256, P (UInt8.ofNat n)) (b : UInt8) : P b := by
  have := h b.toNat b.toNat_lt
  rwa [UInt8.ofNat_toNat] at this

theorem and_xor (a b c : UInt8) : a &&& (b ^^^ c) = (a &&& b) ^^^ (a &&& c) := by
  apply UInt8.toBitVec_inj.mp
  ext i hi
  simp [Bool.and_xor_distrib_left]

theorem xor_and (a b c : UInt8) : (a ^^^ b) &&& c = (a &&& c) ^^^ (b &&& c) := by
  rw [UInt8.and_comm, and_xor, UInt8.and_comm c, UInt8.and_comm c]

theorem bit_cases : ∀ a : UInt8, a &&& 1 = 0 ∨ a &&& 1 = 1 :=
  forall_byte (by decide +kernel)

/-- The masks add up as the bits they are made of. -/
theorem neg_and_one_xor (a b : UInt8) : -((a ^^^ b) &&& 1) = -(a &&& 1) ^^^ -(b &&& 1) := by
  rw [xor_and]
  rcases bit_cases a with ha | ha <;> rcases bit_cases b with hb | hb <;> rw [ha, hb] <;> decide

/-- Two sums of two, paired the other way. -/
theorem xor_xor_xor_comm (a b c d : UInt8) : (a ^^^ b) ^^^ (c ^^^ d) = (a ^^^ c) ^^^ (b ^^^ d) := by
  rw [UInt8.xor_assoc, ← UInt8.xor_assoc b, UInt8.xor_comm b, UInt8.xor_assoc c, UInt8.xor_assoc]

theorem mulLoop_xor_left (steps : Nat) : ∀ a a' b acc acc' : UInt8,
    mulLoop steps (a ^^^ a') b (acc ^^^ acc') =
      mulLoop steps a b acc ^^^ mulLoop steps a' b acc' := by
  induction steps with
  | zero => exact fun _ _ _ _ _ => rfl
  | succ steps ih =>
    intro a a' b acc acc'
    simp only [mulLoop]
    rw [← ih, UInt8.shiftLeft_xor, UInt8.shiftRight_xor, neg_and_one_xor, and_xor, xor_and,
      xor_xor_xor_comm (a <<< 1), xor_xor_xor_comm acc]

theorem mulLoop_xor_right (steps : Nat) : ∀ a b b' acc acc' : UInt8,
    mulLoop steps a (b ^^^ b') (acc ^^^ acc') =
      mulLoop steps a b acc ^^^ mulLoop steps a b' acc' := by
  induction steps with
  | zero => exact fun _ _ _ _ _ => rfl
  | succ steps ih =>
    intro a b b' acc acc'
    simp only [mulLoop]
    rw [← ih, UInt8.shiftRight_xor, neg_and_one_xor, and_xor, xor_xor_xor_comm acc]

theorem mul_xor_left (a a' b : UInt8) : mul (a ^^^ a') b = mul a b ^^^ mul a' b :=
  mulLoop_xor_left 8 a a' b 0 0

theorem mul_xor_right (a b b' : UInt8) : mul a (b ^^^ b') = mul a b ^^^ mul a b' :=
  mulLoop_xor_right 8 a b b' 0 0

/-! ## The laws of the field -/

/-- The bytes with one bit set. -/
def bits : List UInt8 := [1, 2, 4, 8, 16, 32, 64, 128]

theorem bits_spec : ∀ a : UInt8, (bits.map (a &&& ·)).foldr (· ^^^ ·) 0 = a ∧
    ∀ e ∈ bits, a &&& e = 0 ∨ a &&& e = e :=
  forall_byte (by decide +kernel)

/-- What is computed about the products of single bits. -/
theorem mul_bits : ∀ e ∈ bits, mul 1 e = e ∧ ∀ e' ∈ bits,
    mul e e' = mul e' e ∧ mul (mul 2 e) e' = mul 2 (mul e e') := by
  decide +kernel

/-- A property that zero and the single bits have, and sums keep, every byte
has. -/
theorem xor_induction {P : UInt8 → Prop} (hzero : P 0) (hxor : ∀ a b, P a → P b → P (a ^^^ b))
    (hbit : ∀ e ∈ bits, P e) (a : UInt8) : P a := by
  have hmask : ∀ e ∈ bits, P (a &&& e) := by
    intro e he
    rcases (bits_spec a).2 e he with h | h
    · rw [h]
      exact hzero
    · rw [h]
      exact hbit e he
  have hfold : ∀ es ⊆ bits, P ((es.map (a &&& ·)).foldr (· ^^^ ·) 0) := by
    intro es
    induction es with
    | nil => exact fun _ => hzero
    | cons e es ih =>
      intro hes
      rw [List.cons_subset] at hes
      exact hxor _ _ (hmask e hes.1) (ih hes.2)
  rw [← (bits_spec a).1]
  exact hfold bits (List.Subset.refl _)

@[simp] theorem mul_zero (a : UInt8) : mul a 0 = 0 := by
  have := mul_xor_right a 0 0
  rwa [UInt8.xor_self, UInt8.xor_self] at this

@[simp] theorem zero_mul (a : UInt8) : mul 0 a = 0 := by
  have := mul_xor_left 0 0 a
  rwa [UInt8.xor_self, UInt8.xor_self] at this

theorem mul_comm (a b : UInt8) : mul a b = mul b a := by
  induction a using xor_induction with
  | hzero => rw [mul_zero, zero_mul]
  | hxor a a' h h' => rw [mul_xor_left, mul_xor_right, h, h']
  | hbit e he =>
    induction b using xor_induction with
    | hzero => rw [mul_zero, zero_mul]
    | hxor b b' h h' => rw [mul_xor_left, mul_xor_right, h, h']
    | hbit e' he' => exact ((mul_bits e he).2 e' he').1

@[simp] theorem one_mul (a : UInt8) : mul 1 a = a := by
  induction a using xor_induction with
  | hzero => exact mul_zero 1
  | hxor a a' h h' => rw [mul_xor_right, h, h']
  | hbit e he => exact (mul_bits e he).1

/-- Associativity where the first factor is the bit the others are powers of. -/
theorem mul_two_assoc (b c : UInt8) : mul (mul 2 b) c = mul 2 (mul b c) := by
  induction b using xor_induction with
  | hzero => simp only [zero_mul, mul_zero]
  | hxor b b' h h' => simp only [mul_xor_left, mul_xor_right, h, h']
  | hbit e he =>
    induction c using xor_induction with
    | hzero => simp only [mul_zero]
    | hxor c c' h h' => simp only [mul_xor_right, h, h']
    | hbit e' he' => exact ((mul_bits e he).2 e' he').2

theorem bits_eq : bits = List.iterate (mul 2) 1 8 := by decide

theorem mul_assoc (a b c : UInt8) : mul (mul a b) c = mul a (mul b c) := by
  induction a using xor_induction with
  | hzero => simp only [zero_mul]
  | hxor a a' h h' => simp only [mul_xor_left, h, h']
  | hbit e he =>
    rw [bits_eq, List.mem_iterate] at he
    obtain ⟨doublings, -, rfl⟩ := he
    induction doublings with
    | zero => rw [Function.iterate_zero_apply, one_mul, one_mul]
    | succ doublings ih =>
      rw [Function.iterate_succ_apply', mul_two_assoc, mul_two_assoc, ih, mul_two_assoc]

theorem mul_mul_mul_comm (a b c d : UInt8) :
    mul (mul a b) (mul c d) = mul (mul a c) (mul b d) := by
  rw [mul_assoc, ← mul_assoc b, mul_comm b, mul_assoc c, mul_assoc]

theorem powLoop_mul (turns : Nat) : ∀ (r r' s s' : UInt8) (e : UInt32),
    powLoop turns (mul r r') (mul s s') e = mul (powLoop turns r s e) (powLoop turns r' s' e) := by
  induction turns with
  | zero => exact fun _ _ _ _ _ => rfl
  | succ turns ih =>
    intro r r' s s' e
    simp only [powLoop]
    split_ifs
    · rfl
    · rw [mul_mul_mul_comm r, mul_mul_mul_comm s, ih]
    · rw [mul_mul_mul_comm s, ih]

theorem pow_mul (a b : UInt8) (e : UInt32) : pow (mul a b) e = mul (pow a e) (pow b e) :=
  powLoop_mul 32 1 1 a b e

/-- A list of bytes as one number, a bit for each. -/
theorem testBit_foldl (as : List UInt8) (n : Nat) : ∀ m : Nat,
    (as.foldl (fun m a => m ||| 2 ^ a.toNat) m).testBit n = true →
      m.testBit n = true ∨ ∃ a ∈ as, a.toNat = n := by
  induction as with
  | nil => exact fun _ h => .inl h
  | cons a as ih =>
    intro m h
    rcases ih _ h with hm | ⟨a', ha', hn⟩
    · rw [Nat.testBit_or, Bool.or_eq_true, Nat.testBit_two_pow, decide_eq_true_iff] at hm
      exact hm.imp_right fun hn => ⟨a, List.mem_cons_self, hn⟩
    · exact .inr ⟨a', List.mem_cons_of_mem _ ha', hn⟩

/-- The bytes other than zero are the powers of 3. -/
theorem exists_pow_three (a : UInt8) (h : a ≠ 0) : a ∈ List.iterate (mul 3) 1 255 := by
  obtain ⟨hall, hbits⟩ :
      (List.iterate (mul 3) 1 255).foldl (fun m a => m ||| 2 ^ a.toNat) 0 = 2 ^ 256 - 2 ∧
        ∀ n < 256, UInt8.ofNat n ≠ 0 → (2 ^ 256 - 2).testBit (UInt8.ofNat n).toNat = true := by
    decide +kernel
  have hbit : (2 ^ 256 - 2).testBit a.toNat = true :=
    forall_byte (P := fun a => a ≠ 0 → (2 ^ 256 - 2).testBit a.toNat = true) hbits a h
  rw [← hall] at hbit
  rcases testBit_foldl _ _ _ hbit with hzero | ⟨a', ha', hn⟩
  · rw [Nat.zero_testBit] at hzero
    cases hzero
  · rwa [UInt8.toNat_inj.mp hn] at ha'

theorem mul_pow_254 (a : UInt8) (h : a ≠ 0) : mul a (pow a 254) = 1 := by
  obtain ⟨factors, -, rfl⟩ := List.mem_iterate.mp (exists_pow_three a h)
  clear h
  induction factors with
  | zero => decide
  | succ factors ih =>
    have hthree : mul 3 (pow 3 254) = 1 := by decide
    rw [Function.iterate_succ_apply', pow_mul, mul_mul_mul_comm, hthree, ih, one_mul]

/-- A byte read as an element of the field. -/
def Elem : Type := UInt8

instance : DecidableEq Elem := inferInstanceAs (DecidableEq UInt8)

/-- The element a byte is. -/
def Elem.of (a : UInt8) : Elem := a

def Elem.byte (e : Elem) : UInt8 := e

instance : Zero Elem := ⟨(0 : UInt8)⟩
instance : One Elem := ⟨(1 : UInt8)⟩
instance : Add Elem := ⟨fun a b : UInt8 => a ^^^ b⟩
instance : Neg Elem := ⟨fun a : UInt8 => a⟩
instance : Mul Elem := ⟨mul⟩
instance : Inv Elem := ⟨fun a : UInt8 => pow a 254⟩

instance : Field Elem where
  add_assoc := UInt8.xor_assoc
  zero_add := fun _ => UInt8.zero_xor
  add_zero := fun _ => UInt8.xor_zero
  add_comm := UInt8.xor_comm
  neg_add_cancel := fun _ => UInt8.xor_self
  left_distrib := mul_xor_right
  right_distrib := mul_xor_left
  zero_mul := zero_mul
  mul_zero := mul_zero
  mul_assoc := mul_assoc
  one_mul := one_mul
  mul_one := fun a => (mul_comm a 1).trans (one_mul a)
  mul_comm := mul_comm
  exists_pair_ne := ⟨(0 : UInt8), (1 : UInt8), (by decide : (0 : UInt8) ≠ 1)⟩
  mul_inv_cancel := mul_pow_254
  inv_zero := (by decide : pow 0 254 = 0)
  nsmul := nsmulRec
  zsmul := zsmulRec
  nnqsmul := _
  nnqsmul_def := fun _ _ => rfl
  qsmul := _
  qsmul_def := fun _ _ => rfl

@[simp] theorem Elem.byte_of (a : UInt8) : (Elem.of a).byte = a := rfl

@[simp] theorem Elem.of_zero : Elem.of 0 = 0 := rfl

@[simp] theorem Elem.of_mul (a b : UInt8) : Elem.of (mul a b) = Elem.of a * Elem.of b := rfl

@[simp] theorem Elem.of_xor (a b : UInt8) : Elem.of (a ^^^ b) = Elem.of a + Elem.of b := rfl

theorem Elem.of_inj {a b : UInt8} (h : Elem.of a = Elem.of b) : a = b := h

/-- Subtraction is addition. -/
theorem Elem.sub_of (a b : UInt8) : Elem.of a - Elem.of b = Elem.of (a ^^^ b) :=
  sub_eq_add_neg (Elem.of a) (Elem.of b)

theorem Elem.sub_eq_add (a b : Elem) : a - b = a + b := sub_eq_add_neg a b

theorem inv_of_ne_zero {a : UInt8} (h : a ≠ 0) : ∃ b, inv a = some b ∧ Elem.of b = (Elem.of a)⁻¹ :=
  ⟨pow a 254, if_neg h, rfl⟩

/-! ## Rows -/

/-- The 256 products of one fixed coefficient. -/
structure Row where
  table : Vector UInt8 256

def Row.of (coefficient : UInt8) : Row := ⟨Vector.ofFn fun byte => mul coefficient (UInt8.ofNat byte)⟩

def Row.apply (row : Row) (byte : UInt8) : UInt8 := row.table[byte.toNat]?.getD 0

/-- `dst ^= coefficient * src` at each place, up to the end of the shorter. -/
def Row.mulAdd (row : Row) : List UInt8 → List UInt8 → List UInt8
  | out :: dst, byte :: src => (out ^^^ row.apply byte) :: row.mulAdd dst src
  | dst, _ => dst

@[simp] theorem Row.apply_of (coefficient byte : UInt8) :
    (Row.of coefficient).apply byte = mul coefficient byte := by
  have hlt : byte.toNat < 256 := byte.toNat_lt
  simp [Row.apply, Row.of, hlt]

end Cairn.Ports.Crypto.Gf
