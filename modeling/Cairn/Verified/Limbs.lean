import Mathlib.Algebra.Order.Group.Nat
import Mathlib.Data.List.Induction
import Mathlib.Data.Nat.Bitwise
import Mathlib.Tactic.Ring

/-!
# Words of 64 bits as digits

A list of words, least significant first, and the number it stands for. Two lists
of one length with one number are equal, so a list without zeros at its top is
the number: `trim` takes the zeros off, and `compareTop` compares from the top
down as numbers compare.
-/

namespace Cairn.Verified.Limbs

/-- One more than the largest word. -/
abbrev base : Nat := 2 ^ 64

/-- The number that words stand for, least significant first. -/
def value : List UInt64 → Nat
  | [] => 0
  | x :: xs => x.toNat + base * value xs

@[simp] theorem value_nil : value [] = 0 := rfl

@[simp] theorem value_cons (x : UInt64) (xs : List UInt64) :
    value (x :: xs) = x.toNat + base * value xs := rfl

@[simp] theorem value_singleton (x : UInt64) : value [x] = x.toNat := rfl

theorem toNat_lt_base (x : UInt64) : x.toNat < base := x.toNat_lt

theorem value_append (xs ys : List UInt64) :
    value (xs ++ ys) = value xs + base ^ xs.length * value ys := by
  induction xs with
  | nil => simp
  | cons x xs ih =>
    rw [List.cons_append, value_cons, value_cons, ih, List.length_cons, Nat.pow_succ]
    ring

theorem value_lt (xs : List UInt64) : value xs < base ^ xs.length := by
  induction xs with
  | nil => exact Nat.one_pos
  | cons x xs ih =>
    have hx := toNat_lt_base x
    have hle : base * (value xs + 1) ≤ base * base ^ xs.length := Nat.mul_le_mul_left _ ih
    rw [value_cons, List.length_cons, Nat.pow_succ, Nat.mul_comm (base ^ xs.length)]
    rw [Nat.mul_add, Nat.mul_one] at hle
    omega

@[simp] theorem value_replicate_zero (n : Nat) : value (List.replicate n 0) = 0 := by
  induction n with
  | zero => rfl
  | succ n ih => rw [List.replicate_succ, value_cons, ih]; rfl

theorem value_take_add_drop (n : Nat) (xs : List UInt64) (h : n ≤ xs.length) :
    value xs = value (xs.take n) + base ^ n * value (xs.drop n) := by
  have happend := value_append (xs.take n) (xs.drop n)
  rwa [List.take_append_drop, List.length_take_of_le h] at happend

variable {xs ys : List UInt64} {x : UInt64}

/-- A number below the weight of a place has no words from there on. -/
theorem value_drop_eq_zero {n : Nat} (h : value xs < base ^ n) : value (xs.drop n) = 0 := by
  by_cases hn : n ≤ xs.length
  · have hsplit := value_take_add_drop n xs hn
    by_contra hne
    have hle : base ^ n * 1 ≤ base ^ n * value (xs.drop n) :=
      Nat.mul_le_mul_left _ (Nat.pos_of_ne_zero hne)
    omega
  · rw [List.drop_eq_nil_of_le (by omega), value_nil]

/-- A word and what is above it are read back from a sum below the base. -/
theorem split_eq {x y a b : Nat} (hx : x < base) (hy : y < base)
    (h : x + base * a = y + base * b) : x = y ∧ a = b := by
  unfold base at *
  omega

theorem value_inj (hlength : xs.length = ys.length) (h : value xs = value ys) : xs = ys := by
  induction xs generalizing ys with
  | nil => exact (List.length_eq_zero_iff.mp hlength.symm).symm
  | cons x xs ih =>
    cases ys with
    | nil => cases hlength
    | cons y ys =>
      obtain ⟨hhead, htail⟩ := split_eq (toNat_lt_base x) (toNat_lt_base y) h
      rw [UInt64.toNat_inj.mp hhead, ih (by simpa using hlength) htail]

/-! ## Zeros at the top -/

/-- No zero at the top. -/
def Trimmed (xs : List UInt64) : Prop := xs.getLast? ≠ some 0

instance (xs : List UInt64) : Decidable (Trimmed xs) := inferInstanceAs (Decidable (_ ≠ _))

/-- Take zeros off the top. -/
def trim (xs : List UInt64) : List UInt64 := (xs.reverse.dropWhile (· = 0)).reverse

theorem trim_append_zero (xs : List UInt64) : trim (xs ++ [0]) = trim xs := by
  rw [trim, List.reverse_append, List.reverse_singleton, List.singleton_append]
  rfl

theorem trim_append_of_ne (xs : List UInt64) (h : x ≠ 0) : trim (xs ++ [x]) = xs ++ [x] := by
  rw [trim, List.reverse_append, List.reverse_singleton, List.singleton_append,
    List.dropWhile_cons_of_neg (by simpa using h), List.reverse_cons, List.reverse_reverse]

@[simp] theorem value_trim (xs : List UInt64) : value (trim xs) = value xs := by
  induction xs using List.reverseRecOn with
  | nil => rfl
  | append_singleton xs x ih =>
    by_cases h : x = 0
    · subst h
      rw [trim_append_zero, ih, value_append, value_singleton]
      rfl
    · rw [trim_append_of_ne xs h]

theorem trimmed_trim (xs : List UInt64) : Trimmed (trim xs) := by
  induction xs using List.reverseRecOn with
  | nil => exact nofun
  | append_singleton xs x ih =>
    by_cases h : x = 0
    · subst h
      rwa [trim_append_zero]
    · rw [trim_append_of_ne xs h, Trimmed, List.getLast?_append]
      exact fun heq => h (Option.some.inj heq)

/-- The weight of the top place is reached. -/
theorem le_value_of_trimmed (h : Trimmed xs) (hne : xs ≠ []) :
    base ^ (xs.length - 1) ≤ value xs := by
  obtain ⟨ys, x, rfl⟩ : ∃ ys x, xs = ys ++ [x] :=
    ⟨xs.dropLast, xs.getLast hne, (List.dropLast_concat_getLast hne).symm⟩
  have hx : x ≠ 0 := by
    intro heq
    refine h ?_
    rw [List.getLast?_append, heq]
    rfl
  have hpos : 0 < x.toNat := Nat.pos_of_ne_zero fun h0 => hx (UInt64.toNat_inj.mp h0)
  have hle : base ^ ys.length * 1 ≤ base ^ ys.length * x.toNat := Nat.mul_le_mul_left _ hpos
  rw [value_append, value_singleton, List.length_append, List.length_singleton,
    Nat.add_sub_cancel]
  omega

/-- Trimmed lists are ordered by length first. -/
theorem value_lt_of_length_lt (hys : Trimmed ys) (h : xs.length < ys.length) :
    value xs < value ys := by
  have hne : ys ≠ [] := by
    rintro rfl
    exact absurd h (Nat.not_lt_zero _)
  calc value xs < base ^ xs.length := value_lt xs
    _ ≤ base ^ (ys.length - 1) := Nat.pow_le_pow_right (by decide) (by omega)
    _ ≤ value ys := le_value_of_trimmed hys hne

/-- A number has one trimmed listing. -/
theorem eq_of_trimmed (hxs : Trimmed xs) (hys : Trimmed ys) (h : value xs = value ys) :
    xs = ys := by
  rcases Nat.lt_trichotomy xs.length ys.length with hlt | heq | hgt
  · exact absurd h (Nat.ne_of_lt (value_lt_of_length_lt hys hlt))
  · exact value_inj heq h
  · exact absurd h.symm (Nat.ne_of_lt (value_lt_of_length_lt hxs hgt))

/-! ## Comparison -/

/-- The first difference from the top decides. -/
def compareTop : List UInt64 → List UInt64 → Ordering
  | x :: xs, y :: ys => if x < y then .lt else if y < x then .gt else compareTop xs ys
  | _, _ => .eq

theorem compare_eq_of_split {x y a b : Nat} (w : Nat) (hx : x < w) (hy : y < w) :
    compare (x + w * a) (y + w * b) = (compare a b).then (compare x y) := by
  rcases Nat.lt_trichotomy a b with hlt | rfl | hgt
  · have hle : w * (a + 1) ≤ w * b := Nat.mul_le_mul_left _ hlt
    rw [Nat.mul_add, Nat.mul_one] at hle
    rw [Nat.compare_eq_lt.mpr hlt, Nat.compare_eq_lt.mpr (by omega)]
    rfl
  · rw [Nat.compare_eq_eq.mpr rfl]
    rcases Nat.lt_trichotomy x y with hlt | rfl | hgt
    · rw [Nat.compare_eq_lt.mpr hlt, Nat.compare_eq_lt.mpr (by omega)]
      rfl
    · rw [Nat.compare_eq_eq.mpr rfl, Nat.compare_eq_eq.mpr rfl]
      rfl
    · rw [Nat.compare_eq_gt.mpr hgt, Nat.compare_eq_gt.mpr (by omega)]
      rfl
  · have hle : w * (b + 1) ≤ w * a := Nat.mul_le_mul_left _ hgt
    rw [Nat.mul_add, Nat.mul_one] at hle
    rw [Nat.compare_eq_gt.mpr hgt, Nat.compare_eq_gt.mpr (by omega)]
    rfl

/-- From the top down, words of one length compare as their numbers. -/
theorem compareTop_eq : ∀ {xs ys : List UInt64}, xs.length = ys.length →
    compareTop xs ys = compare (value xs.reverse) (value ys.reverse)
  | [], [], _ => rfl
  | x :: xs, y :: ys, h => by
      have hlength : xs.length = ys.length := by simpa using h
      have hx := value_lt xs.reverse
      have hy := value_lt ys.reverse
      rw [List.length_reverse] at hx hy
      rw [List.reverse_cons, List.reverse_cons, value_append, value_append, List.length_reverse,
        List.length_reverse, ← hlength, value_singleton, value_singleton,
        compare_eq_of_split _ hx (hlength ▸ hy), ← compareTop_eq hlength, compareTop]
      rcases Nat.lt_trichotomy x.toNat y.toNat with hlt | heq | hgt
      · rw [if_pos (UInt64.lt_iff_toNat_lt.mpr hlt), Nat.compare_eq_lt.mpr hlt]
        rfl
      · rw [if_neg (fun hlt => by rw [UInt64.lt_iff_toNat_lt] at hlt; omega),
          if_neg (fun hlt => by rw [UInt64.lt_iff_toNat_lt] at hlt; omega),
          Nat.compare_eq_eq.mpr heq]
        rfl
      · rw [if_neg (fun hlt => by rw [UInt64.lt_iff_toNat_lt] at hlt; omega),
          if_pos (UInt64.lt_iff_toNat_lt.mpr hgt), Nat.compare_eq_gt.mpr hgt]
        rfl

/-! ## Bits -/

/-- A bit of the number is a bit of one word. -/
theorem testBit_value (xs : List UInt64) (i : Nat) :
    (value xs).testBit i = ((xs[i / 64]?).getD 0).toNat.testBit (i % 64) := by
  induction xs generalizing i with
  | nil => simp
  | cons x xs ih =>
    rw [value_cons, Nat.add_comm, Nat.testBit_two_pow_mul_add _ x.toNat_lt]
    split_ifs with h
    · rw [Nat.div_eq_of_lt h, Nat.mod_eq_of_lt h]
      rfl
    · have hdiv : i / 64 = (i - 64) / 64 + 1 := by omega
      have hmod : i % 64 = (i - 64) % 64 := by omega
      rw [ih, hdiv, hmod]
      rfl

/-- A word with more added to it. -/
theorem value_set {i d : Nat} {y : UInt64} (hx : xs[i]? = some x) (hy : y.toNat = x.toNat + d) :
    value (xs.set i y) = value xs + base ^ i * d := by
  induction xs generalizing i with
  | nil => cases hx
  | cons z xs ih =>
    cases i with
    | zero =>
      obtain rfl : z = x := Option.some.inj hx
      rw [List.set_cons_zero, value_cons, value_cons, hy, Nat.pow_zero]
      omega
    | succ i =>
      rw [List.set_cons_succ, value_cons, value_cons, ih hx, Nat.pow_succ]
      ring

/-- Setting a bit where it and all bits below it are zero. -/
theorem toNat_or_bit {k : Nat} (hk : k < 64) (hx : x.toNat % 2 ^ (k + 1) = 0) :
    (x ||| 1 <<< UInt64.ofNat k).toNat = x.toNat + 2 ^ k := by
  have hbit : ((1 : UInt64) <<< UInt64.ofNat k).toNat = 2 ^ k := by
    have hpow : 2 ^ k < 2 ^ 64 := Nat.pow_lt_pow_right (by decide) hk
    have hword : (UInt64.ofNat k).toNat = k :=
      UInt64.toNat_ofNat_of_lt' (Nat.lt_trans hk (by decide))
    rw [UInt64.toNat_shiftLeft, hword, Nat.mod_eq_of_lt hk, UInt64.toNat_one, Nat.shiftLeft_eq,
      Nat.one_mul, Nat.mod_eq_of_lt hpow]
  have hlt : 2 ^ k < 2 ^ (k + 1) := Nat.pow_lt_pow_right (by decide) (Nat.lt_succ_self k)
  have hx' := Nat.mod_add_div x.toNat (2 ^ (k + 1))
  rw [hx, Nat.zero_add] at hx'
  rw [UInt64.toNat_or, hbit, ← hx', ← Nat.two_pow_add_eq_or_of_lt hlt]

/-- `limbs[i / 64] |= 1 << (i % 64)`. -/
def setBit (xs : List UInt64) (i : Nat) : List UInt64 :=
  xs.set (i / 64) (xs.getD (i / 64) 0 ||| 1 <<< UInt64.ofNat (i % 64))

@[simp] theorem length_setBit (xs : List UInt64) (i : Nat) : (setBit xs i).length = xs.length :=
  List.length_set

theorem base_pow_mul_two_pow (i : Nat) : base ^ (i / 64) * 2 ^ (i % 64) = 2 ^ i := by
  rw [base, ← Nat.pow_mul, ← Nat.pow_add, Nat.div_add_mod]

/-- Where a number has no bits up to a place, its word there has none. -/
theorem word_mod_eq_zero {i : Nat} (hx : xs[i / 64]? = some x) (h : value xs % 2 ^ (i + 1) = 0) :
    x.toNat % 2 ^ (i % 64 + 1) = 0 := by
  refine Nat.eq_of_testBit_eq fun j => ?_
  rw [Nat.testBit_mod_two_pow, Nat.zero_testBit]
  by_cases hj : j < i % 64 + 1
  · have hbit := testBit_value xs (64 * (i / 64) + j)
    have hdiv : (64 * (i / 64) + j) / 64 = i / 64 := by omega
    have hmod : (64 * (i / 64) + j) % 64 = j := by omega
    rw [hdiv, hmod, hx, Option.getD_some] at hbit
    have hzero := congrArg (fun n => Nat.testBit n (64 * (i / 64) + j)) h
    simp only [Nat.testBit_mod_two_pow, Nat.zero_testBit] at hzero
    have hclear : (value xs).testBit (64 * (i / 64) + j) = false := by
      simpa [show 64 * (i / 64) + j < i + 1 by omega] using hzero
    rw [← hbit, hclear, Bool.and_false]
  · simp [hj]

theorem value_setBit {i : Nat} (hi : i / 64 < xs.length) (h : value xs % 2 ^ (i + 1) = 0) :
    value (setBit xs i) = value xs + 2 ^ i := by
  have hx : xs[i / 64]? = some xs[i / 64] := List.getElem?_eq_getElem hi
  have hget : xs.getD (i / 64) 0 = xs[i / 64] := by rw [List.getD_eq_getElem?_getD, hx]; rfl
  have hword := toNat_or_bit (Nat.mod_lt i (by decide)) (word_mod_eq_zero hx h)
  rw [setBit, hget, value_set hx hword, base_pow_mul_two_pow]

end Cairn.Verified.Limbs
