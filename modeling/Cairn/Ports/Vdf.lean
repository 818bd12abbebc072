import Cairn.Ports.Crypto.Bytes
import Cairn.Ports.Crypto.Montgomery
import Cairn.Ports.P2p.Handshake
import Cairn.Ports.Sync.Peer
import Cairn.Verified.StrongTest

/-!
# The delay and its proof

`src/vdf.rs`. A seed gives an element `x` of the group modulo `RSA_2048`; the output
is `x` squared `T` times, and the witness is `x` to the quotient of `2 ^ T` by a
challenge that depends on both. The quotient is never written down: its bits come
out of a long division that runs along with the squarings.

The division streams a one a turn, so it divides `2 ^ T - 1`, and its quotient is
that of `2 ^ T` because the challenge is odd. The search for the challenge stops:
its test accepts every prime, and an odd prime is never far above. What it stops at
is odd and above one, and nothing here needs more of it.
-/

namespace Cairn.Ports.Vdf

open Cairn.Verified Cairn.Verified.StrongTest
open Cairn.Ports.Canonical Cairn.Ports.Crypto
open Cairn.Ports.P2p (bytesOf sha256)

/-- The RSA Factoring Challenge's 2048-bit modulus. -/
def RSA_2048 : String :=
  "c7970ceedcc3b0754490201a7aa613cd73911081c790f5f1a8726f463550bb5b7ff0db8e1ea1189e" ++
  "c72f93d1650011bd721aeeacc2acde32a04107f0648c2813a31f5b0b7765ff8b44b4b6ffc93384b6" ++
  "46eb09c7cf5e8592d40ea33c80039f35b4f14a04b51f7bfd781be4d1673164ba8eb991c2c4d730bb" ++
  "be35f592bdef524af7e8daefd26c66fc02c479af89d64d373f442709439de66ceb955f3ea37d5159" ++
  "f6135809f85334b5cb1813addc80cd05609f10ac6a95ad65872c909525bdad32bc729592642920f2" ++
  "4c61dc5b3c3b7923e56b16a4d9d373d8721f24a3fc0f1b3131f55615172866bccc30f95054c824e7" ++
  "33a5eb6817f7bc16399d48c6361cc7e5"

/-- How many bytes the group's elements serialise to. -/
def ELEMENT_BYTES : Nat := 256

def CHALLENGE_BITS : Nat := 128

/-- A computed delay, and the proof that it was computed. -/
structure Proof where
  output : List UInt8
  witness : List UInt8
deriving DecidableEq

/-- The bytes of the modulus; the text is a constant in hexadecimal. -/
def modulusBytes : List UInt8 := (Sync.bytePairs RSA_2048.toList).getD []

/-- `RSA_2048` as a number. -/
def modulus : BigNat := .fromBeBytes modulusBytes

/-! ## The modulus -/

theorem bytePairs_append {xs ys : List Char} {as bs : List UInt8} (hx : Sync.bytePairs xs = some as)
    (hy : Sync.bytePairs ys = some bs) : Sync.bytePairs (xs ++ ys) = some (as ++ bs) := by
  induction xs using Sync.bytePairs.induct generalizing as with
  | case1 =>
    obtain rfl : [] = as := Option.some.inj hx
    exact hy
  | case2 c => cases hx
  | case3 c d rest ih =>
    rw [Sync.bytePairs, Option.bind_eq_bind, Option.bind_eq_some_iff] at hx
    obtain ⟨byte, hbyte, hx⟩ := hx
    rw [Option.bind_eq_bind, Option.bind_eq_some_iff] at hx
    obtain ⟨bytes, hbytes, hx⟩ := hx
    obtain rfl := Option.some.inj hx
    rw [List.cons_append, List.cons_append, Sync.bytePairs, hbyte, ih hbytes]
    rfl

/-- A line of digits spells so many bytes. -/
def Spells (text : String) (count : Nat) (last : UInt8) : Prop :=
  ∃ bytes, Sync.bytePairs text.toList = some (bytes ++ [last]) ∧ bytes.length + 1 = count

theorem Spells.append {s t : String} {m n : Nat} {a b : UInt8} (hs : Spells s m a)
    (ht : Spells t n b) : Spells (s ++ t) (m + n) b := by
  obtain ⟨as, has, hm⟩ := hs
  obtain ⟨bs, hbs, hn⟩ := ht
  refine ⟨as ++ [a] ++ bs, ?_, ?_⟩
  · rw [String.toList_append, bytePairs_append has hbs, List.append_assoc _ bs]
  · simp only [List.length_append, List.length_singleton]
    omega

theorem spells_of {s : String} {n : Nat} {a : UInt8}
    (h : (Sync.bytePairs s.toList).any fun bytes => bytes.length = n ∧ bytes.getLast? = some a) :
    Spells s n a := by
  obtain ⟨bytes, hbytes, h⟩ := (Option.any_eq_true _ _).mp h
  rw [decide_eq_true_eq] at h
  obtain ⟨hn, ha⟩ := h
  obtain ⟨xs, rfl⟩ := List.getLast?_eq_some_iff.mp ha
  rw [List.length_append, List.length_singleton] at hn
  exact ⟨xs, hbytes, hn⟩

/-- The constant is 256 bytes, the last of them odd. -/
theorem spells_RSA_2048 : Spells RSA_2048 256 0xe5 := by
  unfold RSA_2048
  refine Spells.append (m := 240) (n := 16) (a := 0xe7) ?_ (spells_of (by rfl))
  refine Spells.append (m := 200) (n := 40) (a := 0xf2) ?_ (spells_of (by rfl))
  refine Spells.append (m := 160) (n := 40) (a := 0x59) ?_ (spells_of (by rfl))
  refine Spells.append (m := 120) (n := 40) (a := 0xbb) ?_ (spells_of (by rfl))
  refine Spells.append (m := 80) (n := 40) (a := 0xb6) ?_ (spells_of (by rfl))
  exact Spells.append (m := 40) (n := 40) (a := 0x9e) (spells_of (by rfl)) (spells_of (by rfl))

/-- The modulus is an odd number of 256 bytes. -/
theorem modulus_spec : modulus.value % 2 = 1 ∧ 1 < modulus.value ∧
    modulus.value < 256 ^ ELEMENT_BYTES := by
  obtain ⟨bytes, hbytes, hlength⟩ := spells_RSA_2048
  have hvalue : modulus.value = 256 * beValue bytes + 229 := by
    rw [modulus, modulusBytes, hbytes, Option.getD_some, BigNat.value_fromBeBytes, beValue_append]
    rfl
  have hlt := beValue_lt bytes
  rw [show bytes.length = 255 by omega] at hlt
  rw [hvalue]
  refine ⟨by omega, by omega, ?_⟩
  calc 256 * beValue bytes + 229 < 256 * 256 ^ 255 := by omega
    _ = 256 ^ ELEMENT_BYTES := (Nat.pow_succ' ..).symm

theorem modulus_isZero : modulus.isZero = false := by
  rw [Bool.eq_false_iff, ne_eq, BigNat.isZero_iff]
  have := modulus_spec.2.1
  omega

/-! ## The primality test -/

def BASES : List UInt64 := [2, 3, 5, 7, 11, 13, 17, 19, 23, 29, 31, 37]

/-- Trial division by the bases: an answer where one of them decides. -/
def trialDivision (n : BigNat) : List UInt64 → Option Bool
  | [] => none
  | b :: bs =>
    if n.cmp (.fromU64 b) = .eq then some true
    else if h : (BigNat.fromU64 b).isZero = false then
      if (n.rem (.fromU64 b) h).isZero then some false else trialDivision n bs
    -- No base is zero.
    else trialDivision n bs

/-- `while !n.bit(s) { s += 1 }`, from `s` on. -/
def lowestBit (n : BigNat) : Nat → Nat → Nat
  | 0, s => s
  | fuel + 1, s => if n.bit s then s else lowestBit n fuel (s + 1)

def shiftRight (value : BigNat) (bits : Nat) : BigNat :=
  (List.range' bits (value.bits - bits)).reverse.foldl (BigNat.pullBit value) .zero

/-- The squarings of one base. -/
def squarings (m : Montgomery) (nMinusOne : BigNat) : Nat → BigNat → Bool
  | 0, _ => false
  | count + 1, x =>
    let square := m.leave (m.mul (m.enter x) (m.enter x))
    if square.cmp nMinusOne = .eq then true else squarings m nMinusOne count square

/-- One base of the strong test. -/
def passes (m : Montgomery) (nMinusOne d : BigNat) (s : Nat) (b : UInt64) : Bool :=
  let x := m.pow (.fromU64 b) d
  if x.cmp .one = .eq ∨ x.cmp nMinusOne = .eq then true else squarings m nMinusOne (s - 1) x

/-- Miller–Rabin with fixed bases. -/
def isProbablePrime (n : BigNat) : Bool :=
  if n.cmp (.fromU64 2) = .lt then false
  else
    match trialDivision n BASES with
    | some answer => answer
    | none =>
      match Montgomery.new n with
      | none => false
      | some m =>
        let nMinusOne := n.sub .one
        let s := lowestBit nMinusOne nMinusOne.bits 0
        BASES.all (passes m nMinusOne (shiftRight nMinusOne s) s)

/-- The walk up to the next probable prime. -/
def search : Nat → BigNat → Option BigNat
  | 0, _ => none
  | fuel + 1, candidate =>
    if isProbablePrime candidate then some candidate
    else search fuel (candidate.add (.fromU64 2))

/-- The high bit of the first byte cleared. -/
def clearTop : List UInt8 → List UInt8
  | [] => []
  | b :: bytes => (b &&& 0x7f) :: bytes

/-- Where the walk starts: the top bits of a digest, forced odd. -/
def firstCandidate (digest : List UInt8) : BigNat :=
  let candidate := BigNat.fromBeBytes (clearTop (digest.take (CHALLENGE_BITS / 8)))
  if candidate.isOdd then candidate else candidate.add .one

section Digest

variable [Sha256]

/-- The group element a seed maps to. -/
def element (seed : List UInt8) : BigNat :=
  (BigNat.fromBeBytes ((sha256 (bytesOf "proofwork/vdf/x1" ++ seed)).toList ++
    (sha256 (bytesOf "proofwork/vdf/x2" ++ seed)).toList)).rem modulus modulus_isZero

def transcript (x y : BigNat) (difficulty : UInt64) : List UInt8 :=
  bytesOf "proofwork/vdf/challenge" ++ x.toBeBytes ELEMENT_BYTES ++ y.toBeBytes ELEMENT_BYTES ++
    P2p.toBeBytes difficulty

/-- The Fiat–Shamir challenge: the first prime at or above the digest of the
transcript. The walk has more turns than it ever takes, see `challenge_isSome`. -/
def challenge (x y : BigNat) (difficulty : UInt64) : Option BigNat :=
  search (2 ^ 127) (firstCandidate (sha256 (transcript x y difficulty)).toList)

/-- One turn of the quotient stream: the witness and the remainder, a `u128`. -/
def proveStep (m : Montgomery) (entered : BigNat) (small : Nat) (state : BigNat × Nat) :
    BigNat × Nat :=
  let doubled := (state.2 + state.2) % 2 ^ 128
  let carry := 2 ^ 128 ≤ state.2 + state.2
  let value := (doubled + 1) % 2 ^ 128
  let carryTwo := 2 ^ 128 ≤ doubled + 1
  let witness := m.mul state.1 state.1
  if (carry ∨ carryTwo) ∨ small ≤ value then
    (m.mul witness entered, (value + 2 ^ 128 - small) % 2 ^ 128)
  else (witness, value)

/-- The sequential part: `T` squarings. -/
def evaluate (m : Montgomery) (x : BigNat) (difficulty : UInt64) : BigNat :=
  m.leave ((fun y => m.mul y y)^[difficulty.toNat] (m.enter x))

/-- The witness, by the long division of the quotient along with the squarings. -/
def witnessOf (m : Montgomery) (x : BigNat) (small : Nat) (difficulty : UInt64) : BigNat :=
  m.leave ((proveStep m (m.enter x) small)^[difficulty.toNat] (m.one, 0)).1

/-- Compute the delay and its proof. Nothing comes out where the source panics: for
an even modulus, or a challenge over 128 bits. -/
def prove (seed : List UInt8) (difficulty : UInt64) : Option Proof :=
  (Montgomery.new modulus).bind fun m => do
    let x := element seed
    let y := evaluate m x difficulty
    let l ← challenge x y difficulty
    let small ← l.toU128
    some
      { output := y.toBeBytes ELEMENT_BYTES
        witness := (witnessOf m x small difficulty).toBeBytes ELEMENT_BYTES }

/-- What the last line of `verify` compares. -/
def checks (m small : Montgomery) (x y witness l : BigNat) (difficulty : UInt64) : Bool :=
  let r := small.pow (.fromU64 2) (.fromU64 difficulty)
  let left := m.mul (m.enter (m.pow witness l)) (m.enter (m.pow x r))
  (m.leave left).cmp y = .eq

/-- Does this proof show that the seed at this difficulty really produces the
output? -/
def verify (seed : List UInt8) (difficulty : UInt64) (proof : Proof) : Option Bool :=
  if proof.output.length ≠ ELEMENT_BYTES ∨ proof.witness.length ≠ ELEMENT_BYTES then some false
  else
    (Montgomery.new modulus).bind fun m =>
      let x := element seed
      let y := BigNat.fromBeBytes proof.output
      let witness := BigNat.fromBeBytes proof.witness
      if y.cmp m.modulus ≠ .lt ∨ witness.cmp m.modulus ≠ .lt then some false
      else do
        let l ← challenge x y difficulty
        let small ← Montgomery.new l
        some (checks m small x y witness l difficulty)

end Digest

/-! ## The search answers -/

theorem cmp_eq_eq_iff (a b : BigNat) : a.cmp b = .eq ↔ a.value = b.value := by
  rw [BigNat.cmp_eq, Nat.compare_eq_eq]

variable {n : BigNat} {m : Montgomery}

theorem trialDivision_of_prime (hn : n.value.Prime) {bases : List UInt64}
    (h : ∀ b ∈ bases, b.toNat.Prime) :
    trialDivision n bases = some true ∨
      trialDivision n bases = none ∧ ∀ b ∈ bases, ¬ n.value ∣ b.toNat := by
  induction bases with
  | nil => exact .inr ⟨rfl, by simp⟩
  | cons b bs ih =>
    have hb := h b List.mem_cons_self
    simp only [trialDivision, cmp_eq_eq_iff, BigNat.value_fromU64]
    by_cases heq : n.value = b.toNat
    · rw [if_pos heq]
      exact .inl rfl
    · have hzero : (BigNat.fromU64 b).isZero = false := by
        rw [Bool.eq_false_iff, ne_eq, BigNat.isZero_iff, BigNat.value_fromU64]
        exact hb.ne_zero
      have hrem : ¬ (n.rem (.fromU64 b) hzero).isZero = true := by
        rw [BigNat.isZero_iff, BigNat.value_rem, BigNat.value_fromU64]
        intro hmod
        exact heq ((Nat.prime_dvd_prime_iff_eq hb hn).mp (Nat.dvd_of_mod_eq_zero hmod)).symm
      rw [if_neg heq, dif_pos hzero, if_neg hrem]
      rcases ih fun b' hb' => h b' (List.mem_cons_of_mem _ hb') with htrue | ⟨hnone, hrest⟩
      · exact .inl htrue
      · refine .inr ⟨hnone, fun b' hb' hdvd => ?_⟩
        rcases List.mem_cons.mp hb' with rfl | hb'
        · exact heq ((Nat.prime_dvd_prime_iff_eq hn hb).mp hdvd)
        · exact hrest b' hb' hdvd

theorem lowestBit_spec {n : BigNat} (hpos : 0 < n.value) {fuel s : Nat} (hdvd : 2 ^ s ∣ n.value)
    (hfuel : n.value < 2 ^ (s + fuel)) :
    2 ^ lowestBit n fuel s ∣ n.value ∧ n.value.testBit (lowestBit n fuel s) = true := by
  induction fuel generalizing s with
  | zero => exact absurd (Nat.le_of_dvd hpos hdvd) (Nat.not_le.mpr hfuel)
  | succ fuel ih =>
    rw [lowestBit, BigNat.bit_eq]
    split_ifs with hbit
    · exact ⟨hdvd, hbit⟩
    · refine ih ?_ (by rwa [Nat.add_right_comm])
      have hlow : n.value % 2 ^ (s + 1) = 0 := by
        rw [Montgomery.mod_two_pow_succ, Nat.mod_eq_zero_of_dvd hdvd, Bool.eq_false_iff.mpr hbit]
        rfl
      exact Nat.dvd_of_mod_eq_zero hlow

theorem value_pullBits (n : BigNat) (bits count : Nat) {start : BigNat}
    (h : start.value = n.value / 2 ^ (bits + count)) :
    ((List.range' bits count).reverse.foldl (BigNat.pullBit n) start).value =
      n.value / 2 ^ bits := by
  induction count generalizing start with
  | zero => exact h
  | succ count ih =>
    rw [List.range'_1_concat, List.reverse_append, List.reverse_singleton,
      List.singleton_append, List.foldl_cons]
    refine ih ?_
    rw [BigNat.value_pullBit, h, BigNat.div_two_pow_eq n.value (bits + count), Nat.add_assoc]

theorem value_shiftRight (n : BigNat) (bits : Nat) :
    (shiftRight n bits).value = n.value / 2 ^ bits := by
  refine value_pullBits n bits _ ?_
  refine (Nat.div_eq_of_lt (Nat.lt_of_lt_of_le (BigNat.value_lt_bits n).1 ?_)).symm
  exact Nat.pow_le_pow_right (by decide) (by omega)

theorem squarings_eq (m : Montgomery) {minus : BigNat} (h : minus.value = m.modulus.value - 1)
    (count : Nat) (x : BigNat) :
    squarings m minus count x = squareUntil m.modulus.value count x.value := by
  induction count generalizing x with
  | zero => rfl
  | succ count ih =>
    have hsquare : (m.leave (m.mul (m.enter x) (m.enter x))).value =
        x.value * x.value % m.modulus.value :=
      ((Montgomery.represents_enter x).mul (Montgomery.represents_enter x)).value_leave
    simp only [squarings, squareUntil, ih, cmp_eq_eq_iff, hsquare, h]
    by_cases heq : x.value * x.value % m.modulus.value = m.modulus.value - 1 <;> simp [heq]

/-- A prime modulus passes for every base it does not divide. -/
theorem passes_of_prime (hp : m.modulus.value.Prime) {minus d : BigNat} {s : Nat}
    (hminus : minus.value = m.modulus.value - 1) (hs : 0 < s)
    (hd : m.modulus.value - 1 = d.value * 2 ^ s) {b : UInt64} (hb : ¬ m.modulus.value ∣ b.toNat) :
    passes m minus d s b = true := by
  have hstrong := strong_of_prime hp hs hd hb
  simp only [passes, cmp_eq_eq_iff, squarings_eq m hminus, m.value_pow, BigNat.value_one,
    BigNat.value_fromU64, hminus]
  rcases hstrong with h | h | h <;> simp [h]

/-- The test accepts every prime. -/
theorem isProbablePrime_of_prime (hn : n.value.Prime) : isProbablePrime n = true := by
  have hbases : ∀ b ∈ BASES, b.toNat.Prime := by
    simp only [BASES, List.forall_mem_cons, UInt64.reduceToNat]
    norm_num
  have htwo := hn.two_le
  have hlt : ¬ n.cmp (.fromU64 2) = .lt := by
    rw [BigNat.cmp_eq_lt_iff, BigNat.value_fromU64]
    exact Nat.not_lt.mpr htwo
  rw [isProbablePrime, if_neg hlt]
  rcases trialDivision_of_prime hn hbases with h | ⟨h, hrest⟩
  · rw [h]
  · have hodd : n.value % 2 = 1 := by
      refine hn.eq_two_or_odd.resolve_left fun h2 => hrest 2 (by decide) ?_
      rw [h2]
      rfl
    obtain ⟨m, hnew, rfl⟩ := Montgomery.new_spec hodd
    have hminus : (m.modulus.sub .one).value = m.modulus.value - 1 :=
      BigNat.value_sub (Nat.le_of_lt htwo)
    obtain ⟨hdvd, hbit⟩ := @lowestBit_spec (m.modulus.sub .one)
      (by rw [hminus]; omega) (m.modulus.sub .one).bits 0 (Nat.one_dvd _)
      (by rw [Nat.zero_add]; exact (BigNat.value_lt_bits _).1)
    rw [h, hnew, List.all_eq_true]
    intro b hb
    refine passes_of_prime hn hminus ?_ ?_ (hrest b hb)
    · refine Nat.pos_of_ne_zero fun h0 => ?_
      rw [h0, Nat.testBit_zero, hminus, decide_eq_true_eq] at hbit
      omega
    · rw [value_shiftRight, Nat.div_mul_cancel hdvd, hminus]

/-- The walk stops where the test accepts, at the latest. -/
theorem search_isSome {fuel k : Nat} (hk : k < fuel) {candidate : BigNat}
    (h : ∀ n : BigNat, n.value = candidate.value + 2 * k → isProbablePrime n = true) :
    ∃ l, search fuel candidate = some l ∧ isProbablePrime l = true ∧
      ∃ j ≤ k, l.value = candidate.value + 2 * j := by
  induction fuel generalizing k candidate with
  | zero => exact absurd hk (Nat.not_lt_zero _)
  | succ fuel ih =>
    rw [search]
    split_ifs with hprime
    · exact ⟨candidate, rfl, hprime, 0, Nat.zero_le _, rfl⟩
    · have hnext : (candidate.add (.fromU64 2)).value = candidate.value + 2 := by
        rw [BigNat.value_add, BigNat.value_fromU64]
        rfl
      cases k with
      | zero => exact absurd (h candidate rfl) hprime
      | succ k =>
        obtain ⟨l, hl, hpl, j, hj, hvalue⟩ := @ih k (by omega)
          (candidate.add (.fromU64 2)) fun n hn => h n (by rw [hn, hnext]; omega)
        exact ⟨l, hl, hpl, j + 1, by omega, by rw [hvalue, hnext]; omega⟩

theorem beValue_clearTop {bytes : List UInt8} (h : bytes.length = 16) :
    beValue (clearTop bytes) < 2 ^ 127 := by
  obtain ⟨b, rest, rfl⟩ := List.exists_cons_of_length_eq_add_one h
  have hrest := beValue_lt rest
  have hb : (b &&& 0x7f).toNat < 2 ^ 7 := by
    rw [UInt8.toNat_and]
    exact Nat.and_lt_two_pow _ (by decide)
  have hlength : rest.length = 15 := Nat.succ.inj h
  rw [hlength] at hrest
  rw [clearTop, beValue_cons, hlength]
  omega

theorem firstCandidate_spec (digest : Vector UInt8 32) :
    (firstCandidate digest.toList).value % 2 = 1 ∧
      (firstCandidate digest.toList).value < 2 ^ 127 := by
  have htop := @beValue_clearTop (digest.toList.take (CHALLENGE_BITS / 8))
    (by rw [List.length_take, Vector.length_toList]; rfl)
  rw [← BigNat.value_fromBeBytes] at htop
  rw [firstCandidate]
  split_ifs with hodd
  · exact ⟨(BigNat.isOdd_iff _).mp hodd, htop⟩
  · rw [BigNat.isOdd_iff] at hodd
    rw [BigNat.value_add, BigNat.value_one]
    omega

theorem one_lt_of_isProbablePrime (h : isProbablePrime n = true) : 1 < n.value := by
  rw [isProbablePrime] at h
  split_ifs at h with hlt
  rw [BigNat.cmp_eq_lt_iff, BigNat.value_fromU64] at hlt
  exact Nat.not_lt.mp hlt

section Digest

variable [Sha256]

/-- The walk to the challenge stops, at an odd number the test accepts. -/
theorem challenge_isSome (x y : BigNat) (difficulty : UInt64) :
    ∃ l, challenge x y difficulty = some l ∧ isProbablePrime l = true ∧ l.value % 2 = 1 ∧
      1 < l.value ∧ l.value < 2 ^ 128 := by
  obtain ⟨hodd, hlt⟩ := firstCandidate_spec (sha256 (transcript x y difficulty))
  obtain ⟨k, hprime, hle⟩ := exists_oddPrime hodd
  obtain ⟨l, hl, hpl, j, hj, hvalue⟩ := @search_isSome (2 ^ 127) k (by omega) _
    fun n hn => isProbablePrime_of_prime (hn ▸ hprime)
  exact ⟨l, hl, hpl, by omega, one_lt_of_isProbablePrime hpl, by omega⟩

end Digest

theorem toU128_eq (h : n.value < 2 ^ 128) : n.toU128 = some n.value := by
  have hlength : n.limbs.length ≤ 2 := by
    by_contra hlong
    have hle := Limbs.le_value_of_trimmed n.trimmed (by
      intro hnil
      rw [hnil] at hlong
      exact hlong (Nat.zero_le _))
    have hpow : Limbs.base ^ 2 ≤ Limbs.base ^ (n.limbs.length - 1) :=
      Nat.pow_le_pow_right (by decide) (by omega)
    exact absurd (hpow.trans hle) (Nat.not_le.mpr h)
  rw [BigNat.toU128, if_neg (Nat.not_lt.mpr hlength)]
  unfold BigNat.value
  match hl : n.limbs with
  | [] => rfl
  | [a] => simp
  | [a, b] => simp [Limbs.value, Limbs.base]; omega
  | a :: b :: c :: rest =>
    rw [hl] at hlength
    simp at hlength

/-! ## The quotient stream -/

variable {x : BigNat}

/-- A turn of the stream doubles the quotient of `2 ^ t - 1` and adds its next bit. -/
theorem proveStep_spec {small : Nat} (hsmall : small < 2 ^ 128) (hpos : 0 < small)
    {state : BigNat × Nat} {q : Nat} (hw : m.Represents state.1 (x.value ^ (q / small)))
    (hr : state.2 = q % small) :
    m.Represents (proveStep m (m.enter x) small state).1 (x.value ^ ((2 * q + 1) / small)) ∧
      (proveStep m (m.enter x) small state).2 = (2 * q + 1) % small := by
  have hlt := Nat.mod_lt q hpos
  obtain ⟨hsubtract, hkeep⟩ := BigNat.div_mod_double (m := q) 1 hpos le_rfl
  have hsquare := hw.mul hw
  rw [← Nat.pow_add, ← Nat.two_mul] at hsquare
  rw [proveStep, hr]
  by_cases hle : small ≤ 2 * (q % small) + 1
  · obtain ⟨hq, hrem⟩ := hsubtract hle
    rw [if_pos (by omega), hq, hrem, Nat.pow_succ]
    exact ⟨hsquare.mul (Montgomery.represents_enter x), by dsimp only; omega⟩
  · obtain ⟨hq, hrem⟩ := hkeep (Nat.not_le.mp hle)
    rw [if_neg (by omega), hq, hrem]
    exact ⟨hsquare, by dsimp only; omega⟩

theorem proveStep_run {small : Nat} (hsmall : small < 2 ^ 128) (hpos : 0 < small) (t : Nat) :
    m.Represents ((proveStep m (m.enter x) small)^[t] (m.one, 0)).1
        (x.value ^ ((2 ^ t - 1) / small)) ∧
      ((proveStep m (m.enter x) small)^[t] (m.one, 0)).2 = (2 ^ t - 1) % small := by
  induction t with
  | zero =>
    rw [Nat.pow_zero, Nat.sub_self, Nat.zero_div, Nat.pow_zero, Nat.zero_mod]
    exact ⟨Montgomery.represents_one, rfl⟩
  | succ t ih =>
    have hpow := Nat.two_pow_pos t
    have hdouble : 2 ^ (t + 1) - 1 = 2 * (2 ^ t - 1) + 1 := by
      rw [Nat.pow_succ]
      omega
    rw [Function.iterate_succ_apply', hdouble]
    exact proveStep_spec hsmall hpos ih.1 ih.2

/-- An odd number above one divides no power of two, so one less has the same
quotient. -/
theorem pow_sub_one_div {l : Nat} (hodd : l % 2 = 1) (hone : 1 < l) (t : Nat) :
    (2 ^ t - 1) / l = 2 ^ t / l := by
  have hcoprime : Nat.Coprime l (2 ^ t) :=
    Nat.Coprime.pow_right _ (Nat.coprime_two_right.mpr (Nat.odd_iff.mpr hodd))
  have hdvd : ¬ l ∣ 2 ^ t := fun h => by
    have := Nat.Coprime.eq_one_of_dvd hcoprime h
    omega
  have hpow := Nat.two_pow_pos t
  have hsucc := Nat.succ_div_of_not_dvd (a := 2 ^ t - 1) (b := l)
    (by rwa [Nat.sub_add_cancel hpow])
  rw [Nat.sub_add_cancel hpow] at hsucc
  exact hsucc.symm

theorem value_witnessOf (x : BigNat) {l : Nat} (hodd : l % 2 = 1) (hone : 1 < l) (hlt : l < 2 ^ 128)
    (difficulty : UInt64) :
    (witnessOf m x l difficulty).value =
      x.value ^ (2 ^ difficulty.toNat / l) % m.modulus.value := by
  rw [witnessOf, (proveStep_run hlt (by omega) difficulty.toNat).1.value_leave,
    pow_sub_one_div hodd hone]

theorem represents_squares (x : BigNat) (t : Nat) :
    m.Represents ((fun y => m.mul y y)^[t] (m.enter x)) (x.value ^ 2 ^ t) := by
  induction t with
  | zero =>
    rw [Nat.pow_zero, Nat.pow_one]
    exact Montgomery.represents_enter x
  | succ t ih =>
    rw [Function.iterate_succ_apply', Nat.pow_succ, Nat.mul_two, Nat.pow_add]
    exact ih.mul ih

theorem value_evaluate (x : BigNat) (difficulty : UInt64) :
    (evaluate m x difficulty).value = x.value ^ 2 ^ difficulty.toNat % m.modulus.value :=
  (represents_squares x difficulty.toNat).value_leave

/-- The check passes for the quotient's power. -/
theorem checks_of_quotient {small : Montgomery} {y witness : BigNat} {difficulty : UInt64}
    (hy : y.value = x.value ^ 2 ^ difficulty.toNat % m.modulus.value) (hwitness : witness.value =
      x.value ^ (2 ^ difficulty.toNat / small.modulus.value) % m.modulus.value) :
    checks m small x y witness small.modulus difficulty = true := by
  have hleft := (Montgomery.represents_enter (m := m) (m.pow witness small.modulus)).mul
    (Montgomery.represents_enter (m.pow x (small.pow (.fromU64 2) (.fromU64 difficulty))))
  have hr : (small.pow (.fromU64 2) (.fromU64 difficulty)).value =
      2 ^ difficulty.toNat % small.modulus.value := by
    rw [small.value_pow, BigNat.value_fromU64, BigNat.value_fromU64]
    rfl
  rw [checks, BigNat.cmp_eq, Nat.compare_eq_eq.mpr, decide_eq_true_eq]
  rw [hleft.value_leave, m.value_pow, m.value_pow, hwitness, hr, hy, ← Nat.pow_mod, ← Nat.mul_mod,
    ← Nat.pow_mul, ← Nat.pow_add, Nat.div_add_mod']

/-! ## Every honest proof verifies -/

section Digest

variable [Sha256]

theorem prove_eq {seed : List UInt8} {difficulty : UInt64} {m : Montgomery} {l : BigNat}
    (hnew : Montgomery.new modulus = some m)
    (hl : challenge (element seed) (evaluate m (element seed) difficulty) difficulty = some l)
    (hlt : l.value < 2 ^ 128) :
    prove seed difficulty = some
      { output := (evaluate m (element seed) difficulty).toBeBytes ELEMENT_BYTES
        witness := (witnessOf m (element seed) l.value difficulty).toBeBytes ELEMENT_BYTES } := by
  unfold prove
  rw [hnew, Option.bind_some]
  simp only [hl, toU128_eq hlt, Option.bind_eq_bind, Option.bind_some]

theorem verify_eq {seed : List UInt8} {difficulty : UInt64} {m small : Montgomery}
    {y witness l : BigNat} (hnew : Montgomery.new modulus = some m) (hm : m.modulus = modulus)
    (hy : y.value < modulus.value) (hwitness : witness.value < modulus.value)
    (hl : challenge (element seed) y difficulty = some l) (hsmall : Montgomery.new l = some small) :
    verify seed difficulty
        { output := y.toBeBytes ELEMENT_BYTES, witness := witness.toBeBytes ELEMENT_BYTES } =
      some (checks m small (element seed) y witness l difficulty) := by
  have hfits := modulus_spec.2.2
  have hrange : ¬ (y.cmp modulus ≠ .lt ∨ witness.cmp modulus ≠ .lt) := by
    simp [BigNat.cmp_eq_lt_iff, hy, hwitness]
  unfold verify
  rw [BigNat.length_toBeBytes, BigNat.length_toBeBytes, if_neg (by simp), hnew, Option.bind_some]
  simp only [BigNat.fromBeBytes_toBeBytes (hy.trans hfits),
    BigNat.fromBeBytes_toBeBytes (hwitness.trans hfits), hm, if_neg hrange, hl, hsmall,
    Option.bind_eq_bind, Option.bind_some]

/-- Every honest proof verifies. The output is the seed's element squared `T` times,
and the witness its power by the quotient. -/
theorem verify_prove (seed : List UInt8) (difficulty : UInt64) :
    ∃ (m : Montgomery) (l : BigNat) (proof : Proof),
      Montgomery.new modulus = some m ∧
        challenge (element seed) (evaluate m (element seed) difficulty) difficulty = some l ∧
        isProbablePrime l = true ∧ l.value % 2 = 1 ∧ 1 < l.value ∧
        prove seed difficulty = some proof ∧
        proof.output = (evaluate m (element seed) difficulty).toBeBytes ELEMENT_BYTES ∧
        beValue proof.output =
          (element seed).value ^ 2 ^ difficulty.toNat % modulus.value ∧
        proof.witness.length = ELEMENT_BYTES ∧
        beValue proof.witness =
          (element seed).value ^ (2 ^ difficulty.toNat / l.value) % modulus.value ∧
        verify seed difficulty proof = some true := by
  obtain ⟨hodd, hone, hfits⟩ := modulus_spec
  obtain ⟨m, hnew, hm⟩ := Montgomery.new_spec hodd
  obtain ⟨l, hl, hprime, hlodd, hlone, hlt⟩ := challenge_isSome (element seed)
    (evaluate m (element seed) difficulty) difficulty
  obtain ⟨small, hsmall, rfl⟩ := Montgomery.new_spec hlodd
  have hy := value_evaluate (m := m) (element seed) difficulty
  have hw := value_witnessOf (m := m) (element seed) hlodd hlone hlt difficulty
  have hchecks := checks_of_quotient hy hw
  rw [hm] at hy hw
  have hpos : 0 < modulus.value := Nat.lt_of_succ_lt hone
  have hyless : (evaluate m (element seed) difficulty).value < modulus.value := by
    rw [hy]
    exact Nat.mod_lt _ hpos
  have hwless : (witnessOf m (element seed) small.modulus.value difficulty).value <
      modulus.value := by
    rw [hw]
    exact Nat.mod_lt _ hpos
  refine ⟨m, small.modulus, _, hnew, hl, hprime, hlodd, hlone, prove_eq hnew hl hlt, rfl, ?_,
    BigNat.length_toBeBytes _ _, ?_, ?_⟩
  · rw [BigNat.beValue_toBeBytes, Nat.mod_eq_of_lt (hyless.trans hfits), hy]
  · rw [BigNat.beValue_toBeBytes, Nat.mod_eq_of_lt (hwless.trans hfits), hw]
  · rw [verify_eq hnew hm hyless hwless hl hsmall, hchecks]

end Digest

end Cairn.Ports.Vdf
