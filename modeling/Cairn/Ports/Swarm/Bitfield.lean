import Cairn.Ports.Swarm.Piece

/-!
# Which pieces a peer has

`Bitfield` of `src/p2p/swarm/piece.rs`. Bit 0 is the most significant bit of byte
0. A bitfield carries its own invariant: as many bytes as its pieces need, no bit
set past the last piece, and a count that is the number of bits set. `insert`
keeps it and `decode` accepts nothing else, so its bytes and its length are the
whole of a bitfield.
-/

namespace Cairn.Ports.Swarm

open Cairn.Ports.Shards (divCeil divCeil_spec)

/-- `count_ones`. -/
def countOnes (b : UInt8) : Nat := (List.range 8).countP fun i => b.toNat.testBit i

/-- The bits a piece index stands for: byte and mask. -/
def locate (index : Nat) : Nat × UInt8 := (index / 8, 0x80 >>> UInt8.ofNat (index % 8))

/-- The bits of the last byte that no piece stands for. -/
def spareMask (len : Nat) : UInt8 := UInt8.ofNat ((1 <<< (divCeil len 8 * 8 - len)) - 1)

/-- No spare bit is set. -/
def SpareClear (bits : List UInt8) (len : Nat) : Prop :=
  ∀ last ∈ bits.getLast?, last &&& spareMask len = 0

instance (bits : List UInt8) (len : Nat) : Decidable (SpareClear bits len) :=
  match h : bits.getLast? with
  | none => .isTrue fun last hlast => by
      rw [h] at hlast
      cases hlast
  | some b => decidable_of_iff (b &&& spareMask len = 0) (by simp [SpareClear, h])

structure Bitfield where
  bits : List UInt8
  len : Nat
  count : Nat
  length_bits : bits.length = divCeil len 8
  spare : SpareClear bits len
  count_eq : count = (bits.map countOnes).sum
deriving DecidableEq

namespace Bitfield

theorem eq_of_bits {f g : Bitfield} (hbits : f.bits = g.bits) (hlen : f.len = g.len) : f = g := by
  obtain ⟨bits, len, count, hf, hs, hc⟩ := f
  obtain ⟨bits', len', count', hf', hs', hc'⟩ := g
  subst hbits hlen hc hc'
  rfl

/-- An empty bitfield for a blob of `len` pieces. -/
def new (len : Nat) : Bitfield where
  bits := List.replicate (divCeil len 8) 0
  len := len
  count := 0
  length_bits := List.length_replicate
  spare := by
    intro last hlast
    rw [List.eq_of_mem_replicate (List.mem_of_mem_getLast? hlast)]
    exact UInt8.zero_and
  count_eq := by
    rw [List.map_replicate, List.sum_replicate]
    rfl

def contains (f : Bitfield) (index : Nat) : Bool :=
  if f.len ≤ index then false
  else
    let (byte, bit) := locate index
    match f.bits[byte]? with
    | none => false
    | some b => b &&& bit != 0

/-- Refuses a byte count that does not match and bits set past the end. -/
def decode (bytes : List UInt8) (len : Nat) : Option Bitfield :=
  if hlength : bytes.length = divCeil len 8 then
    if hspare : SpareClear bytes len then
      some ⟨bytes, len, (bytes.map countOnes).sum, hlength, hspare, rfl⟩
    else none
  else none

theorem decode_eq_some_iff {bytes : List UInt8} {len : Nat} {f : Bitfield} :
    decode bytes len = some f ↔ f.bits = bytes ∧ f.len = len := by
  constructor
  · intro h
    unfold decode at h
    split_ifs at h
    cases h
    exact ⟨rfl, rfl⟩
  · rintro ⟨rfl, rfl⟩
    rw [decode, dif_pos f.length_bits, dif_pos f.spare]
    exact congrArg some (eq_of_bits rfl rfl)

end Bitfield

/-! ## Setting a bit -/

theorem testBit_mask {k : Nat} (hk : k < 8) (i : Nat) :
    ((0x80 : UInt8) >>> UInt8.ofNat k).toNat.testBit i = decide (i = 7 - k) := by
  have hmask : ((0x80 : UInt8) >>> UInt8.ofNat k).toNat = 2 ^ (7 - k) := by
    interval_cases k <;> decide
  rw [hmask, Nat.testBit_two_pow]
  exact decide_eq_decide.mpr eq_comm

/-- One place more counts where it did not. -/
theorem countP_or_eq {xs : List Nat} (hnodup : xs.Nodup) (p : Nat → Bool) {j : Nat} (hj : j ∈ xs)
    (hp : p j = false) : xs.countP (fun i => p i || decide (i = j)) = xs.countP p + 1 := by
  induction xs with
  | nil => cases hj
  | cons x xs ih =>
    obtain ⟨hx, hxs⟩ := List.nodup_cons.mp hnodup
    rw [List.countP_cons, List.countP_cons]
    rcases List.mem_cons.mp hj with rfl | hj
    · have hrest : xs.countP (fun i => p i || decide (i = j)) = xs.countP p := by
        refine List.countP_congr fun i hi => ?_
        have hne : i ≠ j := fun h => hx (h ▸ hi)
        simp [hne]
      simp [hrest, hp]
    · have hne : x ≠ j := fun h => hx (h ▸ hj)
      rw [ih hxs hj]
      simp only [hne, decide_false, Bool.or_false]
      omega

/-- Setting a bit that is not set sets one bit more. -/
theorem countOnes_or {b : UInt8} {k : Nat} (hk : k < 8)
    (hclear : b &&& 0x80 >>> UInt8.ofNat k = 0) :
    countOnes (b ||| 0x80 >>> UInt8.ofNat k) = countOnes b + 1 := by
  have hbit : b.toNat.testBit (7 - k) = false := by
    have h := congrArg (fun x : UInt8 => x.toNat.testBit (7 - k)) hclear
    rw [UInt8.toNat_and, Nat.testBit_and, testBit_mask hk] at h
    simpa using h
  unfold countOnes
  simp only [UInt8.toNat_or, Nat.testBit_or, testBit_mask hk]
  exact countP_or_eq List.nodup_range _ (List.mem_range.mpr (by omega)) hbit

theorem sum_map_set {xs : List UInt8} {i : Nat} {x y : UInt8} (hx : xs[i]? = some x)
    (hy : countOnes y = countOnes x + 1) :
    ((xs.set i y).map countOnes).sum = (xs.map countOnes).sum + 1 := by
  induction xs generalizing i with
  | nil => cases hx
  | cons z xs ih =>
    cases i with
    | zero =>
      obtain rfl : z = x := Option.some.inj hx
      simp only [List.set_cons_zero, List.map_cons, List.sum_cons, hy]
      omega
    | succ i =>
      simp only [List.set_cons_succ, List.map_cons, List.sum_cons,
        ih (by simpa using hx)]
      omega

/-- The bit of a piece is not spare. -/
theorem mask_and_spareMask {len index : Nat} (hindex : index < len)
    (hlast : index / 8 + 1 = divCeil len 8) :
    (0x80 : UInt8) >>> UInt8.ofNat (index % 8) &&& spareMask len = 0 := by
  have hall : ∀ k : Fin 8, ∀ s : Fin 8, s.val + k.val ≤ 7 →
      (0x80 : UInt8) >>> UInt8.ofNat k.val &&& UInt8.ofNat ((1 <<< s.val) - 1) = 0 := by decide
  have hspec := divCeil_spec (n := len) (d := 8) (by decide)
  exact hall ⟨index % 8, Nat.mod_lt _ (by decide)⟩ ⟨divCeil len 8 * 8 - len, by omega⟩
    (by simp only; omega)

theorem spareClear_set {bits : List UInt8} {len index : Nat} {b : UInt8}
    (hlength : bits.length = divCeil len 8) (hspare : SpareClear bits len) (hindex : index < len)
    (hbyte : bits[index / 8]? = some b) :
    SpareClear (bits.set (index / 8) (b ||| 0x80 >>> UInt8.ofNat (index % 8))) len := by
  intro last hlast
  rw [Option.mem_def, List.getLast?_eq_getElem?, List.length_set, List.getElem?_set] at hlast
  split_ifs at hlast with hend hin
  · obtain rfl := Option.some.inj hlast
    have hb : b &&& spareMask len = 0 := hspare b (by
      rw [Option.mem_def, List.getLast?_eq_getElem?, ← hend, hbyte])
    have hbit := mask_and_spareMask hindex (by omega)
    have hdistrib : ∀ x y z : UInt8, (x ||| y) &&& z = (x &&& z) ||| (y &&& z) := by
      intro x y z
      refine UInt8.toNat_inj.mp ?_
      simp only [UInt8.toNat_and, UInt8.toNat_or, Nat.and_or_distrib_right]
    rw [hdistrib, hb, hbit]
    rfl
  · exact hspare last (by rw [Option.mem_def, List.getLast?_eq_getElem?, hlast])

namespace Bitfield

/-- Set a bit, and whether it was newly set. -/
def insert (f : Bitfield) (index : Nat) : Bitfield × Bool :=
  if hindex : index < f.len then
    match hbyte : f.bits[index / 8]? with
    | none => (f, false)
    | some b =>
      if hclear : b &&& 0x80 >>> UInt8.ofNat (index % 8) = 0 then
        ({ bits := f.bits.set (index / 8) (b ||| 0x80 >>> UInt8.ofNat (index % 8))
           len := f.len
           count := f.count + 1
           length_bits := by rw [List.length_set, f.length_bits]
           spare := spareClear_set f.length_bits f.spare hindex hbyte
           count_eq := by
             rw [sum_map_set hbyte (countOnes_or (Nat.mod_lt _ (by decide)) hclear),
               f.count_eq] },
          true)
      else (f, false)
  else (f, false)

end Bitfield

end Cairn.Ports.Swarm
