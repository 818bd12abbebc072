import Cairn.Ports.Canonical.Merkle

/-!
# Who searches where

`src/partition.rs`: the first four bytes of an item's SHA-256 are its position
in a space of `2 ^ 32` points, and an assignment names one of `partitions`
slices of it. The step is a truncated quotient and the last slice takes the
rest. The fields of an assignment are public, so one that names no slice can be
built; what it answers then is whatever the clamp leaves.
-/

namespace Cairn.Ports

open Cairn.Verified
open Cairn.Ports.Canonical

/-- One node's claim on one objective for one epoch. -/
structure Assignment where
  nodeId : String
  objectiveId : String
  epoch : UInt64
  partition : UInt32
  partitions : UInt32
deriving DecidableEq

namespace Assignment

inductive PartitionError where
  | zeroPartitions
  | partitionOutOfRange (partition partitions : UInt32)
deriving DecidableEq

/-- The unit interval, scaled. -/
def SPACE : Nat := 2 ^ 32

def new (nodeId objectiveId : String) (epoch : UInt64) (partition partitions : UInt32) :
    Except PartitionError Assignment :=
  if partitions = 0 then .error .zeroPartitions
  else if partitions ≤ partition then .error (.partitionOutOfRange partition partitions)
  else .ok { nodeId, objectiveId, epoch, partition, partitions }

def clampToSpace (value : Nat) : Nat := min value SPACE

/-- The half-open slice. The products fit the 128 bits they are computed in. -/
def share (a : Assignment) : Nat × Nat :=
  if a.partitions = 0 then (0, 0)
  else
    let step := SPACE / a.partitions.toNat
    let last := a.partitions - 1
    let lo := a.partition.toNat * step
    let hi := if a.partition = last then SPACE else lo + step
    (clampToSpace lo, clampToSpace hi)

/-- A point lies in the slice. -/
def Within (a : Assignment) (point : Nat) : Prop := a.share.1 ≤ point ∧ point < a.share.2

instance (a : Assignment) (point : Nat) : Decidable (a.Within point) :=
  inferInstanceAs (Decidable (_ ∧ _))

/-! ## Slices -/

section Slices

variable {a : Assignment}

theorem toNat_last (h : a.partitions ≠ 0) : (a.partitions - 1).toNat = a.partitions.toNat - 1 := by
  have hpos : a.partitions.toNat ≠ 0 := fun hzero => h (UInt32.toNat_inj.mp hzero)
  have hle : (1 : UInt32) ≤ a.partitions := by
    rw [UInt32.le_iff_toNat_le]
    exact Nat.pos_of_ne_zero hpos
  rw [UInt32.toNat_sub_of_le _ _ hle]
  rfl

/-- The slices before the last are a step wide, and the last ends the space. -/
theorem share_of_lt (h : a.partition < a.partitions) :
    a.share = (a.partition.toNat * (SPACE / a.partitions.toNat),
      if a.partition.toNat + 1 = a.partitions.toNat then SPACE
      else (a.partition.toNat + 1) * (SPACE / a.partitions.toNat)) := by
  rw [UInt32.lt_iff_toNat_lt] at h
  have hne : a.partitions ≠ 0 := by
    intro hzero
    rw [hzero] at h
    exact absurd h (Nat.not_lt_zero _)
  have hfits : (a.partition.toNat + 1) * (SPACE / a.partitions.toNat) ≤ SPACE :=
    (Nat.mul_le_mul_right _ h).trans (Nat.mul_div_le _ _)
  have hlast : a.partition = a.partitions - 1 ↔ a.partition.toNat + 1 = a.partitions.toNat := by
    rw [← UInt32.toNat_inj, toNat_last hne]
    omega
  have hlo : a.partition.toNat * (SPACE / a.partitions.toNat) ≤ SPACE :=
    (Nat.mul_le_mul_right _ (Nat.le_succ _)).trans hfits
  unfold share
  dsimp only
  rw [if_neg hne]
  unfold clampToSpace
  rw [Nat.min_eq_left hlo]
  simp only [hlast]
  split_ifs
  · rw [Nat.min_self]
  · rw [← Nat.succ_mul, Nat.min_eq_left hfits]

/-- Past the end no index is the last, and the clamp decides. -/
theorem share_of_le (hne : a.partitions ≠ 0) (h : a.partitions ≤ a.partition) :
    a.share = (clampToSpace (a.partition.toNat * (SPACE / a.partitions.toNat)),
      clampToSpace ((a.partition.toNat + 1) * (SPACE / a.partitions.toNat))) := by
  rw [UInt32.le_iff_toNat_le] at h
  have hpos : a.partitions.toNat ≠ 0 := fun hzero => hne (UInt32.toNat_inj.mp hzero)
  have hlast : a.partition ≠ a.partitions - 1 := by
    intro heq
    have hnat := congrArg UInt32.toNat heq
    rw [toNat_last hne] at hnat
    omega
  unfold share
  dsimp only
  rw [if_neg hne, if_neg hlast, ← Nat.succ_mul]

theorem step_pos (hne : a.partitions ≠ 0) : 0 < SPACE / a.partitions.toNat := by
  have hpos : a.partitions.toNat ≠ 0 := fun hzero => hne (UInt32.toNat_inj.mp hzero)
  exact Nat.div_pos a.partitions.toNat_lt.le (Nat.pos_of_ne_zero hpos)

/-- An assignment that names no slice covers nothing exactly where its start is
past the space already. -/
theorem share_empty_iff (h : a.partitions = 0 ∨ a.partitions ≤ a.partition) :
    a.share.2 ≤ a.share.1 ↔
      a.partitions = 0 ∨ SPACE ≤ a.partition.toNat * (SPACE / a.partitions.toNat) := by
  by_cases hzero : a.partitions = 0
  · have hshare : a.share = (0, 0) := if_pos hzero
    simp [hshare, hzero]
  · have hstep := step_pos hzero
    rw [share_of_le hzero (h.resolve_left hzero), Nat.succ_mul]
    simp only [hzero, false_or, clampToSpace]
    omega

end Slices

/-! ## Tiling -/

/-- The slice a point lies in, by division. -/
def sliceOf (partitions : Nat) (point : Nat) : Nat :=
  min (point / (SPACE / partitions)) (partitions - 1)

theorem within_iff {a : Assignment} (h : a.partition < a.partitions) {point : Nat}
    (hpoint : point < SPACE) :
    a.Within point ↔ a.partition.toNat = sliceOf a.partitions.toNat point := by
  have hlt := UInt32.lt_iff_toNat_lt.mp h
  have hne : a.partitions ≠ 0 := by
    rintro hzero
    rw [hzero] at hlt
    exact absurd hlt (Nat.not_lt_zero _)
  have hstep := step_pos hne
  unfold Within sliceOf
  rw [share_of_lt h]
  dsimp only
  generalize a.partition.toNat = k at hlt ⊢
  generalize hs : SPACE / a.partitions.toNat = step at hstep ⊢
  have hlo : k * step ≤ point ↔ k ≤ point / step := (Nat.le_div_iff_mul_le hstep).symm
  have hhi : point < (k + 1) * step ↔ point / step < k + 1 :=
    (Nat.div_lt_iff_lt_mul hstep).symm
  rw [hlo]
  by_cases hlast : k + 1 = a.partitions.toNat
  · rw [if_pos hlast]
    omega
  · rw [if_neg hlast, hhi]
    omega

/-- Every point of the space lies in exactly one of the slices. -/
theorem exists_unique_partition (nodeId objectiveId : String) (epoch : UInt64)
    {partitions : UInt32} (hone : 1 ≤ partitions) {point : Nat} (hpoint : point < SPACE) :
    ∃! partition, partition < partitions ∧
      Within { nodeId, objectiveId, epoch, partition, partitions } point := by
  have hpos : 0 < partitions.toNat := UInt32.le_iff_toNat_le.mp hone
  have hslice : sliceOf partitions.toNat point < partitions.toNat := by
    unfold sliceOf
    omega
  have hsize := partitions.toNat_lt
  have hindex : (UInt32.ofNat (sliceOf partitions.toNat point)).toNat =
      sliceOf partitions.toNat point := UInt32.toNat_ofNat_of_lt' (hslice.trans hsize)
  refine ⟨.ofNat (sliceOf partitions.toNat point), ⟨?_, ?_⟩, ?_⟩
  · rw [UInt32.lt_iff_toNat_lt, hindex]
    exact hslice
  · rw [within_iff (by rw [UInt32.lt_iff_toNat_lt, hindex]; exact hslice) hpoint]
    exact hindex
  · rintro partition ⟨hlt, hwithin⟩
    rw [within_iff hlt hpoint] at hwithin
    rw [← UInt32.toNat_inj, hindex]
    exact hwithin

section Items

variable [Sha256]

/-- Where an item sits: four bytes of its digest, read big-endian. -/
def position (itemId : String) : Nat :=
  ((Sha256.hash itemId.toUTF8).toList.take 4).foldl (fun value byte => value <<< 8 ||| byte.toNat) 0

def covers (a : Assignment) (itemId : String) : Bool :=
  let (lo, hi) := a.share
  let value := position itemId
  lo ≤ value && value < hi

theorem covers_iff {a : Assignment} {itemId : String} :
    a.covers itemId = true ↔ a.Within (position itemId) := by
  simp [covers, Within]

theorem not_covers_of_empty {a : Assignment} (h : a.share.2 ≤ a.share.1) (itemId : String) :
    a.covers itemId = false := by
  rw [← Bool.not_eq_true, covers_iff]
  rintro ⟨hlo, hhi⟩
  omega

/-- The slices tile the space, and an assignment that names none of them covers
nothing exactly where its start is past the space. -/
theorem shares_tile :
    (∀ (nodeId objectiveId : String) (epoch : UInt64) (partitions : UInt32), 1 ≤ partitions →
      ∀ point < SPACE, ∃! partition, partition < partitions ∧
        Within { nodeId, objectiveId, epoch, partition, partitions } point) ∧
    ∀ a : Assignment, a.partitions = 0 ∨ a.partitions ≤ a.partition →
      ((a.share.2 ≤ a.share.1 ∧ ∀ itemId, a.covers itemId = false) ↔
        a.partitions = 0 ∨ SPACE ≤ a.partition.toNat * (SPACE / a.partitions.toNat)) := by
  constructor
  · intro nodeId objectiveId epoch partitions hone point hpoint
    exact exists_unique_partition nodeId objectiveId epoch hone hpoint
  · intro a hmalformed
    rw [← share_empty_iff hmalformed]
    exact ⟨fun h => h.1, fun h => ⟨h, not_covers_of_empty h⟩⟩

end Items

/-- The first index past three slices: the step falls one short. -/
theorem share_past_the_end :
    ¬∀ a : Assignment, a.partitions = 0 ∨ a.partitions ≤ a.partition → a.share.2 ≤ a.share.1 := by
  intro hclaim
  have hempty := hclaim ⟨"node", "objective", 1, 3, 3⟩ (.inr (by decide))
  exact absurd hempty (by decide)

/-- Past the space: five steps of a quarter. -/
theorem shares_tile_sample :
    ∀ itemId, @covers (Sha256.ofTable []) ⟨"node", "objective", 1, 5, 4⟩ itemId = false :=
  ((@shares_tile (Sha256.ofTable [])).2 ⟨"node", "objective", 1, 5, 4⟩ (.inr (by decide))).mpr
    (.inr (by decide)) |>.2

end Assignment

end Cairn.Ports
