import Cairn.Ports.Canonical.Merkle
import Mathlib.Data.Nat.Bitwise

/-!
# What a Merkle root says about its leaves

`merkle_root`, `merkle_proof` and `Inclusion::verify` each recompute which
levels promote a node. Here they are compared level by level: the path taken
from a leaf hashes, on every level, to the node above it, and so arrives at the
root. Downwards, a root with no colliding hashes fixes the level below it, and
so the leaves.
-/

namespace Cairn.Ports.Canonical

/-- The other half of a pair. -/
theorem xor_one_eq (n : Nat) : n ^^^ 1 = if n % 2 = 0 then n + 1 else n - 1 := by
  split
  · rename_i h
    exact Nat.xor_one_of_even (Nat.even_iff.mpr h)
  · rename_i h
    exact Nat.xor_one_of_odd (Nat.odd_iff.mpr (by omega))

section Paths

variable [Sha256]

/-- The node above a position: itself where it is promoted, else the digest of
the pair it is in. -/
theorem getElem?_pairLevel_half {level : List String} {here : Nat} (h : here < level.length) :
    (pairLevel level)[here / 2]? =
      if level.length % 2 = 1 ∧ here = level.length - 1 then some level[here]
      else some (digestText (joinAt here level[here] (level.getD (here ^^^ 1) ""))) := by
  induction level using pairLevel.induct generalizing here with
  | case1 a b rest ih =>
    rcases here with _ | _ | n
    · simp [pairLevel, joinAt]
    · have hlast : ¬ ((a :: b :: rest).length % 2 = 1 ∧ 1 = (a :: b :: rest).length - 1) := by
        simp only [List.length_cons]
        omega
      rw [if_neg hlast]
      rfl
    · have hn : n < rest.length := by
        simp only [List.length_cons] at h
        omega
      have hhalf : (n + 2) / 2 = n / 2 + 1 := by omega
      have hxor : (n + 2) ^^^ 1 = (n ^^^ 1) + 2 := by
        rw [xor_one_eq, xor_one_eq]
        split <;> split <;> omega
      have hjoin : joinAt (n + 2) = joinAt n := by
        funext hash sibling
        simp only [joinAt, Nat.add_mod_right]
      have hlast : ((a :: b :: rest).length % 2 = 1 ∧ n + 2 = (a :: b :: rest).length - 1) ↔
          rest.length % 2 = 1 ∧ n = rest.length - 1 := by
        simp only [List.length_cons]
        omega
      rw [hhalf, pairLevel, List.getElem?_cons_succ, ih hn, hxor, hjoin]
      simp only [hlast, List.getElem_cons_succ, List.getD_cons_succ]
  | case2 a =>
    obtain rfl : here = 0 := by simpa using h
    rfl
  | case3 => simp at h

/-- From any position of a level the path arrives at the top, with no sibling
left over. -/
theorem walk_proofSiblings (fuel : Nat) {level : List String} {here : Nat}
    (h : here < level.length) (hfuel : level.length ≤ fuel + 1) :
    ∃ root, (reduceLevels fuel level).head? = some root ∧
      walk fuel level[here] here level.length (proofSiblings fuel level here) =
        some (root, []) := by
  induction fuel generalizing level here with
  | zero =>
    obtain ⟨x, rfl⟩ := List.length_eq_one_iff.mp (show level.length = 1 by omega)
    obtain rfl : here = 0 := by simpa using h
    exact ⟨x, rfl, rfl⟩
  | succ fuel ih =>
    by_cases hwidth : 1 < level.length
    · have hlength := length_pairLevel level
      have hup : here / 2 < (pairLevel level).length := by omega
      have hnode := getElem?_pairLevel_half h
      rw [List.getElem?_eq_getElem hup] at hnode
      obtain ⟨root, hroot, hwalk⟩ := ih hup (by omega)
      refine ⟨root, by rwa [reduceLevels, if_pos hwidth], ?_⟩
      rw [hlength] at hwalk
      by_cases hpromoted : level.length % 2 = 1 ∧ here = level.length - 1
      · rw [if_pos hpromoted, Option.some.injEq] at hnode
        rw [proofSiblings, if_pos hwidth, if_pos hpromoted, List.nil_append]
        simp only [walk, if_pos hwidth, if_pos hpromoted]
        rwa [← hnode]
      · rw [if_neg hpromoted, Option.some.injEq] at hnode
        rw [proofSiblings, if_pos hwidth, if_neg hpromoted, List.singleton_append]
        simp only [walk, if_pos hwidth, if_neg hpromoted]
        rwa [← hnode]
    · obtain ⟨x, rfl⟩ := List.length_eq_one_iff.mp (show level.length = 1 by omega)
      obtain rfl : here = 0 := by simpa using h
      exact ⟨x, rfl, rfl⟩

/-- A leaf's own proof verifies against the root. -/
theorem verify_merkleProof {leaves : List String} {index : Nat} (h : index < leaves.length) :
    ∃ path root, merkleProof leaves index = some path ∧ merkleRoot leaves = some root ∧
      path.verify leaves[index] root = true := by
  obtain ⟨root, hroot, hwalk⟩ := walk_proofSiblings leaves.length h (by omega)
  refine ⟨_, root, if_neg (by omega), hroot, ?_⟩
  rw [Inclusion.verify, if_neg (show ¬ leaves.length ≤ index by omega)]
  simp only [hwalk, List.isEmpty_nil, beq_self_eq_true, Bool.and_self]

/-- Texts as long as a digest. -/
def DigestLong (texts : List String) : Prop := ∀ text ∈ texts, text.toList.length = 71

theorem DigestLong.pairLevel {level : List String} (h : DigestLong level) :
    DigestLong (pairLevel level) := by
  induction level using Canonical.pairLevel.induct with
  | case1 a b rest ih =>
    intro text hmem
    rcases List.mem_cons.mp hmem with rfl | hmem
    · exact length_digestBytes _
    · exact ih (fun x hx => h x (by simp [hx])) text hmem
  | case2 a => exact h
  | case3 => exact h

/-- The level above fixes a level, where its joined texts do not collide. -/
theorem pairLevel_inj {texts : String → Prop} (hcoll : NoCollision texts) {xs ys : List String}
    (hlength : xs.length = ys.length) (hxs : DigestLong xs) (hys : DigestLong ys)
    (hxtexts : ∀ x ∈ pairInputs xs, texts x) (hytexts : ∀ y ∈ pairInputs ys, texts y)
    (h : pairLevel xs = pairLevel ys) : xs = ys := by
  induction xs using pairLevel.induct generalizing ys with
  | case1 a b rest ih =>
    rcases ys with _ | ⟨c, _ | ⟨d, rest'⟩⟩
    · simp at hlength
    · simp at hlength
    · rw [pairLevel, pairLevel, List.cons.injEq] at h
      have hjoined : a ++ b = c ++ d :=
        hcoll _ _ (hxtexts _ (by simp [pairInputs])) (hytexts _ (by simp [pairInputs])) h.1
      have hsplit := congrArg String.toList hjoined
      rw [String.toList_append, String.toList_append] at hsplit
      have hfirst : a.toList.length = c.toList.length := by
        rw [hxs a (by simp), hys c (by simp)]
      obtain ⟨hac, hbd⟩ := List.append_inj hsplit hfirst
      have hrest : rest = rest' := by
        refine ih (by simpa using hlength) (fun x hx => hxs x (by simp [hx]))
          (fun y hy => hys y (by simp [hy])) ?_ ?_ h.2
        · exact fun x hx => hxtexts x (by simp [pairInputs, hx])
        · exact fun y hy => hytexts y (by simp [pairInputs, hy])
      rw [String.toList_inj.mp hac, String.toList_inj.mp hbd, hrest]
  | case2 a =>
    obtain ⟨c, rfl⟩ := List.length_eq_one_iff.mp hlength.symm
    exact h
  | case3 => exact (List.length_eq_zero_iff.mp hlength.symm).symm

/-- The top fixes a level, where the joined texts up to it do not collide. -/
theorem reduceLevels_inj {texts : String → Prop} (hcoll : NoCollision texts) (fuel : Nat)
    {xs ys : List String} (hlength : xs.length = ys.length) (hfuel : xs.length ≤ fuel + 1)
    (hxs : DigestLong xs) (hys : DigestLong ys)
    (hxtexts : ∀ x ∈ reduceInputs fuel xs, texts x) (hytexts : ∀ y ∈ reduceInputs fuel ys, texts y)
    (h : (reduceLevels fuel xs).head? = (reduceLevels fuel ys).head?) : xs = ys := by
  induction fuel generalizing xs ys with
  | zero =>
    cases xs with
    | nil => exact (List.length_eq_zero_iff.mp hlength.symm).symm
    | cons x rest =>
      obtain rfl : rest = [] := by simpa using hfuel
      obtain ⟨y, rfl⟩ := List.length_eq_one_iff.mp hlength.symm
      simpa [reduceLevels] using h
  | succ fuel ih =>
    rw [reduceInputs] at hxtexts hytexts
    rw [reduceLevels, reduceLevels] at h
    by_cases hwidth : 1 < xs.length
    · rw [if_pos hwidth] at hxtexts
      rw [if_pos (hlength ▸ hwidth)] at hytexts
      rw [if_pos hwidth, if_pos (hlength ▸ hwidth)] at h
      have hxlength := length_pairLevel xs
      have hylength := length_pairLevel ys
      have hup : pairLevel xs = pairLevel ys := by
        refine ih (by omega) (by omega) hxs.pairLevel hys.pairLevel ?_ ?_ h
        · exact fun x hx => hxtexts x (List.mem_append_right _ hx)
        · exact fun y hy => hytexts y (List.mem_append_right _ hy)
      refine pairLevel_inj hcoll hlength hxs hys ?_ ?_ hup
      · exact fun x hx => hxtexts x (List.mem_append_left _ hx)
      · exact fun y hy => hytexts y (List.mem_append_left _ hy)
    · rw [if_neg hwidth, if_neg (hlength ▸ hwidth)] at h
      cases xs with
      | nil => exact (List.length_eq_zero_iff.mp hlength.symm).symm
      | cons x rest =>
        obtain rfl : rest = [] := by simpa using hwidth
        obtain ⟨y, rfl⟩ := List.length_eq_one_iff.mp hlength.symm
        simpa using h

/-- Every leaf of every tree proves against its root, and the root of a tree of
digests, no two of its hashes colliding, fixes its leaves. -/
theorem merkle_complete_and_binding :
    (∀ (leaves : List String) (index : Nat) (h : index < leaves.length),
      ∃ path root, merkleProof leaves index = some path ∧ merkleRoot leaves = some root ∧
        path.verify leaves[index] root = true) ∧
      ∀ xs ys : List String, xs.length = ys.length → DigestLong xs → DigestLong ys →
        NoCollision (fun text => text ∈ merkleInputs xs ∨ text ∈ merkleInputs ys) →
        merkleRoot xs = merkleRoot ys → xs = ys := by
  refine ⟨fun leaves index h => verify_merkleProof h, ?_⟩
  intro xs ys hlength hxs hys hcoll h
  refine reduceLevels_inj hcoll xs.length hlength (by omega) hxs hys (fun x hx => .inl hx) ?_ ?_
  · intro y hy
    rw [hlength] at hy
    exact .inr hy
  · rw [merkleRoot, merkleRoot, ← hlength] at h
    exact h

end Paths

/-- SHA-256 on two trees of three leaves, told apart by the second digit of each half. -/
@[reducible] def pathHash : Sha256 where
  hash data := digestOfNat <|
    let bytes := data.data.toList
    if bytes[8]? = some 102 ∧ bytes[79]? = some 98 then
      0x5c472b6b0a5369a37f4dfb632f417da009de3f15bcabf00c6010370f91fc5aa7
    else if bytes[8]? = some 99 ∧ bytes[79]? = some 52 then
      0x7fba708b9a36da686eae3cf41021e1da31f3a9105a4312e81d8938b38f0e3a4b
    else if bytes[8]? = some 98 ∧ bytes[79]? = some 102 then
      0x39652f73b05b496c00a155008684fcc52779f269d1dfa53ef718025226f6627b
    else 0x334dcc2cec4e62daacc11fd942571c625b01bf685db36cb1c8f1a9adb1c98967

def pathLeaves : List String :=
  ["sha256:5feceb66ffc86f38d952786c6d696c79c2dbc239dd4e91b46729d73a27fb57e9",
    "sha256:6b86b273ff34fce19d6b804eff5a3f5747ada4eaa22f1d49c01e52ddb7875b4b",
    "sha256:d4735e3a265e16eee03f59718b9b5d03019c07d8b6c51f90da3a666eec13ab35"]

/-- The same leaves, the first two exchanged. -/
def pathSwapped : List String :=
  ["sha256:6b86b273ff34fce19d6b804eff5a3f5747ada4eaa22f1d49c01e52ddb7875b4b",
    "sha256:5feceb66ffc86f38d952786c6d696c79c2dbc239dd4e91b46729d73a27fb57e9",
    "sha256:d4735e3a265e16eee03f59718b9b5d03019c07d8b6c51f90da3a666eec13ab35"]

theorem merkle_sample : letI := pathHash
    (∃ path root, merkleProof pathLeaves 2 = some path ∧ merkleRoot pathLeaves = some root ∧
      path.verify pathLeaves[2] root = true) ∧
    merkleRoot pathLeaves ≠ merkleRoot pathSwapped := by
  let _ := pathHash
  have hlong : DigestLong pathLeaves ∧ DigestLong pathSwapped := by
    unfold DigestLong
    decide
  have hnodup : ((merkleInputs pathLeaves ++ merkleInputs pathSwapped).map digestText).Nodup := by
    decide
  have hcoll := noCollision_of_nodup (P := fun text =>
    text ∈ merkleInputs pathLeaves ∨ text ∈ merkleInputs pathSwapped) hnodup
    fun text htext => List.mem_append.mpr htext
  refine ⟨merkle_complete_and_binding.1 pathLeaves 2 (by decide), fun h => ?_⟩
  have heq := merkle_complete_and_binding.2 pathLeaves pathSwapped rfl hlong.1 hlong.2 hcoll h
  exact absurd heq (by decide)

end Cairn.Ports.Canonical
