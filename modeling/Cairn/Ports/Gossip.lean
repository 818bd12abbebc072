import Cairn.Ports.Canonical.Merkle
import Cairn.Ports.Frontier
import Cairn.Verified.TopK
import Mathlib.Data.Prod.Lex

/-!
# The candidate population

`src/gossip.rs`: candidates worth building on, gossiped without agreement. A
population keeps the best `capacity` candidates of every island by score and
then id; of copies that differ only in origin it keeps the least origin. Both
choices are functions of the values, so populations that have seen the same
candidates hold the same ones, whatever was dropped on the way.

A candidate is addressed by its digest, so what is said about copies holds
where no two of the candidates seen collide (`Distinct`).
-/

namespace Cairn.Ports

open Cairn.Verified
open Cairn.Ports.Canonical

namespace Gossip

def DEFAULT_ISLANDS : UInt32 := 8

def DEFAULT_CAPACITY : Nat := 32

/-- How many hexadecimal digits of the artifact id choose an island. -/
def ISLAND_HEX_DIGITS : Nat := 8

inductive GossipError where
  | zeroIslands
  | zeroCapacity
  | islandCountMismatch (left right : UInt32)
  | notAnObject (record : String)
  | missingField (record field : String)
  | invalidField (record field expected : String)
  | outOfRange (field : String) (value : I128)
deriving DecidableEq

/-- A scored artifact. The score is what the sender claims. -/
structure Candidate where
  objectiveId : String
  artifact : Value
  score : Int64
  origin : String

namespace Candidate

instance : DecidableEq Candidate := fun a b =>
  decidable_of_iff (a.objectiveId = b.objectiveId ∧ a.artifact = b.artifact ∧
      a.score = b.score ∧ a.origin = b.origin) (by cases a; cases b; simp)

def idValue (c : Candidate) : Value :=
  .object [("objective_id", .string c.objectiveId), ("artifact", c.artifact),
    ("score", i64Value c.score)]

section Digests

variable [Sha256]

def id (c : Candidate) : String := c.idValue.digest

/-- The artifact alone, whatever score is claimed for it. -/
def artifactId (c : Candidate) : String :=
  (Value.object [("objective_id", .string c.objectiveId), ("artifact", c.artifact)]).digest

/-- The island a candidate belongs to: the last digits of its artifact's id. -/
def island (c : Candidate) (islands : UInt32) : Nat :=
  let id := c.artifactId.toList
  let tail := id.drop (id.length - ISLAND_HEX_DIGITS)
  let bucket := UInt32.ofNat ((fromStrRadix16 UInt32.size tail).getD 0)
  (bucket % max islands 1).toNat

/-- Score first, then id. -/
def rank (c : Candidate) : Int ×ₗ String := toLex (c.score.toInt, c.id)

end Digests

end Candidate

/-- A bounded population: island, then id, then the candidate. -/
structure Population where
  islands : UInt32
  capacity : Nat
  byIsland : BTreeMap Nat (BTreeMap String Candidate)

namespace Population

def new (islands : UInt32) (capacity : Nat) : Except GossipError Population :=
  if islands < 1 then .error .zeroIslands
  else if capacity < 1 then .error .zeroCapacity
  else .ok { islands, capacity, byIsland := .empty }

/-- The copy with the smaller origin; the one already there on a tie. -/
def keepLeast (existing : Option Candidate) (candidate : Candidate) : Candidate :=
  match existing with
  | some existing => if existing.origin ≤ candidate.origin then existing else candidate
  | none => candidate

/-- `bucket.iter().map(..)` sorted from the best down. -/
def ranked (bucket : BTreeMap String Candidate) : List (Int ×ₗ String) :=
  (bucket.entries.map fun e => toLex (e.2.score.toInt, e.1)).insertionSort (· ≥ ·)

/-- One turn of `prune`'s loop. -/
def pruneBucket (capacity : Nat) (bucket : BTreeMap String Candidate) :
    BTreeMap String Candidate :=
  if bucket.size ≤ capacity then bucket
  else
    let kept := ((ranked bucket).take capacity).map fun rank => (ofLex rank).2
    bucket.retain fun id _ => decide (id ∈ kept)

def prune (p : Population) : Population :=
  { p with byIsland := p.byIsland.mapValues (pruneBucket p.capacity) }

def iter (p : Population) : List Candidate := p.byIsland.values.flatMap BTreeMap.values

def len (p : Population) : Nat := (p.byIsland.values.map BTreeMap.size).sum

/-- The first bucket that has the id. -/
def get (p : Population) (id : String) : Option Candidate :=
  p.byIsland.values.findSome? fun bucket => bucket.get? id

/-- Equality is by contents. -/
protected def beq (p q : Population) : Bool :=
  p.len == q.len && p.byIsland.values.all fun bucket =>
    bucket.entries.all fun e => q.get e.1 == some e.2

instance : BEq Population := ⟨Population.beq⟩

section Digests

variable [Sha256]

def insert (p : Population) (candidate : Candidate) : Population :=
  let island := candidate.island p.islands
  let id := candidate.id
  let bucket := (p.byIsland.get? island).getD .empty
  { p with
    byIsland := p.byIsland.insert island (bucket.insert id (keepLeast (bucket.get? id) candidate)) }

def withCandidates (islands : UInt32) (capacity : Nat) (candidates : List Candidate) :
    Except GossipError Population := do
  let population ← new islands capacity
  return (candidates.foldl insert population).prune

def add (p : Population) (candidate : Candidate) : Population := (p.insert candidate).prune

/-- Join; the smaller capacity holds. -/
def merge (p q : Population) : Except GossipError Population :=
  if q.islands ≠ p.islands then .error (.islandCountMismatch p.islands q.islands)
  else
    let merged : Population :=
      { islands := p.islands, capacity := min p.capacity q.capacity, byIsland := .empty }
    .ok ((q.iter.foldl insert (p.iter.foldl insert merged)).prune)

end Digests

end Population

/-! ## Copies -/

section Laws

variable [Sha256]

/-- Candidates that share an id differ only in origin. -/
def Distinct (seen : List Candidate) : Prop :=
  ∀ a ∈ seen, ∀ b ∈ seen, a.id = b.id → b = { a with origin := b.origin }

/-- The texts the ids of these candidates hash. -/
def IdTexts (seen : List Candidate) (text : String) : Prop :=
  ∃ c ∈ seen, text = c.idValue.canonicalString

omit [Sha256] in
theorem Candidate.idValue_inj {a b : Candidate} (h : a.idValue = b.idValue) :
    b = { a with origin := b.origin } := by
  have hfield : ∀ key, a.idValue.get key = b.idValue.get key := fun key => by rw [h]
  have hobjective : a.objectiveId = b.objectiveId := by
    simpa [Candidate.idValue, Value.get_object, BTreeMap.lookupEntry] using hfield "objective_id"
  have hartifact : a.artifact = b.artifact := by
    simpa [Candidate.idValue, Value.get_object, BTreeMap.lookupEntry] using hfield "artifact"
  have hscore : a.score = b.score := by
    simpa [Candidate.idValue, Value.get_object, BTreeMap.lookupEntry] using hfield "score"
  rw [hobjective, hartifact, hscore]

theorem distinct_of_noCollision {seen : List Candidate} (h : NoCollision (IdTexts seen)) :
    Distinct seen := by
  intro a ha b hb hid
  have htext := h _ _ ⟨a, ha, rfl⟩ ⟨b, hb, rfl⟩ hid
  exact Candidate.idValue_inj (Value.canonicalString_injective htext)

theorem Distinct.mono {s t : List Candidate} (h : Distinct t) (hst : s ⊆ t) : Distinct s :=
  fun a ha b hb => h a (hst ha) b (hst hb)

namespace Distinct

variable {seen : List Candidate} (h : Distinct seen)
include h

theorem rank_eq {a b : Candidate} (ha : a ∈ seen) (hb : b ∈ seen) (hid : a.id = b.id) :
    a.rank = b.rank := by
  have hb' := h a ha b hb hid
  have hscore : b.score = a.score := by rw [hb']
  rw [Candidate.rank, Candidate.rank, hscore, hid]

theorem island_eq (islands : UInt32) {a b : Candidate} (ha : a ∈ seen) (hb : b ∈ seen)
    (hid : a.id = b.id) : a.island islands = b.island islands := by
  rw [h a ha b hb hid]
  rfl

end Distinct

theorem id_eq_of_rank_eq {a b : Candidate} (h : a.rank = b.rank) : a.id = b.id :=
  congrArg (fun r => (ofLex r).2) h

/-! ## One bucket -/

namespace Population

/-- The ranks of a bucket, read off its keys. -/
def bucketRanks (bucket : BTreeMap String Candidate) : Finset (Int ×ₗ String) :=
  (bucket.entries.map fun e => toLex (e.2.score.toInt, e.1)).toFinset

omit [Sha256] in
theorem nodup_bucketRanks (bucket : BTreeMap String Candidate) :
    (bucket.entries.map fun e => toLex (e.2.score.toInt, e.1)).Nodup := by
  have hkeys := bucket.nodup_keys
  apply List.Nodup.of_map fun r => (ofLex r).2
  rw [List.map_map]
  exact hkeys

omit [Sha256] in
theorem pairwise_ranked (bucket : BTreeMap String Candidate) :
    (ranked bucket).Pairwise fun a b => b < a := by
  have hsorted : (ranked bucket).Pairwise (· ≥ ·) := List.pairwise_insertionSort _ _
  have hnodup : (ranked bucket).Nodup :=
    (List.perm_insertionSort _ _).nodup_iff.mpr (nodup_bucketRanks bucket)
  exact (hsorted.and hnodup).imp fun h => lt_of_le_of_ne h.1 (Ne.symm h.2)

variable {bucket : BTreeMap String Candidate} {c : Candidate} {p q : Population}

omit [Sha256] in
theorem get?_pruneBucket {capacity : Nat} {id : String} :
    (pruneBucket capacity bucket).get? id = some c ↔
      bucket.get? id = some c ∧
        toLex (c.score.toInt, id) ∈ topK capacity (bucketRanks bucket) := by
  have hmem : ∀ {id c}, bucket.get? id = some c →
      toLex (c.score.toInt, id) ∈ bucketRanks bucket := by
    intro id c hget
    rw [bucketRanks, List.mem_toFinset]
    exact List.mem_map.mpr ⟨(id, c), BTreeMap.get?_eq_some_iff.mp hget, rfl⟩
  unfold pruneBucket
  split_ifs with hfits
  · have hall : topK capacity (bucketRanks bucket) = bucketRanks bucket := by
      apply topK_of_card_le
      apply (List.toFinset_card_le _).trans
      rw [List.length_map]
      exact hfits
    rw [hall]
    exact ⟨fun hget => ⟨hget, hmem hget⟩, fun h => h.1⟩
  · rw [BTreeMap.get?_retain, decide_eq_true_eq]
    have hranks : (ranked bucket).toFinset = bucketRanks bucket :=
      List.toFinset_eq_of_perm _ _ (List.perm_insertionSort _ _)
    rw [← hranks]
    apply and_congr_right
    intro hget
    rw [← mem_take_iff (pairwise_ranked bucket), List.mem_map]
    constructor
    · rintro ⟨r, hr, rfl⟩
      -- the bucket has one score for this id
      have hin := List.mem_of_mem_take hr
      rw [ranked, List.mem_insertionSort, List.mem_map] at hin
      obtain ⟨⟨id', c'⟩, hentry, rfl⟩ := hin
      have hget' := BTreeMap.get?_eq_some_iff.mpr hentry
      simp only [ofLex_toLex] at hget hr ⊢
      rw [hget'] at hget
      cases hget
      exact hr
    · intro hr
      exact ⟨_, hr, rfl⟩

/-! ## A whole population -/

/-- What a population has under an island and an id. -/
def holding (p : Population) (i : Nat) (id : String) : Option Candidate :=
  (p.byIsland.get? i).bind fun bucket => bucket.get? id

/-- Candidates sit under their own island and id. -/
def WF (p : Population) : Prop :=
  ∀ i id c, p.holding i id = some c → c.island p.islands = i ∧ c.id = id

omit [Sha256] in
theorem exists_holding_of_mem_iter : c ∈ p.iter ↔ ∃ i id, p.holding i id = some c := by
  simp only [iter, BTreeMap.values, List.mem_flatMap, List.mem_map, holding,
    Option.bind_eq_some_iff, BTreeMap.get?_eq_some_iff, Prod.exists, exists_eq_right]
  constructor
  · rintro ⟨bucket, ⟨i, hi⟩, id, hid⟩
    exact ⟨i, id, bucket, hi, hid⟩
  · rintro ⟨i, id, bucket, hi, hid⟩
    exact ⟨bucket, ⟨i, hi⟩, id, hid⟩

theorem WF.mem_iter (h : p.WF) : c ∈ p.iter ↔ p.holding (c.island p.islands) c.id = some c := by
  rw [exists_holding_of_mem_iter]
  constructor
  · rintro ⟨i, id, hc⟩
    obtain ⟨rfl, rfl⟩ := h i id c hc
    exact hc
  · intro hc
    exact ⟨_, _, hc⟩

theorem holding_insert (p : Population) (c : Candidate) (i : Nat) (id : String) :
    (p.insert c).holding i id =
      if i = c.island p.islands ∧ id = c.id then some (keepLeast (p.holding i id) c)
      else p.holding i id := by
  unfold holding insert
  rw [BTreeMap.get?_insert]
  by_cases hi : i = c.island p.islands
  · subst hi
    rw [if_pos rfl, Option.bind_some, BTreeMap.get?_insert]
    cases hbucket : p.byIsland.get? (c.island p.islands) with
    | none =>
      by_cases hid : id = c.id
      · simp [hid]
      · simp [hid]
    | some bucket =>
      by_cases hid : id = c.id
      · simp [hid]
      · simp [hid]
  · rw [if_neg hi, if_neg fun h => hi h.1]

theorem WF.insert (h : p.WF) (c : Candidate) : (p.insert c).WF := by
  intro i id d hd
  rw [holding_insert] at hd
  split_ifs at hd with hhere
  · obtain ⟨rfl, rfl⟩ := hhere
    unfold keepLeast at hd
    cases hexisting : p.holding (c.island p.islands) c.id with
    | none =>
      rw [hexisting] at hd
      cases hd
      exact ⟨rfl, rfl⟩
    | some existing =>
      rw [hexisting] at hd
      dsimp only at hd
      split_ifs at hd with hle
      · cases hd
        exact h _ _ _ hexisting
      · cases hd
        exact ⟨rfl, rfl⟩
  · exact h i id d hd

theorem bucketRanks_eq (h : p.WF) {i : Nat} (hbucket : p.byIsland.get? i = some bucket) :
    bucketRanks bucket = ranksIn Candidate.rank (fun c => c.island p.islands) p.iter i := by
  ext r
  rw [bucketRanks, List.mem_toFinset, List.mem_map, mem_ranksIn]
  constructor
  · rintro ⟨⟨id, c⟩, hentry, rfl⟩
    have hc : p.holding i id = some c := by
      rw [holding, hbucket]
      exact BTreeMap.get?_eq_some_iff.mpr hentry
    obtain ⟨hi, rfl⟩ := h i id c hc
    exact ⟨c, exists_holding_of_mem_iter.mpr ⟨i, _, hc⟩, hi, rfl⟩
  · rintro ⟨c, hc, rfl, rfl⟩
    rw [h.mem_iter, holding, hbucket] at hc
    exact ⟨(c.id, c), BTreeMap.get?_eq_some_iff.mp hc, rfl⟩

/-- Pruning keeps the greatest ranks of each island. -/
theorem holding_prune (h : p.WF) {i : Nat} {id : String} :
    p.prune.holding i id = some c ↔ p.holding i id = some c ∧
      c.rank ∈ topK p.capacity
        (ranksIn Candidate.rank (fun c => c.island p.islands) p.iter (c.island p.islands)) := by
  unfold prune holding
  dsimp only
  rw [BTreeMap.get?_mapValues]
  cases hbucket : p.byIsland.get? i with
  | none => simp
  | some bucket =>
    rw [Option.map_some, Option.bind_some, Option.bind_some, get?_pruneBucket]
    apply and_congr_right
    intro hc
    obtain ⟨rfl, rfl⟩ := h i id c (by rw [holding, hbucket]; exact hc)
    rw [bucketRanks_eq h hbucket]
    rfl

theorem WF.prune (h : p.WF) : p.prune.WF :=
  fun i id c hc => h i id c ((holding_prune h).mp hc).1

theorem mem_iter_prune (h : p.WF) :
    c ∈ p.prune.iter ↔ c ∈ p.iter ∧
      c.rank ∈ topK p.capacity
        (ranksIn Candidate.rank (fun c => c.island p.islands) p.iter (c.island p.islands)) := by
  rw [h.prune.mem_iter, h.mem_iter]
  exact holding_prune h

/-! ## What a population has seen -/

/-- An unpruned population: the least copy of everything seen. -/
structure Collects (p : Population) (seen : List Candidate) : Prop where
  wf : p.WF
  mem_iter : ∀ c, c ∈ p.iter ↔ Least Candidate.rank Candidate.origin seen c

/-- A pruned population: what is retained of everything seen. -/
structure Retains (p : Population) (seen : List Candidate) : Prop where
  wf : p.WF
  mem_iter : ∀ c, c ∈ p.iter ↔
    Retained Candidate.rank Candidate.origin (fun c => c.island p.islands) p.capacity seen c

theorem Collects.empty (islands : UInt32) (capacity : Nat) :
    Collects { islands, capacity, byIsland := .empty } [] where
  wf := by
    intro i id c h
    simp [holding] at h
  mem_iter := by
    intro c
    simp [iter, BTreeMap.values, BTreeMap.empty, Least]

variable {seen : List Candidate}

/-- The slot a candidate goes to gets the least copy. -/
theorem Collects.least_keepLeast (h : p.Collects seen)
    (hdistinct : Distinct (c :: seen)) :
    Least Candidate.rank Candidate.origin (c :: seen)
        (keepLeast (p.holding (c.island p.islands) c.id) c) ∧
      (keepLeast (p.holding (c.island p.islands) c.id) c).id = c.id := by
  have hself : (∀ b ∈ seen, b.rank = c.rank → c.origin ≤ b.origin) →
      Least Candidate.rank Candidate.origin (c :: seen) c := by
    intro hle
    refine ⟨by simp, ?_⟩
    intro b hb hrank
    rcases List.mem_cons.mp hb with rfl | hb
    · exact le_rfl
    · exact hle b hb hrank
  cases hexisting : p.holding (c.island p.islands) c.id with
  | none =>
    refine ⟨hself ?_, rfl⟩
    intro b hb hrank
    -- a copy seen before would have left its least copy in the slot
    obtain ⟨e, he, herank⟩ := @exists_least _ _ _ _ Candidate.rank Candidate.origin _ _ hb
    have hid : e.id = c.id := id_eq_of_rank_eq (herank.trans hrank)
    have hheld := h.wf.mem_iter.mp ((h.mem_iter e).mpr he)
    rw [hdistinct.island_eq p.islands (by simp [he.1]) (by simp) hid, hid, hexisting] at hheld
    cases hheld
  | some e =>
    obtain ⟨-, hid⟩ := h.wf _ _ _ hexisting
    obtain ⟨hseen, hleast⟩ :=
      (h.mem_iter e).mp (exists_holding_of_mem_iter.mpr ⟨_, _, hexisting⟩)
    have hrank : e.rank = c.rank := hdistinct.rank_eq (by simp [hseen]) (by simp) hid
    unfold keepLeast
    dsimp only
    split_ifs with hle
    · refine ⟨⟨by simp [hseen], ?_⟩, hid⟩
      intro b hb hbe
      rcases List.mem_cons.mp hb with rfl | hb
      · exact hle
      · exact hleast b hb hbe
    · refine ⟨hself ?_, rfl⟩
      intro b hb hbc
      exact (not_le.mp hle).le.trans (hleast b hb (hbc.trans hrank.symm))

theorem Collects.insert (h : p.Collects seen)
    (hdistinct : Distinct (c :: seen)) : (p.insert c).Collects (c :: seen) where
  wf := h.wf.insert c
  mem_iter := by
    intro d
    have hislands : (p.insert c).islands = p.islands := rfl
    rw [(h.wf.insert c).mem_iter, hislands, holding_insert]
    by_cases hslot : d.island p.islands = c.island p.islands ∧ d.id = c.id
    · obtain ⟨hleast, hid⟩ := h.least_keepLeast hdistinct
      rw [if_pos hslot, hslot.1, hslot.2]
      constructor
      · intro hd
        cases hd
        exact hleast
      · intro hd
        -- least copies of one rank are one candidate
        have hrank := hdistinct.rank_eq hleast.1 hd.1 (hid.trans hslot.2.symm)
        have horigin := hleast.tag_eq hd hrank
        rw [hdistinct _ hleast.1 d hd.1 (hid.trans hslot.2.symm), ← horigin]
    · rw [if_neg hslot, ← h.wf.mem_iter, h.mem_iter]
      constructor
      · intro hd
        refine (least_cons_of_ne fun hrank => hslot ?_).mpr hd
        have hid := id_eq_of_rank_eq hrank
        exact ⟨hdistinct.island_eq p.islands (by simp [hd.1]) (by simp) hid, hid⟩
      · intro hd
        refine (least_cons_of_ne fun hrank => hslot ?_).mp hd
        have hid := id_eq_of_rank_eq hrank
        exact ⟨hdistinct.island_eq p.islands hd.1 (by simp) hid, hid⟩

theorem Collects.foldl_insert (candidates : List Candidate) :
    ∀ {p : Population} {seen : List Candidate}, p.Collects seen →
      Distinct (candidates.reverse ++ seen) →
      (candidates.foldl Population.insert p).Collects (candidates.reverse ++ seen) := by
  induction candidates with
  | nil => exact fun h _ => h
  | cons c rest ih =>
    intro p seen h hdistinct
    rw [List.reverse_cons, List.append_assoc] at hdistinct ⊢
    exact ih (h.insert (hdistinct.mono (List.subset_append_right _ _))) hdistinct

/-- Pruning an unpruned population leaves what is retained. -/
theorem Collects.prune (h : p.Collects seen) (hdistinct : Distinct seen) :
    p.prune.Retains seen where
  wf := h.wf.prune
  mem_iter := by
    intro c
    have hranks : ∀ i, ranksIn Candidate.rank (fun c => c.island p.islands) p.iter i =
        ranksIn Candidate.rank (fun c => c.island p.islands) seen i := by
      intro i
      ext r
      rw [mem_ranksIn, mem_ranksIn]
      constructor
      · rintro ⟨a, ha, hrest⟩
        exact ⟨a, ((h.mem_iter a).mp ha).1, hrest⟩
      · rintro ⟨a, ha, rfl, rfl⟩
        obtain ⟨b, hb, hrank⟩ := @exists_least _ _ _ _ Candidate.rank Candidate.origin _ _ ha
        exact ⟨b, (h.mem_iter b).mpr hb,
          hdistinct.island_eq p.islands hb.1 ha (id_eq_of_rank_eq hrank), hrank⟩
    rw [mem_iter_prune h.wf, h.mem_iter, hranks]
    rfl

/-- A pruned population collects what it holds. -/
theorem Retains.collects (h : p.Retains seen) :
    p.Collects p.iter where
  wf := h.wf
  mem_iter := by
    intro c
    constructor
    · intro hc
      exact (((h.mem_iter c).mp hc).1).of_subset (fun a ha => ((h.mem_iter a).mp ha).1.1) hc
    · intro hc
      exact hc.1

theorem Retains.subset (h : p.Retains seen) : p.iter ⊆ seen :=
  fun c hc => ((h.mem_iter c).mp hc).1.1

/-- Dropping early is safe: a population that retains enough of what was seen
retains all of it. -/
theorem Retains.of_between {kept seen : List Candidate} (h : p.Retains kept)
    (hdistinct : Distinct seen) (hsub : kept ⊆ seen)
    (hkept : ∀ c, Retained Candidate.rank Candidate.origin (fun c => c.island p.islands)
      p.capacity seen c → c ∈ kept) : p.Retains seen where
  wf := h.wf
  mem_iter := by
    intro c
    rw [h.mem_iter]
    apply retained_iff_of_between _ hsub hkept
    intro a ha b hb hrank
    exact hdistinct.island_eq p.islands ha hb (id_eq_of_rank_eq hrank)

theorem Retains.congr {s t : List Candidate} (h : p.Retains s) (hdistinct : Distinct t)
    (hst : ∀ c, c ∈ s ↔ c ∈ t) : p.Retains t :=
  h.of_between hdistinct (fun c hc => (hst c).mp hc) fun c hc => (hst c).mpr hc.1.1

theorem Retains.add (h : p.Retains seen) (hdistinct : Distinct (c :: seen)) :
    (p.add c).Retains (c :: seen) := by
  have hsub : c :: p.iter ⊆ c :: seen := List.cons_subset_cons c h.subset
  have hkept := (h.collects.insert (hdistinct.mono hsub)).prune (hdistinct.mono hsub)
  apply hkept.of_between hdistinct hsub
  intro d hd
  rcases List.mem_cons.mp hd.1.1 with rfl | hseen
  · exact List.mem_cons_self
  · apply List.mem_cons_of_mem
    exact (h.mem_iter d).mpr (hd.of_subset le_rfl (List.subset_cons_self _ _) hseen)

theorem foldl_insert_bounds (candidates : List Candidate) : ∀ p : Population,
    (candidates.foldl Population.insert p).islands = p.islands ∧
      (candidates.foldl Population.insert p).capacity = p.capacity := by
  induction candidates with
  | nil => exact fun p => ⟨rfl, rfl⟩
  | cons c rest ih => exact fun p => ih (p.insert c)

/-- A merge that goes through keeps the island count and the smaller bound. -/
theorem merge_bounds {r : Population} (h : p.merge q = .ok r) :
    q.islands = p.islands ∧ r.islands = p.islands ∧ r.capacity = min p.capacity q.capacity := by
  unfold Population.merge at h
  split_ifs at h with hislands
  cases h
  have hq := foldl_insert_bounds q.iter
  have hp := foldl_insert_bounds p.iter
  refine ⟨not_not.mp hislands, ?_, ?_⟩
  · exact (hq _).1.trans (hp _).1
  · exact (hq _).2.trans (hp _).2

theorem Retains.merge {r : Population} {s t : List Candidate} (hp : p.Retains s) (hq : q.Retains t)
    (hdistinct : Distinct (s ++ t)) (h : p.merge q = .ok r) : r.Retains (s ++ t) := by
  obtain ⟨hislands, hislands', hcapacity⟩ := merge_bounds h
  have hr : r.Retains (q.iter.reverse ++ (p.iter.reverse ++ [])) := by
    unfold Population.merge at h
    rw [if_neg (not_not.mpr hislands)] at h
    cases h
    have hkept : Distinct (q.iter.reverse ++ (p.iter.reverse ++ [])) := by
      apply hdistinct.mono
      intro c hc
      simp only [List.append_nil, List.mem_append, List.mem_reverse] at hc ⊢
      exact hc.symm.imp (fun h => hp.subset h) fun h => hq.subset h
    have hleft := (Collects.empty p.islands (min p.capacity q.capacity)).foldl_insert p.iter
      (hkept.mono (List.subset_append_right _ _))
    exact (hleft.foldl_insert q.iter hkept).prune hkept
  have hmem : ∀ c, c ∈ q.iter.reverse ++ (p.iter.reverse ++ []) ↔ c ∈ p.iter ∨ c ∈ q.iter := by
    intro c
    simp [or_comm]
  apply hr.of_between hdistinct
  · intro c hc
    rw [List.mem_append]
    exact ((hmem c).mp hc).imp (fun h => hp.subset h) fun h => hq.subset h
  · intro c hc
    rw [hislands', hcapacity] at hc
    rw [hmem]
    apply (List.mem_append.mp hc.1.1).imp
    · intro hs
      rw [hp.mem_iter]
      exact hc.of_subset (min_le_left _ _) (List.subset_append_left _ _) hs
    · intro ht
      rw [hq.mem_iter, hislands]
      exact hc.of_subset (min_le_right _ _) (List.subset_append_right _ _) ht

/-! ## Equality -/

theorem WF.nodup_iter (h : p.WF) : p.iter.Nodup := by
  have hheld : ∀ {i bucket}, (i, bucket) ∈ p.byIsland.entries → ∀ {id c},
      (id, c) ∈ bucket.entries → p.holding i id = some c := by
    intro i bucket hbucket id c hentry
    rw [holding, BTreeMap.get?_eq_some_iff.mpr hbucket]
    exact BTreeMap.get?_eq_some_iff.mpr hentry
  unfold iter BTreeMap.values
  rw [List.nodup_flatMap]
  constructor
  · intro bucket hvalue
    obtain ⟨⟨i, bucket⟩, hbucket, rfl⟩ := List.mem_map.mp hvalue
    refine List.Nodup.of_map Candidate.id ?_
    have hkeys := bucket.nodup_keys
    rw [List.map_map]
    convert hkeys using 1
    apply List.map_congr_left
    intro e he
    exact (h i e.1 e.2 (hheld hbucket he)).2
  · rw [List.pairwise_map]
    apply p.byIsland.sorted.imp_of_mem
    intro a b ha hb hlt c hca hcb
    obtain ⟨e, he, rfl⟩ := List.mem_map.mp hca
    obtain ⟨f, hf, hfe⟩ := List.mem_map.mp hcb
    have hia := (h a.1 e.1 e.2 (hheld ha he)).1
    have hib := (h b.1 f.1 f.2 (hheld hb hf)).1
    rw [hfe] at hib
    exact absurd (hia.symm.trans hib) (ne_of_lt hlt)

omit [Sha256] in
theorem len_eq (p : Population) : p.len = p.iter.length := by
  unfold len iter BTreeMap.size BTreeMap.values
  rw [List.length_flatMap]
  simp

omit [Sha256] in
theorem mem_values : bucket ∈ p.byIsland.values ↔ ∃ i, p.byIsland.get? i = some bucket := by
  simp [BTreeMap.values, BTreeMap.get?_eq_some_iff]

/-- The scan over the islands finds a candidate the population holds. -/
theorem WF.get_of_mem (h : p.WF) (hdistinct : Distinct p.iter) (hc : c ∈ p.iter) :
    p.get c.id = some c := by
  have hheld := h.mem_iter.mp hc
  obtain ⟨bucket, hbucket, hget⟩ := Option.bind_eq_some_iff.mp hheld
  have hfound : (p.get c.id).isSome := by
    unfold get
    rw [List.findSome?_isSome_iff]
    exact ⟨bucket, mem_values.mpr ⟨_, hbucket⟩, by rw [hget]; rfl⟩
  obtain ⟨d, hd⟩ := Option.isSome_iff_exists.mp hfound
  -- an id has one island, so the bucket found is the candidate's
  obtain ⟨other, hother, hgetd⟩ := List.exists_of_findSome?_eq_some hd
  obtain ⟨i, hi⟩ := mem_values.mp hother
  have hheldd : p.holding i c.id = some d := by
    rw [holding, hi]
    exact hgetd
  obtain ⟨hisland, hid⟩ := h i c.id d hheldd
  have hmem : d ∈ p.iter := exists_holding_of_mem_iter.mpr ⟨i, _, hheldd⟩
  rw [← hisland, hdistinct.island_eq p.islands hmem hc hid, hheld] at hheldd
  rw [hd, hheldd]

/-- Populations that hold the same candidates are equal. -/
theorem beq_of_same (hp : p.WF) (hq : q.WF) (hdistinct : Distinct q.iter)
    (h : ∀ c, c ∈ p.iter ↔ c ∈ q.iter) : (p == q) = true := by
  have hlen : p.len = q.len := by
    rw [len_eq, len_eq]
    exact ((List.perm_ext_iff_of_nodup hp.nodup_iter hq.nodup_iter).mpr h).length_eq
  show p.beq q = true
  unfold Population.beq
  rw [Bool.and_eq_true, beq_iff_eq, List.all_eq_true]
  refine ⟨hlen, ?_⟩
  intro bucket hbucket
  rw [List.all_eq_true]
  rintro ⟨id, c⟩ hentry
  obtain ⟨i, hi⟩ := mem_values.mp hbucket
  have hheld : p.holding i id = some c := by
    rw [holding, hi]
    exact BTreeMap.get?_eq_some_iff.mpr hentry
  obtain ⟨-, rfl⟩ := hp i id c hheld
  have hmem := exists_holding_of_mem_iter.mpr ⟨i, _, hheld⟩
  rw [beq_iff_eq]
  exact hq.get_of_mem hdistinct ((h c).mp hmem)

/-- What was seen and the bound determine a population. -/
theorem Retains.beq (hp : p.Retains seen) (hq : q.Retains seen)
    (hdistinct : Distinct seen) (hislands : p.islands = q.islands)
    (hcapacity : p.capacity = q.capacity) : (∀ c, c ∈ p.iter ↔ c ∈ q.iter) ∧ (p == q) = true := by
  have hsame : ∀ c, c ∈ p.iter ↔ c ∈ q.iter := by
    intro c
    rw [hp.mem_iter, hq.mem_iter, hislands, hcapacity]
  exact ⟨hsame, beq_of_same hp.wf hq.wf (hdistinct.mono hq.subset) hsame⟩

end Population

namespace Population

/-! ## The laws of merging -/

/-- Same islands, and the merge goes through. -/
theorem merge_ok {p q : Population} (h : p.islands = q.islands) : ∃ r, p.merge q = .ok r := by
  unfold Population.merge
  rw [if_neg (not_not.mpr h.symm)]
  exact ⟨_, rfl⟩

variable {p : Population} {s : List Candidate}

theorem Retains.merge_comm {q : Population} {t : List Candidate} (hp : p.Retains s)
    (hq : q.Retains t) (hdistinct : Distinct (s ++ t)) (h : p.islands = q.islands) :
    ∃ pq qp, p.merge q = .ok pq ∧ q.merge p = .ok qp ∧ (pq == qp) = true := by
  obtain ⟨pq, hpq⟩ := merge_ok h
  obtain ⟨qp, hqp⟩ := merge_ok h.symm
  obtain ⟨-, hil, hcl⟩ := merge_bounds hpq
  obtain ⟨-, hir, hcr⟩ := merge_bounds hqp
  have hmem : ∀ c, c ∈ t ++ s ↔ c ∈ s ++ t := fun c => by simp [or_comm]
  have hright : qp.Retains (s ++ t) :=
    (hq.merge hp (hdistinct.mono fun c => (hmem c).mp) hqp).congr hdistinct hmem
  have hislands : pq.islands = qp.islands := hil.trans (h.trans hir.symm)
  have hcapacity : pq.capacity = qp.capacity := by rw [hcl, hcr, min_comm]
  exact ⟨pq, qp, hpq, hqp, ((hp.merge hq hdistinct hpq).beq hright hdistinct hislands hcapacity).2⟩

theorem Retains.merge_assoc {q r : Population} {t u : List Candidate} (hp : p.Retains s)
    (hq : q.Retains t) (hr : r.Retains u) (hdistinct : Distinct (s ++ t ++ u))
    (hpq : p.islands = q.islands) (hqr : q.islands = r.islands) :
    ∃ pq left qr right, p.merge q = .ok pq ∧ pq.merge r = .ok left ∧
      q.merge r = .ok qr ∧ p.merge qr = .ok right ∧ (left == right) = true := by
  obtain ⟨pq, hpqm⟩ := merge_ok hpq
  obtain ⟨qr, hqrm⟩ := merge_ok hqr
  obtain ⟨-, hipq, hcpq⟩ := merge_bounds hpqm
  obtain ⟨-, hiqr, hcqr⟩ := merge_bounds hqrm
  obtain ⟨left, hleftm⟩ := merge_ok (hipq.trans (hpq.trans hqr))
  obtain ⟨right, hrightm⟩ := merge_ok (hpq.trans hiqr.symm)
  obtain ⟨-, hil, hcl⟩ := merge_bounds hleftm
  obtain ⟨-, hir, hcr⟩ := merge_bounds hrightm
  have hleft : left.Retains (s ++ t ++ u) :=
    (hp.merge hq (hdistinct.mono (List.subset_append_left _ _)) hpqm).merge hr hdistinct hleftm
  rw [List.append_assoc] at hdistinct hleft
  have hright : right.Retains (s ++ (t ++ u)) :=
    hp.merge (hq.merge hr (hdistinct.mono (List.subset_append_right _ _)) hqrm) hdistinct hrightm
  have hislands : left.islands = right.islands := hil.trans (hipq.trans hir.symm)
  have hcapacity : left.capacity = right.capacity := by rw [hcl, hcr, hcpq, hcqr, min_assoc]
  exact ⟨pq, left, qr, right, hpqm, hleftm, hqrm, hrightm,
    (hleft.beq hright hdistinct hislands hcapacity).2⟩

theorem Retains.merge_idem (hp : p.Retains s) (hdistinct : Distinct s) :
    ∃ pp, p.merge p = .ok pp ∧ (pp == p) = true := by
  obtain ⟨pp, hpp⟩ := merge_ok (rfl : p.islands = p.islands)
  obtain ⟨-, hislands, hcapacity⟩ := merge_bounds hpp
  have hmem : ∀ c, c ∈ s ++ s ↔ c ∈ s := by simp
  have hself : pp.Retains s :=
    (hp.merge hp (hdistinct.mono fun c => (hmem c).mp) hpp).congr hdistinct hmem
  rw [min_self] at hcapacity
  exact ⟨pp, hpp, (hself.beq hp hdistinct hislands hcapacity).2⟩

end Population

/-! ## Every way to build a population -/

/-- How a population was built: from nothing or from a list, by additions and
merges in any order. -/
inductive Script where
  | new (islands : UInt32) (capacity : Nat)
  | withCandidates (islands : UInt32) (capacity : Nat) (candidates : List Candidate)
  | add (s : Script) (c : Candidate)
  | merge (s t : Script)

namespace Script

def run : Script → Except GossipError Population
  | .new islands capacity => Population.new islands capacity
  | .withCandidates islands capacity candidates =>
    Population.withCandidates islands capacity candidates
  | .add s c => s.run.map fun p => p.add c
  | .merge s t => do
      let p ← s.run
      let q ← t.run
      p.merge q

/-- Every candidate that went in. -/
def seen : Script → List Candidate
  | .new _ _ => []
  | .withCandidates _ _ candidates => candidates
  | .add s c => c :: s.seen
  | .merge s t => s.seen ++ t.seen

/-- The smallest capacity on the way. -/
def capacity : Script → Nat
  | .new _ capacity => capacity
  | .withCandidates _ capacity _ => capacity
  | .add s _ => s.capacity
  | .merge s t => min s.capacity t.capacity

/-- A population holds what is retained of all it has seen. -/
theorem retains (s : Script) : ∀ {p : Population}, s.run = .ok p → Distinct s.seen →
    p.Retains s.seen ∧ p.capacity = s.capacity := by
  have hnew : ∀ {islands capacity p}, Population.new islands capacity = .ok p →
      p = { islands, capacity, byIsland := .empty } := by
    intro islands capacity p h
    unfold Population.new at h
    split_ifs at h
    cases h
    rfl
  induction s with
  | new islands capacity =>
    intro p h _
    rw [hnew h]
    refine ⟨⟨(Population.Collects.empty islands capacity).wf, ?_⟩, rfl⟩
    intro c
    simp [Population.iter, BTreeMap.values, BTreeMap.empty, Retained, Least, seen]
  | withCandidates islands capacity candidates =>
    intro p h hdistinct
    simp only [run, Population.withCandidates, bind_eq_ok] at h
    obtain ⟨start, hstart, h⟩ := h
    cases h
    have hmem : ∀ c, c ∈ candidates.reverse ++ [] ↔ c ∈ candidates := by simp
    have hdistinct' : Distinct (candidates.reverse ++ []) :=
      hdistinct.mono fun c hc => (hmem c).mp hc
    rw [hnew hstart]
    have hall := (Population.Collects.empty islands capacity).foldl_insert candidates hdistinct'
    exact ⟨(hall.prune hdistinct').congr hdistinct hmem,
      (Population.foldl_insert_bounds candidates _).2⟩
  | add s c ih =>
    intro p h hdistinct
    simp only [run, map_eq_ok] at h
    obtain ⟨start, hstart, rfl⟩ := h
    obtain ⟨hretains, hcapacity⟩ := ih hstart (hdistinct.mono (List.subset_cons_self _ _))
    exact ⟨hretains.add hdistinct, hcapacity⟩
  | merge s t ihs iht =>
    intro p h hdistinct
    simp only [run, bind_eq_ok] at h
    obtain ⟨left, hleft, right, hright, h⟩ := h
    obtain ⟨hretainsl, hcapacityl⟩ := ihs hleft (hdistinct.mono (List.subset_append_left _ _))
    obtain ⟨hretainsr, hcapacityr⟩ := iht hright (hdistinct.mono (List.subset_append_right _ _))
    refine ⟨hretainsl.merge hretainsr hdistinct h, ?_⟩
    rw [(Population.merge_bounds h).2.2, hcapacityl, hcapacityr]
    rfl

end Script

/-- What a population holds of what it has seen: of each id the copy with the
least origin, of each island the greatest ranks. -/
def Kept (islands : UInt32) (capacity : Nat) (seen : List Candidate) (c : Candidate) : Prop :=
  c ∈ seen ∧ (∀ copy ∈ seen, copy.id = c.id → c.origin ≤ copy.origin) ∧
    c.rank ∈ topK capacity
      (((seen.filter fun d => d.island islands = c.island islands).map Candidate.rank).toFinset)

theorem Population.Retains.kept {p : Population} {seen : List Candidate} (h : p.Retains seen)
    (hdistinct : Distinct seen) {c : Candidate} :
    c ∈ p.iter ↔ Kept p.islands p.capacity seen c := by
  rw [h.mem_iter]
  constructor
  · rintro ⟨⟨hc, hleast⟩, htop⟩
    exact ⟨hc, fun b hb hid => hleast b hb (hdistinct.rank_eq hb hc hid), htop⟩
  · rintro ⟨hc, hleast, htop⟩
    exact ⟨⟨hc, fun b hb hrank => hleast b hb (id_eq_of_rank_eq hrank)⟩, htop⟩

/-- The same candidates and the same bound give the same population, whatever
the order of additions and merges; merging is commutative, associative and
idempotent. -/
theorem converge {s t u : Script} {p q r : Population} (hp : s.run = .ok p) (hq : t.run = .ok q)
    (hr : u.run = .ok r) (hpq : p.islands = q.islands) (hqr : q.islands = r.islands)
    (hcoll : NoCollision (IdTexts (s.seen ++ t.seen ++ u.seen))) :
    ((∀ c, c ∈ s.seen ↔ c ∈ t.seen) → s.capacity = t.capacity →
      (∀ c, c ∈ p.iter ↔ c ∈ q.iter) ∧ (p == q) = true) ∧
    (∀ c, c ∈ p.iter ↔ Kept p.islands s.capacity s.seen c) ∧
    (∃ pq qp, p.merge q = .ok pq ∧ q.merge p = .ok qp ∧ (pq == qp) = true) ∧
    (∃ pq left qr right, p.merge q = .ok pq ∧ pq.merge r = .ok left ∧
      q.merge r = .ok qr ∧ p.merge qr = .ok right ∧ (left == right) = true) ∧
    (∃ pp, p.merge p = .ok pp ∧ (pp == p) = true) := by
  have hall := distinct_of_noCollision hcoll
  have hst : Distinct (s.seen ++ t.seen) := hall.mono (List.subset_append_left _ _)
  have hs : Distinct s.seen := hst.mono (List.subset_append_left _ _)
  have ht : Distinct t.seen := hst.mono (List.subset_append_right _ _)
  have hu : Distinct u.seen := hall.mono (List.subset_append_right _ _)
  obtain ⟨hp', hcp⟩ := s.retains hp hs
  obtain ⟨hq', hcq⟩ := t.retains hq ht
  obtain ⟨hr', -⟩ := u.retains hr hu
  refine ⟨?_, ?_, hp'.merge_comm hq' hst hpq, hp'.merge_assoc hq' hr' hall hpq hqr,
    hp'.merge_idem hs⟩
  · intro hseen hcapacity
    have hq'' : q.Retains s.seen := hq'.congr hs fun c => (hseen c).symm
    exact hp'.beq hq'' hs hpq (hcp.trans (hcapacity.trans hcq.symm))
  · intro c
    rw [← hcp]
    exact hp'.kept hs

end Laws

/-! ## A run -/

def sampleCandidate (score : Int64) (origin : String) : Candidate :=
  { objectiveId := "o", artifact := .null, score, origin }

/-- Two candidates, one of them twice, added one by one under a small bound. -/
def sampleAdded : Script :=
  (((Script.new 8 1).add (sampleCandidate 1 "b")).add (sampleCandidate 12 "b")).add
    (sampleCandidate 12 "a")

/-- The same candidates in another order, merged under two bounds. -/
def sampleMerged : Script :=
  (Script.withCandidates 8 2 [sampleCandidate 12 "a", sampleCandidate 1 "b"]).merge
    ((Script.new 8 1).add (sampleCandidate 12 "b"))

/-- SHA-256 on what the sample hashes. -/
@[reducible] def sampleHash : Sha256 := .ofTable
  [("\x7b\"artifact\":null,\"objective_id\":\"o\"\x7d",
      0xddf494f55b43d0916bc0327cebb46806c6225088740c79a2ddf63ee325e37fe6),
    ("\x7b\"artifact\":null,\"objective_id\":\"o\",\"score\":1\x7d",
      0xc2723c8b9e4dbd69a96d9dd75f9984a9f6540270e392012d740760f206c455f5),
    ("\x7b\"artifact\":null,\"objective_id\":\"o\",\"score\":12\x7d",
      0xc53f065bd7c5c9072559fc128a15c22981cebb1fc1fb9c440f95a4869409de98)]

theorem converge_sample : letI := sampleHash
    ∃ p q, sampleAdded.run = .ok p ∧ sampleMerged.run = .ok q ∧ (p == q) = true := by
  let _ := sampleHash
  let start : Population := { islands := 8, capacity := 1, byIsland := .empty }
  have hstart : Population.new 8 1 = .ok start := rfl
  have hp : sampleAdded.run = .ok (((start.add (sampleCandidate 1 "b")).add
      (sampleCandidate 12 "b")).add (sampleCandidate 12 "a")) := by
    simp only [sampleAdded, Script.run, hstart, Except.map]
  obtain ⟨q, hq, hqi⟩ : ∃ q, sampleMerged.run = .ok q ∧ q.islands = 8 := by
    obtain ⟨q, hq⟩ := @Population.merge_ok _
      ([sampleCandidate 12 "a", sampleCandidate 1 "b"].foldl Population.insert
        { islands := 8, capacity := 2, byIsland := .empty }).prune
      (start.add (sampleCandidate 12 "b")) rfl
    refine ⟨q, ?_, (Population.merge_bounds hq).2.1⟩
    simp only [sampleMerged, Script.run, hstart, Except.map]
    exact hq
  have hcoll : NoCollision
      (IdTexts (sampleAdded.seen ++ sampleMerged.seen ++ sampleMerged.seen)) := by
    apply @noCollision_of_nodup _ [(sampleCandidate 1 "").idValue.canonicalString,
      (sampleCandidate 12 "").idValue.canonicalString]
    · decide
    · rintro text ⟨c, hc, rfl⟩
      simp only [sampleAdded, sampleMerged, Script.seen, List.cons_append, List.nil_append,
        List.mem_cons, List.not_mem_nil, or_false] at hc
      rcases hc with rfl | rfl | rfl | rfl | rfl | rfl | rfl | rfl | rfl <;>
        simp [sampleCandidate, Candidate.idValue]
  have hseen : ∀ c, c ∈ sampleAdded.seen ↔ c ∈ sampleMerged.seen := by
    intro c
    simp [sampleAdded, sampleMerged, Script.seen]
    tauto
  obtain ⟨hsame, -⟩ := converge hp hq hq hqi.symm rfl hcoll
  exact ⟨_, q, hp, hq, (hsame hseen rfl).2⟩

end Gossip

end Cairn.Ports
