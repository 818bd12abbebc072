import Cairn.Ports.Gossip
import Cairn.Verified.Items

/-!
# Populations on the wire

The codecs of `src/gossip.rs`, `ingest`, and the digest two peers compare. A
decoder rebuilds a population candidate by candidate under the bounds it read,
so whatever was sent, what comes out is as if it had been added here.
-/

namespace Cairn.Ports

open Cairn.Verified
open Cairn.Ports.Canonical

namespace Gossip

/-- How many values a `usize` has on a 64-bit platform. -/
def USIZE : Nat := 2 ^ 64

namespace Candidate

def toValue (c : Candidate) : Value :=
  .object [("objective_id", .string c.objectiveId), ("artifact", c.artifact),
    ("score", i64Value c.score), ("origin", .string c.origin)]

/-- A field of a candidate that is a text. -/
def requiredText (value : Value) (field : String) : Except GossipError String :=
  match value.get field with
  | none => .error (.missingField "candidate" field)
  | some found => okOr (.invalidField "candidate" field "a string") found.asStr

def fromValue (value : Value) : Except GossipError Candidate := do
  if value.asObject.isNone then .error (.notAnObject "candidate")
  let objectiveId ← requiredText value "objective_id"
  let origin ← requiredText value "origin"
  let artifact ← okOr (.missingField "candidate" "artifact") (value.get "artifact")
  let found ← okOr (.missingField "candidate" "score") (value.get "score")
  let raw ← okOr (.invalidField "candidate" "score" "an integer") found.asI128
  if -(2 ^ 63) ≤ raw.val ∧ raw.val < 2 ^ 63 then
    .ok { objectiveId, artifact, score := Int64.ofInt raw.val, origin }
  else .error (.outOfRange "score" raw)

/-- A candidate is read back. -/
theorem fromValue_toValue (c : Candidate) : fromValue c.toValue = .ok c := by
  have htext : ∀ {field s}, c.toValue.get field = some (.string s) →
      requiredText c.toValue field = .ok s := by
    intro field s h
    rw [requiredText, h]
    rfl
  have hid : requiredText c.toValue "objective_id" = .ok c.objectiveId :=
    htext (by simp [toValue, Value.get_object, BTreeMap.lookupEntry])
  have horigin : requiredText c.toValue "origin" = .ok c.origin :=
    htext (by simp [toValue, Value.get_object, BTreeMap.lookupEntry])
  have hartifact : c.toValue.get "artifact" = some c.artifact := by
    simp [toValue, Value.get_object, BTreeMap.lookupEntry]
  have hscore : c.toValue.get "score" = some (.int (i128OfInt64 c.score)) := by
    simp [toValue, Value.get_object, BTreeMap.lookupEntry, i64Value]
  have hobject : c.toValue.asObject.isNone = false :=
    Option.isNone_eq_false_iff.mpr (asObject_object _)
  have hrange : -(2 ^ 63) ≤ (i128OfInt64 c.score).val ∧ (i128OfInt64 c.score).val < 2 ^ 63 :=
    ⟨c.score.le_toInt, c.score.toInt_lt⟩
  unfold fromValue
  simp only [hobject, hid, horigin, hartifact, hscore, okOr_some, Value.asI128_int, bind,
    Except.bind, if_pos hrange, Bool.false_eq_true, if_false]
  show Except.ok { c with score := Int64.ofInt c.score.toInt } = .ok c
  rw [Int64.ofInt_toInt]

end Candidate

namespace Population

def default : Population where
  islands := DEFAULT_ISLANDS
  capacity := DEFAULT_CAPACITY
  byIsland := .empty

/-- The ids, island by island. -/
def ids (p : Population) : List String := p.byIsland.values.flatMap BTreeMap.keys

def requiredInt (value : Value) (field : String) : Except GossipError I128 :=
  match value.get field with
  | none => .error (.missingField "population" field)
  | some found => okOr (.invalidField "population" field "an integer") found.asI128

def requiredU32 (value : Value) (field : String) : Except GossipError UInt32 := do
  let raw ← requiredInt value field
  if 0 ≤ raw.val ∧ raw.val < 2 ^ 32 then .ok (UInt32.ofNat raw.val.toNat)
  else .error (.outOfRange field raw)

def requiredUsize (value : Value) (field : String) : Except GossipError Nat := do
  let raw ← requiredInt value field
  if 0 ≤ raw.val ∧ raw.val < USIZE then .ok raw.val.toNat else .error (.outOfRange field raw)

/-- `i128::try_from(n).unwrap_or(i128::MAX)`. -/
def intOfNat (n : Nat) : I128 := (I128.ofInt? n).getD ⟨2 ^ 127 - 1, by decide⟩

/-- Candidates in the order of their ids. -/
def toValue (p : Population) : Value :=
  let byId := BTreeMap.ofList (p.byIsland.values.flatMap BTreeMap.entries)
  .object [("islands", .int (intOfNat p.islands.toNat)), ("capacity", .int (intOfNat p.capacity)),
    ("candidates", .array (byId.values.map Candidate.toValue))]

section Digests

variable [Sha256]

/-- The bound is enforced on what was sent, not taken from it. -/
def fromValue (value : Value) : Except GossipError Population := do
  if value.asObject.isNone then .error (.notAnObject "population")
  let islands ← requiredU32 value "islands"
  let capacity ← requiredUsize value "capacity"
  let raw ← okOr (.missingField "population" "candidates") (value.get "candidates")
  let items ← okOr (.invalidField "population" "candidates" "an array") raw.asArray
  let candidates ← items.mapM Candidate.fromValue
  withCandidates islands capacity candidates

/-- Add a candidate if its score can be reproduced. -/
def ingest (p : Population) (candidate : Candidate) (rescore : Value → Option Int64) :
    Population × Bool :=
  match rescore candidate.artifact with
  | some observed => if observed = candidate.score then (p.add candidate, true) else (p, false)
  | none => (p, false)

/-- The value that is hashed for a digest: the sorted ids. -/
def digestValue (p : Population) : Value :=
  .array ((p.ids.insertionSort (· ≤ ·)).map .string)

def digest (p : Population) : String := p.digestValue.digest

end Digests

/-! ## The invariant -/

/-- What the readers of a population rely on. -/
structure Bounded [Sha256] (p : Population) : Prop where
  wf : p.WF
  size : ∀ bucket ∈ p.byIsland.values, bucket.size ≤ p.capacity
  islands : 1 ≤ p.islands
  capacity : 1 ≤ p.capacity
  fits : p.capacity < USIZE

theorem size_pruneBucket (capacity : Nat) (bucket : BTreeMap String Candidate) :
    (pruneBucket capacity bucket).size ≤ capacity := by
  unfold pruneBucket
  by_cases hfits : bucket.size ≤ capacity
  · rw [if_pos hfits]
    exact hfits
  rw [if_neg hfits]
  dsimp only
  set kept := ((ranked bucket).take capacity).map fun rank => (ofLex rank).2
  have hlength : kept.length ≤ capacity := by
    rw [List.length_map, List.length_take]
    exact Nat.min_le_left _ _
  have hsub : (bucket.retain fun id _ => decide (id ∈ kept)).keys ⊆ kept := by
    intro id hid
    obtain ⟨c, hc⟩ := BTreeMap.mem_keys.mp hid
    exact of_decide_eq_true (BTreeMap.get?_retain.mp hc).2
  have hkeys := (List.subperm_of_subset (BTreeMap.nodup_keys _) hsub).length_le
  rw [BTreeMap.keys, List.length_map] at hkeys
  exact hkeys.trans hlength

theorem size_prune (p : Population) :
    ∀ bucket ∈ p.prune.byIsland.values, bucket.size ≤ p.capacity := by
  intro bucket hbucket
  simp only [prune, BTreeMap.values, BTreeMap.mapValues, List.map_map, List.mem_map,
    Function.comp_apply] at hbucket
  obtain ⟨e, -, rfl⟩ := hbucket
  exact size_pruneBucket _ _

section Invariant

variable [Sha256]

theorem wf_empty (islands : UInt32) (capacity : Nat) :
    WF { islands, capacity, byIsland := .empty } := (Collects.empty islands capacity).wf

variable {capacity : Nat} {islands : UInt32} {p q : Population} {field : String} {value : Value}

theorem bounded_empty (hislands : 1 ≤ islands) (hcapacity : 1 ≤ capacity) (hfits : capacity < USIZE) :
    Bounded { islands, capacity, byIsland := .empty } where
  wf := wf_empty islands capacity
  size := by
    intro bucket hbucket
    cases hbucket
  islands := hislands
  capacity := hcapacity
  fits := hfits

theorem WF.foldl_insert (h : p.WF) (candidates : List Candidate) :
    (candidates.foldl Population.insert p).WF := by
  induction candidates generalizing p with
  | nil => exact h
  | cons c rest ih => exact ih (h.insert c)

/-- Pruned after any insertions, the bound holds again. -/
theorem bounded_prune (h : p.WF) (hislands : 1 ≤ p.islands) (hcapacity : 1 ≤ p.capacity)
    (hfits : p.capacity < USIZE) : p.prune.Bounded where
  wf := h.prune
  size := size_prune p
  islands := hislands
  capacity := hcapacity
  fits := hfits

omit [Sha256] in
theorem new_eq_ok (h : new islands capacity = .ok p) :
    1 ≤ islands ∧ 1 ≤ capacity ∧ p = { islands, capacity, byIsland := .empty } := by
  unfold new at h
  by_cases hislands : islands < 1
  · simp [hislands] at h
  rw [if_neg hislands] at h
  by_cases hcapacity : capacity < 1
  · simp [hcapacity] at h
  rw [if_neg hcapacity] at h
  cases h
  exact ⟨UInt32.not_lt.mp hislands, Nat.not_lt.mp hcapacity, rfl⟩

omit [Sha256] in
theorem new_of_pos (hislands : 1 ≤ islands) (hcapacity : 1 ≤ capacity) :
    new islands capacity = .ok { islands, capacity, byIsland := .empty } := by
  unfold new
  rw [if_neg (UInt32.not_lt.mpr hislands), if_neg (Nat.not_lt.mpr hcapacity)]

theorem bounded_withCandidates {candidates : List Candidate} (hfits : capacity < USIZE)
    (h : withCandidates islands capacity candidates = .ok p) : p.Bounded := by
  simp only [withCandidates, bind_eq_ok] at h
  obtain ⟨start, hstart, h⟩ := h
  cases h
  obtain ⟨hislands, hcapacity, rfl⟩ := new_eq_ok hstart
  obtain ⟨hsame, hsame'⟩ := foldl_insert_bounds candidates
    { islands, capacity, byIsland := .empty }
  apply bounded_prune ((wf_empty islands capacity).foldl_insert candidates)
  · rw [hsame]
    exact hislands
  · rw [hsame']
    exact hcapacity
  · rw [hsame']
    exact hfits

theorem Bounded.add (h : p.Bounded) (c : Candidate) : (p.add c).Bounded :=
  bounded_prune (h.wf.insert c) h.islands h.capacity h.fits

theorem Bounded.merge {r : Population} (hp : p.Bounded) (hq : q.Bounded) (h : p.merge q = .ok r) :
    r.Bounded := by
  unfold Population.merge at h
  by_cases hislands : q.islands ≠ p.islands
  · simp [hislands] at h
  rw [if_neg hislands] at h
  cases h
  obtain ⟨hp₁, hp₂⟩ := foldl_insert_bounds p.iter
    { islands := p.islands, capacity := min p.capacity q.capacity, byIsland := .empty }
  obtain ⟨hq₁, hq₂⟩ := foldl_insert_bounds q.iter (p.iter.foldl Population.insert
    { islands := p.islands, capacity := min p.capacity q.capacity, byIsland := .empty })
  apply bounded_prune (((wf_empty _ _).foldl_insert p.iter).foldl_insert q.iter)
  · rw [hq₁, hp₁]
    exact hp.islands
  · rw [hq₂, hp₂]
    exact Nat.le_min.mpr ⟨hp.capacity, hq.capacity⟩
  · rw [hq₂, hp₂]
    exact (Nat.min_le_left _ _).trans_lt hp.fits

theorem Bounded.ingest (h : p.Bounded) (c : Candidate) (rescore : Value → Option Int64) :
    (p.ingest c rescore).1.Bounded := by
  unfold Population.ingest
  cases rescore c.artifact with
  | none => exact h
  | some observed =>
    dsimp only
    split_ifs
    · exact h.add c
    · exact h

omit [Sha256] in
theorem requiredUsize_lt {n : Nat} (h : requiredUsize value field = .ok n) : n < USIZE := by
  unfold requiredUsize at h
  rw [bind_eq_ok] at h
  obtain ⟨raw, -, h⟩ := h
  by_cases hrange : 0 ≤ raw.val ∧ raw.val < USIZE
  · rw [if_pos hrange] at h
    cases h
    omega
  · simp [hrange] at h

/-- Whatever was sent, what is read keeps the bounds. -/
theorem bounded_fromValue (h : fromValue value = .ok p) : p.Bounded := by
  unfold fromValue at h
  cases hobject : value.asObject.isNone with
  | true => simp [hobject, bind, Except.bind] at h
  | false =>
    simp only [hobject, Bool.false_eq_true, if_false, bind_eq_ok] at h
    obtain ⟨islands, -, capacity, hcapacity, raw, -, items, -, candidates, -, h⟩ := h
    exact bounded_withCandidates (requiredUsize_lt hcapacity) h

/-- The populations the interface can build. -/
inductive Reachable : Population → Prop
  | default : Reachable default
  | new {islands : UInt32} {capacity : Nat} {p : Population} (hfits : capacity < USIZE)
      (h : new islands capacity = .ok p) : Reachable p
  | withCandidates {islands : UInt32} {capacity : Nat} {candidates : List Candidate}
      {p : Population} (hfits : capacity < USIZE)
      (h : withCandidates islands capacity candidates = .ok p) : Reachable p
  | add {p : Population} (h : Reachable p) (c : Candidate) : Reachable (p.add c)
  | merge {p q r : Population} (hp : Reachable p) (hq : Reachable q)
      (h : p.merge q = .ok r) : Reachable r
  | ingest {p : Population} (h : Reachable p) (c : Candidate)
      (rescore : Value → Option Int64) : Reachable (p.ingest c rescore).1
  | fromValue {value : Value} {p : Population} (h : fromValue value = .ok p) : Reachable p

theorem Reachable.bounded (h : Reachable p) : p.Bounded := by
  induction h with
  | default => exact bounded_empty (by decide) (by decide) (by decide)
  | new hfits h =>
    obtain ⟨hislands, hcapacity, rfl⟩ := new_eq_ok h
    exact bounded_empty hislands hcapacity hfits
  | withCandidates hfits h => exact bounded_withCandidates hfits h
  | add _ c ih => exact ih.add c
  | merge _ _ h ihp ihq => exact ihp.merge ihq h
  | ingest _ c rescore ih => exact ih.ingest c rescore
  | fromValue h => exact bounded_fromValue h

/-! ## What a bounded population holds -/

/-- A bounded population retains all it holds. -/
theorem Bounded.retains (h : p.Bounded) (hdistinct : Distinct p.iter) :
    p.Retains p.iter where
  wf := h.wf
  mem_iter := by
    intro c
    constructor
    · intro hc
      have hheld := h.wf.mem_iter.mp hc
      refine ⟨⟨hc, fun b hb hrank => ?_⟩, ?_⟩
      · have hid := id_eq_of_rank_eq hrank
        have hheld' := h.wf.mem_iter.mp hb
        rw [hid, hdistinct.island_eq p.islands hb hc hid, hheld] at hheld'
        cases hheld'
        exact le_rfl
      · obtain ⟨bucket, hbucket, hget⟩ := Option.bind_eq_some_iff.mp hheld
        have hsize := h.size bucket (mem_values.mpr ⟨_, hbucket⟩)
        have hcard : (ranksIn Candidate.rank (fun c => c.island p.islands) p.iter
            (c.island p.islands)).card ≤ p.capacity := by
          rw [← bucketRanks_eq h.wf hbucket]
          apply (List.toFinset_card_le _).trans
          rw [List.length_map]
          exact hsize
        rw [topK_of_card_le hcard, mem_ranksIn]
        exact ⟨c, hc, rfl, rfl⟩
    · exact fun hc => hc.1.1

/-- Candidates of one population with one id are one candidate. -/
theorem WF.eq_of_id_eq (h : p.WF) (hdistinct : Distinct p.iter) {c d : Candidate} (hc : c ∈ p.iter)
    (hd : d ∈ p.iter) (hid : c.id = d.id) : c = d := by
  have hheld := h.mem_iter.mp hc
  have hheld' := h.mem_iter.mp hd
  rw [← hid, ← hdistinct.island_eq p.islands hc hd hid, hheld] at hheld'
  exact Option.some_inj.mp hheld'

/-- The pairs of a population: every candidate under its id. -/
theorem WF.flatMap_entries (h : p.WF) :
    p.byIsland.values.flatMap BTreeMap.entries = p.iter.map fun c => (c.id, c) := by
  unfold iter
  rw [List.map_flatMap]
  apply List.flatMap_congr
  intro bucket hbucket
  obtain ⟨i, hi⟩ := mem_values.mp hbucket
  rw [BTreeMap.values, List.map_map, ← List.map_id bucket.entries, List.map_map]
  apply List.map_congr_left
  rintro ⟨id, c⟩ hentry
  have hheld : p.holding i id = some c := by
    rw [holding, hi]
    exact BTreeMap.get?_eq_some_iff.mpr (by simpa using hentry)
  obtain ⟨-, rfl⟩ := h i id c hheld
  rfl

theorem WF.ids_eq (h : p.WF) : p.ids = p.iter.map Candidate.id := by
  have hpairs := congrArg (List.map Prod.fst) h.flatMap_entries
  rw [List.map_map, List.map_flatMap] at hpairs
  exact hpairs

/-- Every id is there once. -/
theorem WF.nodup_ids (h : p.WF) (hdistinct : Distinct p.iter) : p.ids.Nodup := by
  rw [h.ids_eq]
  exact h.nodup_iter.map_on fun c hc d hd hid => h.eq_of_id_eq hdistinct hc hd hid

/-! ## The round trip -/

omit [Sha256] in
theorem requiredInt_of_get {n : I128} (h : value.get field = some (.int n)) :
    requiredInt value field = .ok n := by
  rw [requiredInt, h]
  rfl

omit [Sha256] in
theorem intOfNat_val {n : Nat} (h : n < 2 ^ 64) : (intOfNat n).val = n := by
  unfold intOfNat I128.ofInt?
  rw [dif_pos (by omega)]
  rfl

omit [Sha256] in
theorem requiredU32_of_get {n : UInt32} (h : value.get field = some (.int (intOfNat n.toNat))) :
    requiredU32 value field = .ok n := by
  have hlt := n.toNat_lt
  have hval := intOfNat_val (n := n.toNat) (by omega)
  simp only [requiredU32, requiredInt_of_get h, bind, Except.bind, hval]
  rw [if_pos (by omega), Int.toNat_natCast, UInt32.ofNat_toNat]

omit [Sha256] in
theorem requiredUsize_of_get {n : Nat} (hfits : n < USIZE)
    (h : value.get field = some (.int (intOfNat n))) : requiredUsize value field = .ok n := by
  have hval := intOfNat_val hfits
  have hfits' : (n : Int) < (USIZE : Nat) := by exact_mod_cast hfits
  simp only [requiredUsize, requiredInt_of_get h, bind, Except.bind, hval]
  rw [if_pos ⟨Int.natCast_nonneg _, hfits'⟩, Int.toNat_natCast]

omit [Sha256] in
theorem mem_bucket_values {bucket : BTreeMap String Candidate} {c : Candidate} :
    c ∈ bucket.values ↔ ∃ id, bucket.get? id = some c := by
  simp [BTreeMap.values, BTreeMap.get?_eq_some_iff]

/-- What is sent is read back. -/
theorem Bounded.fromValue_toValue (h : p.Bounded) (hdistinct : Distinct p.iter) :
    ∃ q, fromValue p.toValue = .ok q ∧ (∀ c, c ∈ q.iter ↔ c ∈ p.iter) ∧ (q == p) = true ∧
      (p == q) = true ∧ q.islands = p.islands ∧ q.capacity = p.capacity := by
  set candidates := (BTreeMap.ofList (p.byIsland.values.flatMap BTreeMap.entries)).values
  have hnodup : ((p.byIsland.values.flatMap BTreeMap.entries).map Prod.fst).Nodup := by
    rw [List.map_flatMap]
    exact h.wf.nodup_ids hdistinct
  have hmem : ∀ c, c ∈ candidates ↔ c ∈ p.iter := by
    intro c
    rw [mem_bucket_values]
    constructor
    · rintro ⟨id, hget⟩
      rw [BTreeMap.get?_ofList_eq_some_iff hnodup, h.wf.flatMap_entries, List.mem_map] at hget
      obtain ⟨d, hd, heq⟩ := hget
      cases heq
      exact hd
    · intro hc
      refine ⟨c.id, ?_⟩
      rw [BTreeMap.get?_ofList_eq_some_iff hnodup, h.wf.flatMap_entries]
      exact List.mem_map_of_mem hc
  have hislands : requiredU32 p.toValue "islands" = .ok p.islands :=
    requiredU32_of_get (by simp [toValue, Value.get_object, BTreeMap.lookupEntry])
  have hcapacity : requiredUsize p.toValue "capacity" = .ok p.capacity :=
    requiredUsize_of_get h.fits (by simp [toValue, Value.get_object, BTreeMap.lookupEntry])
  have hget : p.toValue.get "candidates" =
      some (.array (candidates.map Candidate.toValue)) := by
    simp [toValue, Value.get_object, BTreeMap.lookupEntry, candidates]
  have hobject : p.toValue.asObject.isNone = false :=
    Option.isNone_eq_false_iff.mpr (asObject_object _)
  have hread : (candidates.map Candidate.toValue).mapM Candidate.fromValue = .ok candidates :=
    mapM_map_eq_ok fun c _ => c.fromValue_toValue
  obtain ⟨q, hq⟩ : ∃ q, withCandidates p.islands p.capacity candidates = .ok q := by
    unfold withCandidates
    rw [new_of_pos h.islands h.capacity]
    exact ⟨_, rfl⟩
  have hbuilt : fromValue p.toValue = .ok q := by
    unfold fromValue
    rw [hobject]
    refine bind_eq_ok.mpr ⟨p.islands, hislands, bind_eq_ok.mpr ⟨p.capacity, hcapacity, ?_⟩⟩
    refine bind_eq_ok.mpr ⟨_, okOr_eq_ok.mpr hget, ?_⟩
    refine bind_eq_ok.mpr ⟨_, okOr_eq_ok.mpr (Value.asArray_array _), ?_⟩
    exact bind_eq_ok.mpr ⟨candidates, hread, hq⟩
  have hdistinct' : Distinct candidates := hdistinct.mono fun c hc => (hmem c).mp hc
  have hretains := ((Script.withCandidates p.islands p.capacity candidates).retains hq
    hdistinct').1.congr hdistinct hmem
  have hbounds : q.islands = p.islands ∧ q.capacity = p.capacity := by
    unfold withCandidates at hq
    rw [new_of_pos h.islands h.capacity] at hq
    cases hq
    exact foldl_insert_bounds candidates _
  obtain ⟨hsame, hbeq⟩ := hretains.beq (h.retains hdistinct) hdistinct hbounds.1 hbounds.2
  obtain ⟨-, hbeq'⟩ := (h.retains hdistinct).beq hretains hdistinct hbounds.1.symm hbounds.2.symm
  exact ⟨q, hbuilt, hsame, hbeq, hbeq', hbounds⟩

/-- The invariant of every population that can be built, and the round trip. -/
theorem reachable_round_trip {p : Population} (h : Reachable p) :
    (∀ i bucket, p.byIsland.get? i = some bucket → bucket.size ≤ p.capacity ∧
      ∀ id c, bucket.get? id = some c → c.id = id ∧ c.island p.islands = i) ∧
    (NoCollision (IdTexts p.iter) → p.ids.Nodup ∧
      ∃ q, fromValue p.toValue = .ok q ∧ (q == p) = true ∧ (p == q) = true ∧
        q.islands = p.islands ∧ q.capacity = p.capacity) := by
  have hbounded := h.bounded
  constructor
  · intro i bucket hbucket
    refine ⟨hbounded.size bucket (mem_values.mpr ⟨i, hbucket⟩), fun id c hget => ?_⟩
    have hheld : p.holding i id = some c := by
      rw [holding, hbucket]
      exact hget
    exact (hbounded.wf i id c hheld).symm
  · intro hcoll
    have hdistinct := distinct_of_noCollision hcoll
    obtain ⟨q, hq, -, hrest⟩ := hbounded.fromValue_toValue hdistinct
    exact ⟨hbounded.wf.nodup_ids hdistinct, q, hq, hrest⟩

/-! ## Equal digests -/

/-- Populations that compare equal hold the same candidates. -/
theorem same_of_beq (hp : p.WF) (h : (p == q) = true) : ∀ c, c ∈ p.iter ↔ c ∈ q.iter := by
  change p.beq q = true at h
  unfold Population.beq at h
  rw [Bool.and_eq_true, beq_iff_eq, List.all_eq_true, len_eq, len_eq] at h
  have hsub : p.iter ⊆ q.iter := by
    intro c hc
    obtain ⟨bucket, hbucket, hget⟩ := Option.bind_eq_some_iff.mp (hp.mem_iter.mp hc)
    have hall := h.2 bucket (mem_values.mpr ⟨_, hbucket⟩)
    rw [List.all_eq_true] at hall
    have hfound := hall (c.id, c) (BTreeMap.get?_eq_some_iff.mp hget)
    rw [beq_iff_eq] at hfound
    obtain ⟨other, hother, hget'⟩ := List.exists_of_findSome?_eq_some hfound
    obtain ⟨i, hi⟩ := mem_values.mp hother
    exact exists_holding_of_mem_iter.mpr ⟨i, c.id, by rw [holding, hi]; exact hget'⟩
  have hperm := (List.subperm_of_subset hp.nodup_iter hsub).perm_of_length_le h.1.ge
  exact fun c => hperm.mem_iff

/-- The texts a comparison of digests hashes. -/
def DigestTexts (p q : Population) (text : String) : Prop :=
  IdTexts (p.iter ++ q.iter) text ∨ text = p.digestValue.canonicalString ∨
    text = q.digestValue.canonicalString

/-- Equal digests are of equal ids. -/
theorem digest_eq_iff (hcoll : NoCollision (DigestTexts p q)) :
    p.digest = q.digest ↔ p.ids.Perm q.ids := by
  constructor
  · intro h
    have htext := hcoll _ _ (.inr (.inl rfl)) (.inr (.inr rfl)) h
    have hvalue := Value.canonicalString_injective htext
    have hitems := congrArg Value.asArray hvalue
    rw [digestValue, digestValue, Value.asArray_array, Value.asArray_array,
      Option.some_inj] at hitems
    have hsorted := List.map_injective_iff.mpr (fun a b hab => by simpa using hab) hitems
    exact (List.perm_insertionSort _ _).symm.trans
      (hsorted ▸ List.perm_insertionSort (· ≤ ·) q.ids)
  · intro h
    have hsorted : p.ids.insertionSort (· ≤ ·) = q.ids.insertionSort (· ≤ ·) :=
      List.Perm.eq_of_pairwise (fun a b _ _ hab hba => le_antisymm hab hba)
        (List.pairwise_insertionSort _ _) (List.pairwise_insertionSort _ _)
        (((List.perm_insertionSort _ _).trans h).trans (List.perm_insertionSort _ _).symm)
    rw [digest, digest, digestValue, digestValue, hsorted]

/-- A merge that changes neither side is of populations that hold the same. -/
theorem merge_unchanged_iff (hp : p.Bounded) (hq : q.Bounded)
    (hdistinct : Distinct (p.iter ++ q.iter)) (hislands : p.islands = q.islands)
    (hcapacity : p.capacity = q.capacity) :
    ((∃ pq, p.merge q = .ok pq ∧ (pq == p) = true) ∧ ∃ qp, q.merge p = .ok qp ∧ (qp == q) = true) ↔
      ∀ c, c ∈ p.iter ↔ c ∈ q.iter := by
  have hdp := hdistinct.mono (List.subset_append_left _ _)
  have hdq := hdistinct.mono (List.subset_append_right _ _)
  have hrp := hp.retains hdp
  have hrq := hq.retains hdq
  constructor
  · rintro ⟨⟨pq, hpq, hleft⟩, qp, hqp, hright⟩
    obtain ⟨pq', qp', hpq', hqp', hsame⟩ := hrp.merge_comm hrq hdistinct hislands
    rw [hpq] at hpq'
    rw [hqp] at hqp'
    cases hpq'
    cases hqp'
    intro c
    rw [← same_of_beq (hp.merge hq hpq).wf hleft, ← same_of_beq (hq.merge hp hqp).wf hright]
    exact same_of_beq (hp.merge hq hpq).wf hsame c
  · intro hsame
    have hone : ∀ {a b : Population}, a.Bounded → b.Bounded → a.Retains a.iter →
        b.Retains b.iter → Distinct a.iter → a.islands = b.islands → a.capacity = b.capacity →
        (∀ c, c ∈ a.iter ↔ c ∈ b.iter) → ∃ ab, a.merge b = .ok ab ∧ (ab == a) = true := by
      intro a b ha hb hra hrb hda hi hc hab
      obtain ⟨ab, hmerge⟩ := merge_ok hi
      obtain ⟨-, habi, habc⟩ := merge_bounds hmerge
      have hmem : ∀ c, c ∈ a.iter ++ b.iter ↔ c ∈ a.iter := by
        intro c
        rw [List.mem_append, ← hab c, or_self]
      have hdab : Distinct (a.iter ++ b.iter) := hda.mono fun c => (hmem c).mp
      have hrab := (hra.merge hrb hdab hmerge).congr hda hmem
      rw [← hc, min_self] at habc
      exact ⟨ab, hmerge, (hrab.beq hra hda habi habc).2⟩
    exact ⟨hone hp hq hrp hrq hdp hislands hcapacity hsame,
      hone hq hp hrq hrp hdq hislands.symm hcapacity.symm fun c => (hsame c).symm⟩

/-- Equal digests leave nothing to merge exactly when populations that hold the
same ids have them from the same origins. -/
theorem digest_gates_iff {p q : Population} (hp : Reachable p) (hq : Reachable q)
    (hislands : p.islands = q.islands) (hcapacity : p.capacity = q.capacity)
    (hcoll : NoCollision (DigestTexts p q)) :
    (p.digest = q.digest →
      (∃ pq, p.merge q = .ok pq ∧ (pq == p) = true) ∧
        ∃ qp, q.merge p = .ok qp ∧ (qp == q) = true) ↔
    ((∀ id, id ∈ p.ids ↔ id ∈ q.ids) →
      ∀ c ∈ p.iter, ∀ d ∈ q.iter, c.id = d.id → c.origin = d.origin) := by
  have hdistinct : Distinct (p.iter ++ q.iter) :=
    distinct_of_noCollision (hcoll.mono fun _ h => .inl h)
  have hdp := hdistinct.mono (List.subset_append_left _ _)
  have hdq := hdistinct.mono (List.subset_append_right _ _)
  have hwp := hp.bounded.wf
  have hwq := hq.bounded.wf
  rw [merge_unchanged_iff hp.bounded hq.bounded hdistinct hislands hcapacity, digest_eq_iff hcoll,
    List.perm_ext_iff_of_nodup (hwp.nodup_ids hdp) (hwq.nodup_ids hdq)]
  apply imp_congr_right
  intro hids
  constructor
  · intro hsame c hc d hd hid
    rw [hwp.eq_of_id_eq hdp hc ((hsame d).mpr hd) hid]
  · have hone : ∀ {a b : Population}, a.WF → b.WF → (∀ c ∈ a.iter, c ∈ p.iter ++ q.iter) →
        (∀ c ∈ b.iter, c ∈ p.iter ++ q.iter) → (∀ id, id ∈ a.ids → id ∈ b.ids) →
        (∀ c ∈ a.iter, ∀ d ∈ b.iter, c.id = d.id → c.origin = d.origin) →
        ∀ c ∈ a.iter, c ∈ b.iter := by
      intro a b ha hb hsa hsb hab horigin c hc
      have hid : c.id ∈ b.ids := hab _ (ha.ids_eq ▸ List.mem_map_of_mem hc)
      rw [hb.ids_eq] at hid
      obtain ⟨d, hd, hdc⟩ := List.mem_map.mp hid
      have hcopy := hdistinct c (hsa c hc) d (hsb d hd) hdc.symm
      rw [← horigin c hc d hd hdc.symm] at hcopy
      rw [hcopy] at hd
      exact hd
    intro horigin c
    exact ⟨hone hwp hwq (List.subset_append_left _ _) (List.subset_append_right _ _)
        (fun id => (hids id).mp) horigin c,
      hone hwq hwp (List.subset_append_right _ _) (List.subset_append_left _ _)
        (fun id => (hids id).mpr) (fun c hc d hd hid => (horigin d hd c hc hid.symm).symm) c⟩

end Invariant

/-! ## One candidate from two origins -/

/-- A hash of the length. -/
@[reducible] def lengthHash : Sha256 where
  hash data := digestOfNat data.size

section Samples

attribute [local instance] lengthHash

/-- A default population of one candidate. -/
def sampleFrom (origin : String) : Population := default.add (sampleCandidate 12 origin)

theorem reachable_sampleFrom (origin : String) : Reachable (sampleFrom origin) :=
  .add .default _

theorem iter_sampleFrom (origin : String) :
    (sampleFrom origin).iter ⊆ [sampleCandidate 12 origin] := by
  have hempty : default.Retains [] :=
    ⟨wf_empty _ _, fun c => by
      simp [default, iter, BTreeMap.values, BTreeMap.empty, Retained, Least]⟩
  refine (hempty.add (c := sampleCandidate 12 origin) ?_).subset
  intro a ha b hb _
  rw [List.mem_singleton.mp ha, List.mem_singleton.mp hb]

theorem noCollision_sampleFrom (origin origin' : String) :
    NoCollision (DigestTexts (sampleFrom origin) (sampleFrom origin')) := by
  apply @noCollision_of_nodup _ [(sampleCandidate 12 "").idValue.canonicalString,
    (sampleFrom "").digestValue.canonicalString]
  · decide
  · have hids : ∀ origin, (sampleFrom origin).digestValue = (sampleFrom "").digestValue := by
      intro origin
      rfl
    rintro text (⟨c, hc, rfl⟩ | rfl | rfl)
    · rcases List.mem_append.mp hc with hc | hc
      · rw [List.mem_singleton.mp (iter_sampleFrom origin hc)]
        exact List.mem_cons_self
      · rw [List.mem_singleton.mp (iter_sampleFrom origin' hc)]
        exact List.mem_cons_self
    · rw [hids origin]
      exact List.mem_cons_of_mem _ List.mem_cons_self
    · rw [hids origin']
      exact List.mem_cons_of_mem _ List.mem_cons_self

theorem reachable_round_trip_sample : ∃ q, fromValue (sampleFrom "a").toValue = .ok q ∧
    (q == sampleFrom "a") = true ∧ (sampleFrom "a" == q) = true ∧
    q.islands = (sampleFrom "a").islands ∧ q.capacity = (sampleFrom "a").capacity :=
  ((reachable_round_trip (reachable_sampleFrom "a")).2
    ((noCollision_sampleFrom "a" "a").mono fun _ h =>
      .inl (h.imp fun _ hc => ⟨List.mem_append_left _ hc.1, hc.2⟩))).2

/-- Equal digests of populations that differ, and a merge that changes one. -/
theorem not_digest_gates : ∃ p q, Reachable p ∧ Reachable q ∧ p.islands = q.islands ∧
    p.capacity = q.capacity ∧ NoCollision (DigestTexts p q) ∧ p.digest = q.digest ∧
    ∃ qp, q.merge p = .ok qp ∧ (qp == q) = false := by
  have hchanged : ((sampleFrom "b").merge (sampleFrom "a")).toOption.map (· == sampleFrom "b") =
      some false := by decide
  obtain ⟨qp, hqp⟩ := merge_ok (p := sampleFrom "b") (q := sampleFrom "a") rfl
  rw [hqp] at hchanged
  exact ⟨sampleFrom "a", sampleFrom "b", reachable_sampleFrom "a", reachable_sampleFrom "b", rfl,
    rfl, noCollision_sampleFrom "a" "b", rfl, qp, hqp, Option.some_inj.mp hchanged⟩

/-- From one origin, nothing is left to merge. -/
theorem digest_gates_iff_sample :
    ∃ pq, (sampleFrom "a").merge (sampleFrom "a") = .ok pq ∧ (pq == sampleFrom "a") = true := by
  have horigin : ∀ c ∈ (sampleFrom "a").iter, c.origin = "a" := by
    intro c hc
    rw [List.mem_singleton.mp (iter_sampleFrom "a" hc)]
    rfl
  exact ((digest_gates_iff (reachable_sampleFrom "a") (reachable_sampleFrom "a") rfl rfl
    (noCollision_sampleFrom "a" "a")).mpr
    (fun _ c hc d hd _ => (horigin c hc).trans (horigin d hd).symm) rfl).1

end Samples

end Population

end Gossip

end Cairn.Ports
