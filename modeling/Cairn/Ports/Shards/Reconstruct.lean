import Cairn.Ports.Shards.Manifest
import Cairn.Verified.Items
import Mathlib.Data.List.Sort
import Mathlib.Data.List.Perm.Subperm

/-!
# Rebuilding the blob

`reconstruct` of `src/shards/mod.rs`. Every offered shard is checked against
the manifest before it is used (`sieve`); what is left are distinct shards of
the blob (`Sieved`), and any `data` of those give the blocks back, copied when
they are the data shards and solved for otherwise (`recover_spec`).
-/

namespace Cairn.Ports.Shards

open Cairn.Verified Cairn.Ports.Canonical Cairn.Ports.Crypto

/-- Insertion into a `BTreeSet<u8>`, given as the list it is iterated to. -/
def insertIndex (index : UInt8) : List UInt8 → List UInt8
  | [] => [index]
  | other :: rest =>
    if index < other then index :: other :: rest
    else if index = other then other :: rest
    else other :: insertIndex index rest

/-- What the loop over the offered shards collects. -/
structure Sieve where
  verified : List Shard
  rejected : List UInt8
  seen : List UInt8
  deriving DecidableEq, Repr

/-- The order of the sort key `(!is_data, index)`. -/
def SortsBefore (coding : Coding) (a b : Shard) : Prop :=
  (!coding.isData a.index) < (!coding.isData b.index) ∨
    (!coding.isData a.index) = (!coding.isData b.index) ∧ a.index ≤ b.index

instance (coding : Coding) : DecidableRel (SortsBefore coding) := fun a b => by
  unfold SortsBefore
  infer_instance

/-- What came back, and who lied on the way. -/
structure Reconstruction where
  data : List UInt8
  used : List UInt8
  rejected : List UInt8
  deriving DecidableEq, Repr

/-- The blocks, from as many verified shards as the coding has data shards:
copied when these are the data shards, solved for otherwise. -/
def recover (coding : Coding) (shardLen : Nat) (verified : List Shard) :
    Except ShardError (List (List UInt8)) :=
  let need := coding.data.toNat
  if (verified.all fun shard => coding.isData shard.index && decide (shard.index.toNat < need)) =
      true ∧ verified.length = need then
    pure ((verified.insertionSort fun a b => a.index ≤ b.index).map Shard.bytes)
  else do
    let rows ← verified.mapM fun shard => okOr (.invariant "no generator row for a verified shard")
      (generatorRow coding shard.index)
    let solution ← okOr (.invariant "a singular submatrix of an MDS generator") (invert rows)
    (solution.take need).mapM fun row => addTerms true "inverse wider than the shard set"
      (verified.map Shard.bytes) 0 row (List.replicate shardLen 0)

section Digest

variable [Sha256]

def sieve (manifest : Manifest) (state : Sieve) (shard : Shard) : Sieve :=
  if manifest.verifyShard shard then
    if shard.index ∈ state.seen then state
    else { state with
      verified := state.verified ++ [shard]
      seen := insertIndex shard.index state.seen }
  else { state with rejected := insertIndex shard.index state.rejected }

def reconstruct (manifest : Manifest) (offered : List Shard) :
    Except ShardError Reconstruction := do
  let coding := manifest.coding
  let need := coding.data.toNat
  let layout := manifest.layout
  let state := offered.foldl (sieve manifest) ⟨[], [], []⟩
  let sorted := state.verified.insertionSort (SortsBefore coding)
  ensure (need ≤ sorted.length) (.notEnoughShards sorted.length need state.rejected)
  let verified := sorted.take need
  let recovered ← recover coding layout.shardLen verified
  let data := recovered.flatten
  ensure (layout.total ≤ data.length)
    (.invariant "recovered shards are shorter than the declared blob")
  let data := data.take layout.total
  let actual := digestOf data
  ensure (manifest.describes actual) (.digestMismatch manifest.digest actual)
  let used := (verified.map Shard.index).insertionSort (· ≤ ·)
  pure ⟨data, used, state.rejected⟩

end Digest

/-! ## The sieve -/

/-- Strictly ascending indices. -/
def Ascending (indices : List UInt8) : Prop := indices.Pairwise (·.toNat < ·.toNat)

theorem mem_insertIndex {index i : UInt8} {set : List UInt8} :
    i ∈ insertIndex index set ↔ i = index ∨ i ∈ set := by
  induction set with
  | nil => simp [insertIndex]
  | cons other rest ih =>
    simp only [insertIndex]
    split_ifs with hlt heq
    · exact List.mem_cons
    · rw [heq, List.mem_cons]
      exact (or_iff_right_of_imp Or.inl).symm
    · rw [List.mem_cons, ih, List.mem_cons]
      exact or_left_comm

theorem Ascending.insertIndex {set : List UInt8} (h : Ascending set) (index : UInt8) :
    Ascending (insertIndex index set) := by
  induction set with
  | nil => exact List.pairwise_singleton _ _
  | cons other rest ih =>
    obtain ⟨hother, hrest⟩ := List.pairwise_cons.mp h
    simp only [Shards.insertIndex]
    split_ifs with hlt heq
    · rw [UInt8.lt_iff_toNat_lt] at hlt
      refine List.pairwise_cons.mpr ⟨fun i hi => ?_, h⟩
      rcases List.mem_cons.mp hi with rfl | hi
      · exact hlt
      · exact hlt.trans (hother i hi)
    · exact h
    · refine List.pairwise_cons.mpr ⟨fun i hi => ?_, ih hrest⟩
      rcases mem_insertIndex.mp hi with rfl | hi
      · rw [UInt8.lt_iff_toNat_lt] at hlt
        have : i.toNat ≠ other.toNat := fun h => heq (UInt8.toNat_inj.mp h)
        omega
      · exact hother i hi

section Digest

variable [Sha256]

/-- What the sieve holds of the shards it has seen. -/
structure Sieved (manifest : Manifest) (offered : List Shard) (state : Sieve) : Prop where
  verified : ∀ shard ∈ state.verified, shard ∈ offered ∧ manifest.verifyShard shard = true
  seen : ∀ index, index ∈ state.seen ↔ index ∈ state.verified.map Shard.index
  nodup : (state.verified.map Shard.index).Nodup
  covers : ∀ shard ∈ offered, manifest.verifyShard shard = true →
    shard.index ∈ state.verified.map Shard.index
  rejected : ∀ index, index ∈ state.rejected ↔
    ∃ shard ∈ offered, manifest.verifyShard shard = false ∧ shard.index = index
  ascending : Ascending state.rejected

theorem Sieved.step {manifest : Manifest} {offered : List Shard} {state : Sieve}
    (h : Sieved manifest offered state) (shard : Shard) :
    Sieved manifest (offered ++ [shard]) (sieve manifest state shard) := by
  have hold : ∀ s ∈ state.verified, s ∈ offered ++ [shard] ∧ manifest.verifyShard s = true :=
    fun s hs => ⟨List.mem_append_left _ (h.verified s hs).1, (h.verified s hs).2⟩
  unfold sieve
  split_ifs with hverify hseen
  · refine ⟨hold, h.seen, h.nodup, fun s hs hsv => ?_, fun index => ?_, h.ascending⟩
    · rcases List.mem_append.mp hs with hs | hs
      · exact h.covers s hs hsv
      · rw [List.mem_singleton.mp hs]
        exact (h.seen _).mp hseen
    · rw [h.rejected]
      simp [or_and_right, exists_or, hverify]
  · refine ⟨fun s hs => ?_, fun index => ?_, ?_, fun s hs hsv => ?_, fun index => ?_, h.ascending⟩
    · rcases List.mem_append.mp hs with hs | hs
      · exact hold s hs
      · rw [List.mem_singleton.mp hs]
        exact ⟨List.mem_append_right _ (List.mem_singleton_self _), hverify⟩
    · rw [mem_insertIndex, h.seen, List.map_append, List.mem_append, or_comm]
      simp
    · rw [List.map_append, List.nodup_append]
      refine ⟨h.nodup, List.nodup_singleton _, fun a ha b hb hab => hseen ?_⟩
      rw [List.map_singleton, List.mem_singleton] at hb
      rw [h.seen, ← hb, ← hab]
      exact ha
    · rw [List.map_append, List.mem_append]
      rcases List.mem_append.mp hs with hs | hs
      · exact .inl (h.covers s hs hsv)
      · exact .inr (List.mem_map_of_mem hs)
    · show index ∈ state.rejected ↔ _
      rw [h.rejected]
      simp [or_and_right, exists_or, hverify]
  · refine ⟨hold, h.seen, h.nodup, fun s hs hsv => ?_, fun index => ?_,
      h.ascending.insertIndex shard.index⟩
    · rcases List.mem_append.mp hs with hs | hs
      · exact h.covers s hs hsv
      · rw [List.mem_singleton.mp hs] at hsv
        exact absurd hsv hverify
    · rw [mem_insertIndex, h.rejected, Bool.not_eq_true] at *
      simp only [List.mem_append, List.mem_singleton, or_and_right, exists_or, exists_eq_left,
        hverify, true_and]
      rw [or_comm, eq_comm (a := index)]

theorem sieved (manifest : Manifest) (offered : List Shard) :
    Sieved manifest offered (offered.foldl (sieve manifest) ⟨[], [], []⟩) := by
  induction offered using List.reverseRecOn with
  | nil => exact ⟨by simp, by simp, List.nodup_nil, by simp, by simp, List.Pairwise.nil⟩
  | append_singleton offered shard ih =>
    rw [List.foldl_append]
    exact ih.step shard

end Digest

/-! ## The blocks -/

/-- The blocks a blob is cut into. -/
def blocks (data : List UInt8) (layout : Layout) : List (List UInt8) :=
  (List.range layout.coding.data.toNat).map (dataShard data layout.shardLen)

theorem getD_flatten {α : Type} {d : α} {len p : Nat} (hp : p < len) :
    ∀ {xs : List (List α)} (j : Nat), (∀ x ∈ xs, x.length = len) →
      xs.flatten.getD (j * len + p) d = (xs.getD j []).getD p d
  | [], j, _ => by simp
  | x :: xs, 0, h => by
      have hx : x.length = len := h x List.mem_cons_self
      rw [List.flatten_cons, Nat.zero_mul, Nat.zero_add, List.getD_append _ _ _ _ (by omega)]
      rfl
  | x :: xs, j + 1, h => by
      have hx : x.length = len := h x List.mem_cons_self
      have hle : len ≤ (j + 1) * len + p := by
        rw [Nat.add_mul]
        omega
      rw [List.flatten_cons, List.getD_append_right _ _ _ _ (by omega), hx,
        show (j + 1) * len + p - len = j * len + p by rw [Nat.add_mul]; omega,
        getD_flatten hp j fun y hy => h y (List.mem_cons_of_mem x hy)]
      rfl

theorem length_flatten_blocks (data : List UInt8) (layout : Layout) :
    (blocks data layout).flatten.length = layout.coding.data.toNat * layout.shardLen := by
  have hmap : (blocks data layout).map List.length =
      List.replicate layout.coding.data.toNat layout.shardLen := by
    rw [blocks, List.map_map, List.eq_replicate_iff]
    refine ⟨by rw [List.length_map, List.length_range], fun n hn => ?_⟩
    obtain ⟨j, -, rfl⟩ := List.mem_map.mp hn
    exact length_dataShard _ _ _
  rw [List.length_flatten, hmap, List.sum_replicate, smul_eq_mul]

variable {data : List UInt8} {layout : Layout} {shards : List Shard}

/-- The blocks give the blob back, once the padding is cut off. -/
theorem take_flatten_blocks (htotal : layout.total = data.length) :
    (blocks data layout).flatten.take layout.total = data := by
  have hle := layout.total_le
  have hlen := length_flatten_blocks data layout
  refine eq_of_getD (by rw [List.length_take]; omega) htotal.symm fun q hq => ?_
  have hpos : 0 < layout.shardLen := by
    refine Nat.pos_of_ne_zero fun hzero => ?_
    rw [hzero, Nat.mul_zero] at hle
    omega
  have hdiv := Nat.div_add_mod' q layout.shardLen
  have hj : q / layout.shardLen < layout.coding.data.toNat :=
    (Nat.div_lt_iff_lt_mul hpos).mpr (by omega)
  have hall : ∀ x ∈ blocks data layout, x.length = layout.shardLen := by
    intro x hx
    obtain ⟨j, -, rfl⟩ := List.mem_map.mp hx
    exact length_dataShard _ _ _
  have hget : (blocks data layout).getD (q / layout.shardLen) [] =
      dataShard data layout.shardLen (q / layout.shardLen) := by
    simp [blocks, List.getD_eq_getElem?_getD, hj]
  rw [List.getD_eq_getElem?_getD, List.getElem?_take, if_pos hq, ← List.getD_eq_getElem?_getD, ← hdiv,
    getD_flatten (Nat.mod_lt _ hpos) _ hall, hget, getD_dataShard data (Nat.mod_lt _ hpos)]

/-- Distinct indices below their number, sorted, count up from zero. -/
theorem toNat_sorted {indices : List UInt8} (hnodup : indices.Nodup)
    (hlt : ∀ index ∈ indices, index.toNat < indices.length)
    (hsorted : indices.Pairwise (· ≤ ·)) :
    indices.map UInt8.toNat = List.range indices.length := by
  have hnodup' : (indices.map UInt8.toNat).Nodup :=
    hnodup.map fun a b h => UInt8.toNat_inj.mp h
  have hsub : indices.map UInt8.toNat ⊆ List.range indices.length := by
    intro n hn
    obtain ⟨index, hmem, rfl⟩ := List.mem_map.mp hn
    exact List.mem_range.mpr (hlt index hmem)
  have hperm : (indices.map UInt8.toNat).Perm (List.range indices.length) :=
    (List.subperm_of_subset hnodup' hsub).perm_of_length_le (by simp)
  have hascending : (indices.map UInt8.toNat).Pairwise (· ≤ ·) :=
    List.pairwise_map.mpr (hsorted.imp fun h => UInt8.le_iff_toNat_le.mp h)
  exact hperm.eq_of_sortedLE hascending.sortedLE List.pairwise_le_range.sortedLE

theorem mapM_okOr {ε α β : Type} (error : ε) {f : α → Option β} : ∀ {l : List α} {bs : List β},
    l.mapM f = some bs → l.mapM (fun a => okOr error (f a)) = .ok bs
  | [], bs, h => by
      rw [List.mapM_nil, Option.pure_def, Option.some.injEq] at h
      rw [← h]
      rfl
  | a :: l, bs, h => by
      rw [List.mapM_cons, Option.bind_eq_bind, Option.bind_eq_some_iff] at h
      obtain ⟨b, hb, h⟩ := h
      rw [Option.bind_eq_bind, Option.bind_eq_some_iff] at h
      obtain ⟨bs', hbs, h⟩ := h
      rw [Option.pure_def, Option.some.injEq] at h
      rw [List.mapM_cons, hb, mapM_okOr error hbs, ← h]
      rfl

instance : Std.Total (α := Shard) (fun a b => a.index ≤ b.index) :=
  ⟨fun a b => UInt8.le_total a.index b.index⟩

instance : IsTrans Shard (fun a b => a.index ≤ b.index) := ⟨fun _ _ _ => UInt8.le_trans⟩

/-- The data shards themselves, in order, are the blocks. -/
theorem map_bytes_sorted (hshards : ∀ shard ∈ shards, IsShard data layout shard)
    (hnodup : (shards.map Shard.index).Nodup) (hlength : shards.length = layout.coding.data.toNat)
    (hdata : ∀ shard ∈ shards, shard.index.toNat < layout.coding.data.toNat) :
    (shards.insertionSort fun a b => a.index ≤ b.index).map Shard.bytes = blocks data layout := by
  have hperm := List.perm_insertionSort (fun a b : Shard => a.index ≤ b.index) shards
  have hpairwise := List.pairwise_insertionSort (fun a b : Shard => a.index ≤ b.index) shards
  generalize hsorted : shards.insertionSort (fun a b => a.index ≤ b.index) = sorted at *
  have hlen : sorted.length = layout.coding.data.toNat := hperm.length_eq.trans hlength
  have hcount := toNat_sorted (((hperm.map Shard.index).nodup_iff).mpr hnodup)
    (by
      intro index hmem
      obtain ⟨shard, hshard, rfl⟩ := List.mem_map.mp hmem
      rw [List.length_map, hlen]
      exact hdata shard (hperm.mem_iff.mp hshard))
    (List.pairwise_map.mpr hpairwise)
  refine List.ext_getElem (by rw [List.length_map, blocks, List.length_map, List.length_range, hlen])
    fun i hi _ => ?_
  rw [List.length_map] at hi
  have hindex : (sorted[i]).index.toNat = i := by
    have := congrArg (·[i]?) hcount
    simpa [hi] using this
  have hshard := hshards _ (hperm.mem_iff.mp (List.getElem_mem hi))
  rw [List.getElem_map]
  simp only [blocks, List.getElem_map, List.getElem_range]
  refine eq_of_getD hshard.length (length_dataShard _ _ _) fun p hp => Gf.Elem.of_inj ?_
  rw [hshard.bytes p hp, sum_coefficient_data (by omega), hindex, getD_dataShard data hp, block]

/-- Any distinct shards, as many as there are blocks, solve for the blocks. -/
theorem mapM_addTerms_inverse (hshards : ∀ shard ∈ shards, IsShard data layout shard)
    (hlength : shards.length = layout.coding.data.toNat) (what : String)
    {inverse : List (List UInt8)} (hsquare : Elimination.Square layout.coding.data.toNat inverse)
    (hundo : ∀ x : Nat → Gf.Elem, ∀ i < layout.coding.data.toNat,
      dot layout.coding.data.toNat (inverse.getD i [])
        (fun j => ∑ column ∈ Finset.range layout.coding.data.toNat,
          coefficient layout.coding ((shards.map Shard.index).getD j 0) column * x column) = x i) :
    inverse.mapM (fun row => addTerms true what (shards.map Shard.bytes) 0 row
      (List.replicate layout.shardLen 0)) = .ok (blocks data layout) := by
  have hsources : ∀ source ∈ shards.map Shard.bytes, source.length = layout.shardLen := by
    intro source hmem
    obtain ⟨shard, hshard, rfl⟩ := List.mem_map.mp hmem
    exact (hshards shard hshard).length
  have hrow : ∀ i < layout.coding.data.toNat, addTerms true what (shards.map Shard.bytes) 0
      (inverse.getD i []) (List.replicate layout.shardLen 0) =
        .ok (dataShard data layout.shardLen i) := by
    intro i hi
    obtain ⟨out, hout, hlen, hbytes⟩ := addTerms_spec true what hsources (inverse.getD i []) 0
      (List.replicate layout.shardLen 0)
      (by rw [hsquare.2 i hi, List.length_map, hlength, Nat.zero_add]) List.length_replicate
    rw [hout]
    refine congrArg Except.ok (eq_of_getD hlen (length_dataShard _ _ _) fun p hp =>
      Gf.Elem.of_inj ?_)
    rw [hbytes, getD_replicate_zero, Gf.Elem.of_zero, zero_add, hsquare.2 i hi,
      getD_dataShard data hp]
    refine Eq.trans ?_ (hundo (block data layout.shardLen p) i hi)
    refine Finset.sum_congr rfl fun j hj =>
      congrArg (Gf.Elem.of ((inverse.getD i []).getD j 0) * ·) ?_
    have hj' : j < shards.length := hlength ▸ Finset.mem_range.mp hj
    have hcolumn : column (shards.map Shard.bytes) p (0 + j) =
        Gf.Elem.of ((shards[j]).bytes.getD p 0) := by
      simp [column, List.getD_eq_getElem?_getD, hj']
    have hindex : (shards.map Shard.index).getD j 0 = (shards[j]).index := by
      simp [List.getD_eq_getElem?_getD, hj']
    rw [hcolumn]
    show _ = ∑ column ∈ _, coefficient layout.coding ((shards.map Shard.index).getD j 0) column * _
    rw [hindex]
    exact (hshards _ (List.getElem_mem hj')).bytes p hp
  have hinverse : inverse = (List.range layout.coding.data.toNat).map (inverse.getD · []) := by
    refine List.ext_getElem (by rw [List.length_map, List.length_range, hsquare.1])
      fun i hi _ => ?_
    rw [List.getElem_map, List.getElem_range, List.getD_eq_getElem _ _ hi]
  rw [hinverse, List.mapM_map, blocks]
  exact mapM_eq_ok_map fun i hi => hrow i (List.mem_range.mp hi)

theorem recover_spec (hshards : ∀ shard ∈ shards, IsShard data layout shard)
    (hnodup : (shards.map Shard.index).Nodup) (hlength : shards.length = layout.coding.data.toNat) :
    recover layout.coding layout.shardLen shards = .ok (blocks data layout) := by
  rw [recover]
  split_ifs with hdata
  · refine congrArg Except.ok (map_bytes_sorted hshards hnodup hlength fun shard hmem => ?_)
    have := List.all_eq_true.mp hdata.1 shard hmem
    rw [Bool.and_eq_true, decide_eq_true_iff] at this
    exact this.2
  · obtain ⟨rows, inverse, hrows, hinvert, hsquare, hundo⟩ := invert_generator hnodup
      (by rw [List.length_map, hlength]) (by
        intro index hmem
        obtain ⟨shard, hshard, rfl⟩ := List.mem_map.mp hmem
        exact (hshards shard hshard).index_lt)
    rw [List.mapM_map] at hrows
    have hmapM := mapM_okOr (.invariant "no generator row for a verified shard" : ShardError) hrows
    simp only [Function.comp_apply] at hmapM
    rw [hmapM]
    show (okOr _ (invert rows) >>= _) = _
    rw [hinvert, okOr_some]
    show (inverse.take _).mapM _ = _
    rw [List.take_of_length_le (by rw [hsquare.1])]
    exact mapM_addTerms_inverse hshards hlength _ hsquare hundo

/-! ## The whole run -/

instance total_uint8 : Std.Total (α := UInt8) (· ≤ ·) := ⟨UInt8.le_total⟩

instance isTrans_uint8 : IsTrans UInt8 (· ≤ ·) := ⟨fun _ _ _ => UInt8.le_trans⟩

theorem ascending_insertionSort {indices : List UInt8} (h : indices.Nodup) :
    Ascending (indices.insertionSort (· ≤ ·)) := by
  have hnodup := ((List.perm_insertionSort (· ≤ ·) indices).nodup_iff).mpr h
  refine (List.Pairwise.and (List.pairwise_insertionSort (· ≤ ·) indices) hnodup).imp ?_
  rintro a b ⟨hle, hne⟩
  have : a.toNat ≠ b.toNat := fun h => hne (UInt8.toNat_inj.mp h)
  have := UInt8.le_iff_toNat_le.mp hle
  omega

section Digest

variable [Sha256]

/-- The indices for which correct bytes are among the offered. -/
def correctIndices (encoded : Encoded) (offered : List Shard) : List UInt8 :=
  ((offered.filter (· ∈ encoded.shards)).map Shard.index).dedup

/-- The indices of the offered shards the manifest accepts. -/
def acceptedIndices (manifest : Manifest) (offered : List Shard) : List UInt8 :=
  ((offered.filter fun shard => manifest.verifyShard shard).map Shard.index).dedup

variable {manifest : Manifest} {offered : List Shard}

theorem mem_verified {state : Sieve} (h : Sieved manifest offered state) (index : UInt8) :
    index ∈ state.verified.map Shard.index ↔ index ∈ acceptedIndices manifest offered := by
  simp only [acceptedIndices, List.mem_dedup, List.mem_map, List.mem_filter]
  constructor
  · rintro ⟨shard, hshard, rfl⟩
    exact ⟨shard, h.verified shard hshard, rfl⟩
  · rintro ⟨shard, ⟨hoff, hverify⟩, rfl⟩
    exact List.mem_map.mp (h.covers shard hoff hverify)

theorem length_sorted {state : Sieve} (h : Sieved manifest offered state) :
    (state.verified.insertionSort (SortsBefore manifest.coding)).length =
      (acceptedIndices manifest offered).length := by
  have hperm := (List.perm_ext_iff_of_nodup h.nodup (List.nodup_dedup _)).mpr (mem_verified h)
  have := hperm.length_eq
  rw [List.length_map] at this
  rw [List.length_insertionSort, this]
  rfl

/-- A success says what it was checked for. -/
theorem reconstruct_eq_ok {out : Reconstruction} (h : reconstruct manifest offered = .ok out) :
    manifest.coding.data.toNat ≤ (acceptedIndices manifest offered).length ∧
      out.data.length = manifest.layout.total ∧ manifest.describes (digestOf out.data) = true := by
  obtain ⟨_, henough, h⟩ := bind_eq_ok.mp h
  obtain ⟨recovered, -, h⟩ := bind_eq_ok.mp h
  obtain ⟨_, hlong, h⟩ := bind_eq_ok.mp h
  obtain ⟨_, hdescribes, h⟩ := bind_eq_ok.mp h
  rw [ensure_eq_ok] at henough hlong hdescribes
  rw [length_sorted (sieved manifest offered)] at henough
  cases h
  exact ⟨henough, by rw [List.length_take]; omega, hdescribes⟩

theorem describes_digest {data : List UInt8} (h : manifest.digest = digestOf data) :
    manifest.describes (digestOf data) = true := by
  rw [Manifest.describes, h]
  exact decide_eq_true rfl

/-- What `reconstruct` answers where the manifest accepts only shards of the
blob it describes. -/
theorem reconstruct_of_accepted {data : List UInt8} (htotal : manifest.layout.total = data.length)
    (hdescribes : manifest.describes (digestOf data) = true)
    (hgood : ∀ shard ∈ offered, manifest.verifyShard shard = true →
      IsShard data manifest.layout shard) :
    ∃ rejected, Ascending rejected ∧
      (∀ index, index ∈ rejected ↔
        ∃ shard ∈ offered, manifest.verifyShard shard = false ∧ shard.index = index) ∧
      if manifest.coding.data.toNat ≤ (acceptedIndices manifest offered).length then
        ∃ used, reconstruct manifest offered = .ok ⟨data, used, rejected⟩ ∧
          Ascending used ∧ used.length = manifest.coding.data.toNat ∧
          ∀ index ∈ used, index ∈ acceptedIndices manifest offered
      else reconstruct manifest offered = .error (.notEnoughShards
        (acceptedIndices manifest offered).length manifest.coding.data.toNat rejected) := by
  have hsieved := sieved manifest offered
  generalize hstate : offered.foldl (sieve manifest) ⟨[], [], []⟩ = state at hsieved
  have hperm := List.perm_insertionSort (SortsBefore manifest.coding) state.verified
  have hlen := length_sorted hsieved
  refine ⟨state.rejected, hsieved.ascending, hsieved.rejected, ?_⟩
  split_ifs with henough
  · generalize hsorted : state.verified.insertionSort (SortsBefore manifest.coding) = sorted at *
    have hsub : ∀ shard ∈ sorted.take manifest.coding.data.toNat, shard ∈ state.verified :=
      fun shard hs => hperm.mem_iff.mp (List.mem_of_mem_take hs)
    have hnodup : ((sorted.take manifest.coding.data.toNat).map Shard.index).Nodup := by
      rw [List.map_take]
      exact List.Nodup.sublist (List.take_sublist _ _)
        (((hperm.map Shard.index).nodup_iff).mpr hsieved.nodup)
    have hrecover : recover manifest.coding manifest.layout.shardLen
        (sorted.take manifest.coding.data.toNat) = .ok (blocks data manifest.layout) := by
      refine recover_spec (fun shard hs => ?_) hnodup ?_
      · obtain ⟨hoff, hverify⟩ := hsieved.verified shard (hsub shard hs)
        exact hgood shard hoff hverify
      · rw [List.length_take]
        exact Nat.min_eq_left (by omega)
    have hblocks : manifest.layout.total ≤ (blocks data manifest.layout).flatten.length := by
      rw [length_flatten_blocks]
      exact manifest.layout.total_le
    refine ⟨((sorted.take manifest.coding.data.toNat).map Shard.index).insertionSort (· ≤ ·), ?_,
      ascending_insertionSort hnodup, ?_, fun index hindex => ?_⟩
    · simp only [reconstruct, hstate, hsorted]
      refine bind_eq_ok.mpr ⟨(), ensure_eq_ok.mpr (by omega), bind_eq_ok.mpr ⟨_, hrecover,
        bind_eq_ok.mpr ⟨(), ensure_eq_ok.mpr hblocks, ?_⟩⟩⟩
      rw [take_flatten_blocks htotal]
      exact bind_eq_ok.mpr ⟨(), ensure_eq_ok.mpr hdescribes, rfl⟩
    · rw [List.length_insertionSort, List.length_map, List.length_take]
      omega
    · rw [List.mem_insertionSort] at hindex
      obtain ⟨shard, hs, rfl⟩ := List.mem_map.mp hindex
      exact (mem_verified hsieved _).mp (List.mem_map_of_mem (hsub shard hs))
  · rw [reconstruct, hstate, ensure, if_neg (by omega), hlen]
    rfl

/-- Whatever is offered against the manifest of an encoding: with correct bytes
for enough indices the blob comes back, with too few their number does, and
either way exactly the liars are named. -/
theorem reconstruct_recovers {data : List UInt8} (coding : Coding) {chunkLen : Nat}
    (hlength : data.length ≤ MAX_CODED_BYTES) (hlegal : LegalChunkLen chunkLen) :
    ∃ encoded, encode data coding chunkLen = .ok encoded ∧ ∀ offered : List Shard,
      Collisionless encoded.manifest.layout
        (fun bytes => ∃ shard ∈ encoded.shards ++ offered, shard.bytes = bytes) →
      ∃ rejected, Ascending rejected ∧
        (∀ index, index ∈ rejected ↔
          ∃ shard ∈ offered, shard ∉ encoded.shards ∧ shard.index = index) ∧
        if coding.data.toNat ≤ (correctIndices encoded offered).length then
          ∃ used, reconstruct encoded.manifest offered = .ok ⟨data, used, rejected⟩ ∧
            Ascending used ∧ used.length = coding.data.toNat ∧
            ∀ index ∈ used, index ∈ correctIndices encoded offered
        else reconstruct encoded.manifest offered = .error (.notEnoughShards
          (correctIndices encoded offered).length coding.data.toNat rejected) := by
  obtain ⟨encoded, hencode, h⟩ := encode_spec coding hlength hlegal
  refine ⟨encoded, hencode, fun offered hcoll => ?_⟩
  rw [h.layout_eq] at hcoll
  have hverify : ∀ shard ∈ offered,
      (encoded.manifest.verifyShard shard = true ↔ shard ∈ encoded.shards) := fun shard hoff =>
    verifyShard_iff h hcoll (fun good hgood => ⟨good, List.mem_append_left _ hgood, rfl⟩)
      ⟨shard, List.mem_append_right _ hoff, rfl⟩
  have hsame : acceptedIndices encoded.manifest offered = correctIndices encoded offered := by
    rw [acceptedIndices, correctIndices]
    refine congrArg (fun shards => (shards.map Shard.index).dedup)
      (List.filter_congr fun shard hoff => ?_)
    rw [Bool.eq_iff_iff, hverify shard hoff, decide_eq_true_iff]
  obtain ⟨rejected, hascending, hrejected, hanswer⟩ := reconstruct_of_accepted
    (by rw [h.layout_eq, h.total]) (describes_digest h.digest) fun shard hoff haccepted => by
      rw [h.layout_eq]
      exact (h.shards shard).mp ((hverify shard hoff).mp haccepted)
  rw [hsame, Manifest.coding, h.layout_eq] at hanswer
  refine ⟨rejected, hascending, fun index => ?_, hanswer⟩
  rw [hrejected]
  refine exists_congr fun shard => and_congr_right fun hoff => and_congr_left' ?_
  rw [← Bool.not_eq_true, hverify shard hoff]

end Digest

/-- SHA-256 on a chunk of two bytes, as far as two bytes go. -/
@[reducible] def pairHash : Sha256 where
  hash data := digestOfNat ((data.data[0]?.getD 0).toNat * 256 + (data.data[1]?.getD 0).toNat)

/-- Two data shards and one parity shard. -/
def twoAndOne : Coding := ⟨2, 1, by decide, by decide, by decide⟩

/-- A corrupted copy of shard 0, the parity shard twice, and shard 1. -/
def sampleOffer : List Shard := [⟨0, [1, 9]⟩, ⟨2, [140, 1]⟩, ⟨2, [140, 1]⟩, ⟨1, [3, 0]⟩]

/-- The bytes of the sample do not collide. -/
theorem collisionless_sample : @Collisionless pairHash ⟨3, twoAndOne, 4096, by decide, by decide⟩
    fun bytes => bytes ∈ [[1, 2], [3, 0], [140, 1], [1, 9]] := by
  let _ := pairHash
  constructor
  · intro x y hx hy
    revert y
    revert x
    decide
  · -- a single chunk has no inner nodes
    rintro x _ ⟨bytes, hbytes, hx⟩
    have hnone : merkleInputs (shardLeaves ⟨3, twoAndOne, 4096, by decide, by decide⟩ bytes) =
        [] := by
      clear hx
      revert bytes
      decide
    rw [hnone] at hx
    exact absurd hx List.not_mem_nil

theorem reconstruct_sample : letI := pairHash
    ∃ encoded rejected used, encode [1, 2, 3] twoAndOne 4096 = .ok encoded ∧
      reconstruct encoded.manifest sampleOffer = .ok ⟨[1, 2, 3], used, rejected⟩ ∧
      used.length = 2 ∧ 0 ∈ rejected := by
  let _ := pairHash
  have hlegal : LegalChunkLen 4096 := by decide
  have hlength : ([1, 2, 3] : List UInt8).length ≤ MAX_CODED_BYTES := by decide
  obtain ⟨encoded, hencode, hall⟩ := reconstruct_recovers twoAndOne hlength hlegal
  have hparts : (encode [1, 2, 3] twoAndOne 4096).map
      (fun encoded => (encoded.shards, encoded.manifest.layout)) =
      .ok ([⟨0, [1, 2]⟩, ⟨1, [3, 0]⟩, ⟨2, [140, 1]⟩],
        ⟨3, twoAndOne, 4096, by decide, by decide⟩) := by
    decide +kernel
  rw [hencode] at hparts
  obtain ⟨hshards, hlayout⟩ := Prod.mk.inj (Except.ok.inj hparts)
  have hcoll : Collisionless encoded.manifest.layout
      (fun bytes => ∃ shard ∈ encoded.shards ++ sampleOffer, shard.bytes = bytes) := by
    rw [hshards, hlayout]
    refine collisionless_sample.mono ?_
    rintro _ ⟨a, ha, rfl⟩
    revert a
    decide
  obtain ⟨rejected, -, hrejected, hanswer⟩ := hall sampleOffer hcoll
  rw [if_pos (by rw [correctIndices, hshards]; decide)] at hanswer
  obtain ⟨used, hrun, -, hused, -⟩ := hanswer
  refine ⟨encoded, rejected, used, hencode, hrun, hused, (hrejected 0).mpr ⟨⟨0, [1, 9]⟩, ?_, ?_, rfl⟩⟩
  · decide
  · rw [hshards]
    decide

end Cairn.Ports.Shards
