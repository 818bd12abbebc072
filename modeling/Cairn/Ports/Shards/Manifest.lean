import Cairn.Ports.Canonical.Paths
import Cairn.Ports.Records.Fields
import Cairn.Ports.Shards.Coding

/-!
# Encoding and the manifest

`encode`, `shard_root`, `Manifest` and its `verify_shard` of
`src/shards/mod.rs`. A shard's place in the code is one equation a byte,
`IsShard`: byte `p` of shard `i` is the generator's combination of byte `p` of
the blocks the blob is cut into. `encode` leaves exactly the shards that
satisfy it (`encode_spec`), and a manifest it wrote accepts no others unless
SHA-256 collides on something hashed on the way (`verifyShard_iff`).

Lengths are natural numbers; on a 64-bit platform the conversions to `usize`
never fail.
-/

namespace Cairn.Ports.Shards

open Cairn.Verified Cairn.Ports.Canonical Cairn.Ports.Crypto

/-- One shard, unchecked: its index in the coding, and its bytes. -/
structure Shard where
  index : UInt8
  bytes : List UInt8
  deriving DecidableEq, Repr

/-- What the blob is, how it was cut, and one root per shard. -/
structure Manifest where
  digest : String
  layout : Layout
  roots : List String
  length_roots : roots.length = layout.coding.shards.toNat
  digest_roots : ∀ root ∈ roots, isDigest root = true
  deriving DecidableEq

def Manifest.coding (manifest : Manifest) : Coding := manifest.layout.coding

/-- The record, where the roots are as many as the coding has shards and each
is a digest. -/
def Manifest.build (digest : String) (layout : Layout) (roots : List String) :
    Except ShardError Manifest :=
  if hlength : roots.length = layout.coding.shards.toNat then
    if hroots : ∀ root ∈ roots, isDigest root = true then
      .ok ⟨digest, layout, roots, hlength, hroots⟩
    else .error (.notADigest (UInt8.ofNat (roots.findIdx fun root => !isDigest root)))
  else .error (.shardCountMismatch roots.length layout.coding.shards.toNat)

def Manifest.new (digest : String) (total : Nat) (coding : Coding) (chunkLen : Nat)
    (roots : List String) : Except ShardError Manifest := do
  Manifest.build digest (← Layout.new total coding chunkLen) roots

/-- `strip_prefix` where the text comes back unchanged without the prefix, then
ASCII letters in lower case. -/
def plainDigest (text : String) : List Char :=
  ((stripDigestPrefix text).getD text).toList.map Char.toLower

/-- `describes`: the digests agree, with or without prefix, in either case. -/
def Manifest.describes (manifest : Manifest) (digest : String) : Bool :=
  plainDigest digest = plainDigest manifest.digest

/-- `row` applied to the sources: term after term onto a shard of zeros, from
place `column` on. -/
def addTerms (skipsZero : Bool) (what : String) (sources : List (List UInt8)) :
    Nat → List UInt8 → List UInt8 → Except ShardError (List UInt8)
  | _, [], out => pure out
  | column, coefficient :: row, out =>
    if skipsZero ∧ coefficient = 0 then addTerms skipsZero what sources (column + 1) row out
    else do
      let source ← okOr (.invariant what) sources[column]?
      addTerms skipsZero what sources (column + 1) row
        ((Gf.Row.of coefficient).mulAdd out source)

/-- Block `index` of the blob, with zeros where the blob has ended. -/
def dataShard (data : List UInt8) (shardLen index : Nat) : List UInt8 :=
  let start := index * shardLen
  let source := (getRange data start (min data.length (start + shardLen))).getD []
  source ++ List.replicate (shardLen - source.length) 0

def pushParity (coding : Coding) (shardLen : Nat) (bytes : List (List UInt8)) (index : Nat) :
    Except ShardError (List (List UInt8)) := do
  let row ← okOr (.invariant "no generator row for a valid index")
    (generatorRow coding (UInt8.ofNat index))
  let parity ← addTerms false "generator row wider than the coding" bytes 0 row
    (List.replicate shardLen 0)
  pure (bytes ++ [parity])

section Digest

variable [Sha256]

def digestOf (bytes : List UInt8) : String := digestBytes (ByteArray.mk bytes.toArray)

/-- The chunks of a shard, the leaves of its tree before they are hashed. -/
def chunkList (layout : Layout) (shard : List UInt8) : List (List UInt8) :=
  (List.range layout.chunks).map fun chunk => (layout.slice shard chunk).getD []

def shardLeaves (layout : Layout) (shard : List UInt8) : List String :=
  (chunkList layout shard).map digestOf

/-- Merkle root over one shard's chunk digests. -/
def shardRoot (layout : Layout) (shard : List UInt8) : Except ShardError String :=
  okOr (.invariant "a shard with no chunks") (merkleRoot (shardLeaves layout shard))

/-- What `encode` produces. -/
structure Encoded where
  manifest : Manifest
  shards : List Shard

def encode (data : List UInt8) (coding : Coding) (chunkLen : Nat) : Except ShardError Encoded := do
  let layout ← Layout.new data.length coding chunkLen
  let dataShards := (List.range coding.data.toNat).map (dataShard data layout.shardLen)
  let bytes ← (List.range' coding.data.toNat coding.parity.toNat).foldlM
    (pushParity coding layout.shardLen) dataShards
  let roots ← bytes.mapM (shardRoot layout)
  -- The source writes the record without the two checks; they hold of it.
  let manifest ← Manifest.build (digestOf data) layout roots
  pure ⟨manifest, bytes.mapIdx fun index bytes => ⟨UInt8.ofNat index, bytes⟩⟩

def Manifest.verifyShard (manifest : Manifest) (shard : Shard) : Bool :=
  match manifest.roots[shard.index.toNat]? with
  | none => false
  | some expected =>
    if shard.bytes.length = manifest.layout.shardLen then
      match shardRoot manifest.layout shard.bytes with
      | .ok actual => actual == expected
      | .error _ => false
    else false

end Digest

/-! ## Lengths and chunks -/

theorem divCeil_spec {n d : Nat} (hd : 0 < d) : n ≤ divCeil n d * d ∧ divCeil n d * d < n + d := by
  have hmod := Nat.mod_lt n hd
  have hdiv := Nat.div_add_mod' n d
  unfold divCeil
  split_ifs with h
  · omega
  · rw [Nat.add_mul, Nat.one_mul]
    omega

theorem Layout.chunkLen_pos (layout : Layout) : 0 < layout.chunkLen :=
  lt_of_lt_of_le (by decide) layout.legal.1

theorem Layout.chunks_pos (layout : Layout) : 0 < layout.chunks := by
  unfold Layout.chunks
  split_ifs with h
  · exact Nat.one_pos
  · have := divCeil_spec (n := layout.shardLen) layout.chunkLen_pos
    refine Nat.pos_of_ne_zero fun hzero => ?_
    rw [hzero] at this
    omega

theorem Layout.total_le (layout : Layout) :
    layout.total ≤ layout.coding.data.toNat * layout.shardLen := by
  rw [Nat.mul_comm]
  exact (divCeil_spec layout.coding.toNat_data_pos).1

variable {p : Nat} {layout : Layout} {data : List UInt8}

/-- The chunk byte `p` of a shard lies in. -/
theorem Layout.div_lt_chunks (layout : Layout) (h : p < layout.shardLen) :
    p / layout.chunkLen < layout.chunks := by
  have hpos := layout.chunkLen_pos
  rw [Layout.chunks, if_neg (by omega), Nat.div_lt_iff_lt_mul hpos]
  exact lt_of_lt_of_le h (divCeil_spec hpos).1

theorem Layout.getElem?_slice (layout : Layout) {shard : List UInt8}
    (hlength : shard.length = layout.shardLen) (h : p < layout.shardLen) :
    ((layout.slice shard (p / layout.chunkLen)).getD [])[p % layout.chunkLen]? = shard[p]? := by
  have hpos := layout.chunkLen_pos
  have hchunk := layout.div_lt_chunks h
  have hmod := Nat.mod_lt p hpos
  have hdiv := Nat.div_add_mod' p layout.chunkLen
  have hlen : min (layout.shardLen - p / layout.chunkLen * layout.chunkLen) layout.chunkLen ≤
      layout.shardLen - p / layout.chunkLen * layout.chunkLen := Nat.min_le_left _ _
  simp only [Layout.slice, Layout.chunkBytes, Layout.chunkOffset, if_neg (Nat.not_le.mpr hchunk),
    Option.bind_eq_bind, Option.bind_some, getRange]
  rw [if_pos (by omega), Option.getD_some, List.getElem?_take, if_pos (by omega),
    List.getElem?_drop, hdiv]

/-- The chunks of a shard give it back. -/
theorem chunkList_inj {x y : List UInt8} (hx : x.length = layout.shardLen)
    (hy : y.length = layout.shardLen) (h : chunkList layout x = chunkList layout y) : x = y := by
  refine List.ext_getElem? fun p => ?_
  by_cases hp : p < layout.shardLen
  · have hchunk := List.mem_range.mpr (layout.div_lt_chunks hp)
    rw [← layout.getElem?_slice hx hp, ← layout.getElem?_slice hy hp,
      List.map_inj_left.mp h _ hchunk]
  · rw [List.getElem?_eq_none (by omega), List.getElem?_eq_none (by omega)]

/-! ## Roots -/

theorem isDigest_of_spelled {text : String} (h : IsDigest text) : isDigest text = true := by
  obtain ⟨hex, hlen, hhex, htext⟩ := h
  have hstrip : stripDigestPrefix text = some (String.ofList hex) := by
    rw [stripDigestPrefix, htext]
    rfl
  simp only [isDigest, hstrip, isHex64, String.toList_ofList, hlen, decide_true, Bool.true_and,
    List.all_eq_true]
  exact hhex

section Digest

variable [Sha256]

/-- The root a shard has. -/
def rootOf (layout : Layout) (shard : List UInt8) : String :=
  (merkleRoot (shardLeaves layout shard)).getD ""

theorem length_shardLeaves (layout : Layout) (shard : List UInt8) :
    (shardLeaves layout shard).length = layout.chunks := by
  rw [shardLeaves, chunkList, List.length_map, List.length_map, List.length_range]

theorem shardLeaves_ne_nil (layout : Layout) (shard : List UInt8) :
    shardLeaves layout shard ≠ [] := by
  intro h
  have := length_shardLeaves layout shard
  have := layout.chunks_pos
  rw [h, List.length_nil] at *
  omega

theorem merkleRoot_eq_rootOf (layout : Layout) (shard : List UInt8) :
    merkleRoot (shardLeaves layout shard) = some (rootOf layout shard) := by
  obtain ⟨root, hroot⟩ := merkleRoot_isSome (shardLeaves_ne_nil layout shard)
  rw [rootOf, hroot, Option.getD_some]

theorem shardRoot_eq (layout : Layout) (shard : List UInt8) :
    shardRoot layout shard = .ok (rootOf layout shard) := by
  rw [shardRoot, merkleRoot_eq_rootOf, okOr_some]

theorem isDigest_rootOf (layout : Layout) (shard : List UInt8) :
    isDigest (rootOf layout shard) = true := by
  apply isDigest_of_spelled
  have hroot := merkleRoot_inTree (merkleRoot_eq_rootOf layout shard)
  generalize rootOf layout shard = root at hroot
  cases hroot with
  | leaf hmem =>
    obtain ⟨chunk, -, h⟩ := List.mem_map.mp hmem
    rw [← h]
    exact isDigest_digestBytes _
  | node _ _ _ => exact isDigest_digestBytes _

/-- SHA-256 tells apart what the trees of these shards hash: their chunks, and
the joined texts of their inner nodes. -/
structure Collisionless (layout : Layout) (shards : List UInt8 → Prop) : Prop where
  chunks : ∀ x y, shards x → shards y → ∀ c ∈ chunkList layout x, ∀ d ∈ chunkList layout y,
    digestOf c = digestOf d → c = d
  nodes : NoCollision fun text => ∃ shard, shards shard ∧
    text ∈ merkleInputs (shardLeaves layout shard)

theorem Collisionless.mono {layout : Layout} {shards shards' : List UInt8 → Prop}
    (h : Collisionless layout shards) (hsub : ∀ bytes, shards' bytes → shards bytes) :
    Collisionless layout shards' := by
  refine ⟨fun x y hx hy => h.chunks x y (hsub x hx) (hsub y hy), h.nodes.mono ?_⟩
  rintro text ⟨shard, hshard, htext⟩
  exact ⟨shard, hsub shard hshard, htext⟩

/-- Without a collision a root fixes the shard. -/
theorem rootOf_inj {layout : Layout} {shards : List UInt8 → Prop} (hcoll : Collisionless layout shards)
    {x y : List UInt8} (hx : shards x) (hy : shards y) (hxlen : x.length = layout.shardLen)
    (hylen : y.length = layout.shardLen) (h : rootOf layout x = rootOf layout y) : x = y := by
  have hlong : ∀ shard, DigestLong (shardLeaves layout shard) := by
    intro shard text hmem
    obtain ⟨chunk, -, rfl⟩ := List.mem_map.mp hmem
    exact length_digestBytes _
  have hroots : merkleRoot (shardLeaves layout x) = merkleRoot (shardLeaves layout y) := by
    rw [merkleRoot_eq_rootOf, merkleRoot_eq_rootOf, h]
  have hlength : (shardLeaves layout x).length = (shardLeaves layout y).length := by
    rw [length_shardLeaves, length_shardLeaves]
  have hleaves : shardLeaves layout x = shardLeaves layout y := by
    rw [merkleRoot, merkleRoot, ← hlength] at hroots
    refine reduceLevels_inj hcoll.nodes _ hlength (by omega) (hlong x) (hlong y)
      (fun text htext => ⟨x, hx, htext⟩) (fun text htext => ⟨y, hy, ?_⟩) hroots
    rwa [merkleInputs, ← hlength]
  refine chunkList_inj hxlen hylen (List.ext_getElem? fun i => ?_)
  have hi := congrArg (·[i]?) hleaves
  simp only [shardLeaves, List.getElem?_map] at hi
  cases hc : (chunkList layout x)[i]? with
  | none =>
    rw [hc, Option.map_none, eq_comm, Option.map_eq_none_iff] at hi
    exact hi.symm
  | some c =>
    rw [hc, Option.map_some, eq_comm, Option.map_eq_some_iff] at hi
    obtain ⟨d, hd, heq⟩ := hi
    rw [hd, hcoll.chunks x y hx hy c (List.mem_of_getElem? hc) d (List.mem_of_getElem? hd)
      heq.symm]

end Digest

/-! ## Linear combinations of shards -/

/-- Byte `p` of each of the shards. -/
def column (sources : List (List UInt8)) (p : Nat) (j : Nat) : Gf.Elem :=
  Gf.Elem.of ((sources.getD j []).getD p 0)

theorem of_getD_mulAdd {coefficient : UInt8} {dst src : List UInt8} (h : src.length = dst.length)
    (p : Nat) : Gf.Elem.of (((Gf.Row.of coefficient).mulAdd dst src).getD p 0) =
      Gf.Elem.of (dst.getD p 0) + Gf.Elem.of coefficient * Gf.Elem.of (src.getD p 0) := by
  rw [mulAdd_eq]
  exact (Elimination.getD_mulSub (F := Gf.Elem) coefficient dst src p h).trans
    (Gf.Elem.sub_eq_add _ _)

theorem length_mulAdd (row : Gf.Row) : ∀ dst src : List UInt8,
    (row.mulAdd dst src).length = dst.length
  | [], [] | [], _ :: _ | _ :: _, [] => rfl
  | _ :: dst, _ :: src => congrArg (· + 1) (length_mulAdd row dst src)

theorem addTerms_spec (skipsZero : Bool) (what : String) {sources : List (List UInt8)} {len : Nat}
    (hsources : ∀ source ∈ sources, source.length = len) :
    ∀ (row : List UInt8) (start : Nat) (out : List UInt8), start + row.length ≤ sources.length →
      out.length = len → ∃ out', addTerms skipsZero what sources start row out = .ok out' ∧
        out'.length = len ∧ ∀ p, Gf.Elem.of (out'.getD p 0) = Gf.Elem.of (out.getD p 0) +
          ∑ j ∈ Finset.range row.length,
            Gf.Elem.of (row.getD j 0) * column sources p (start + j)
  | [], start, out, _, hout => ⟨out, rfl, hout, fun p => by simp⟩
  | coefficient :: row, start, out, hstart, hout => by
      rw [List.length_cons] at hstart
      have hget : sources[start]? = some (sources.getD start []) :=
        Elimination.getElem?_eq_getD (by omega) []
      have hlen : (sources.getD start []).length = out.length :=
        (hsources _ (List.mem_of_getElem? hget)).trans hout.symm
      have hsum : ∀ p, ∑ j ∈ Finset.range (coefficient :: row).length,
            Gf.Elem.of ((coefficient :: row).getD j 0) * column sources p (start + j) =
          (∑ j ∈ Finset.range row.length,
            Gf.Elem.of (row.getD j 0) * column sources p (start + 1 + j)) +
          Gf.Elem.of coefficient * column sources p start := by
        intro p
        rw [List.length_cons, Finset.sum_range_succ']
        refine congrArg₂ (· + ·) (Finset.sum_congr rfl fun j _ => ?_) rfl
        rw [List.getD_cons_succ, Nat.add_right_comm, Nat.add_assoc start]
      by_cases hskip : skipsZero = true ∧ coefficient = 0
      · obtain ⟨out', hrun, hout', hbytes⟩ :=
          addTerms_spec skipsZero what hsources row (start + 1) out (by omega) hout
        refine ⟨out', by rw [addTerms, if_pos hskip, hrun], hout', fun p => ?_⟩
        rw [hbytes, hsum, hskip.2, Gf.Elem.of_zero, zero_mul, add_zero]
      · obtain ⟨out', hrun, hout', hbytes⟩ := addTerms_spec skipsZero what hsources row (start + 1)
          ((Gf.Row.of coefficient).mulAdd out (sources.getD start [])) (by omega)
          ((length_mulAdd _ _ _).trans hout)
        refine ⟨out', ?_, hout', fun p => ?_⟩
        · rw [addTerms, if_neg hskip, hget]
          exact hrun
        · rw [hbytes, hsum, of_getD_mulAdd hlen, add_assoc, add_comm (Finset.sum _ _)]
          rfl

/-! ## Encoding -/

/-- Byte `p` of block `j` of the blob, zero past its end. -/
def block (data : List UInt8) (shardLen p : Nat) (j : Nat) : Gf.Elem :=
  Gf.Elem.of (data.getD (j * shardLen + p) 0)

/-- What shard `index` of a blob is: byte for byte the generator's combination
of the blocks. -/
structure IsShard (data : List UInt8) (layout : Layout) (shard : Shard) : Prop where
  index_lt : shard.index.toNat < layout.coding.shards.toNat
  length : shard.bytes.length = layout.shardLen
  bytes : ∀ p < layout.shardLen, Gf.Elem.of (shard.bytes.getD p 0) =
    ∑ j ∈ Finset.range layout.coding.data.toNat,
      coefficient layout.coding shard.index j * block data layout.shardLen p j

theorem eq_of_getD {x y : List UInt8} {len : Nat} (hx : x.length = len) (hy : y.length = len)
    (h : ∀ p < len, x.getD p 0 = y.getD p 0) : x = y := by
  refine List.ext_getElem (hx.trans hy.symm) fun p hp hp' => ?_
  have := h p (hx ▸ hp)
  rwa [List.getD_eq_getElem _ _ hp, List.getD_eq_getElem _ _ hp'] at this

/-- There is one shard to an index. -/
theorem IsShard.unique {a b : Shard}
    (ha : IsShard data layout a) (hb : IsShard data layout b) (h : a.index = b.index) : a = b := by
  have hbytes : a.bytes = b.bytes := by
    refine eq_of_getD ha.length hb.length fun p hp => Gf.Elem.of_inj ?_
    rw [ha.bytes p hp, hb.bytes p hp, h]
  cases a
  cases b
  simp_all

/-- A data shard's row picks its block. -/
theorem sum_coefficient_data {coding : Coding} {index : UInt8}
    (h : index.toNat < coding.data.toNat) (x : Nat → Gf.Elem) :
    ∑ j ∈ Finset.range coding.data.toNat, coefficient coding index j * x j = x index.toNat := by
  rw [Finset.sum_eq_single index.toNat]
  · rw [coefficient, if_pos h, if_pos rfl, one_mul]
  · intro j _ hne
    rw [coefficient, if_pos h, if_neg hne.symm, zero_mul]
  · exact fun hnot => absurd (Finset.mem_range.mpr h) hnot

theorem length_source_le (data : List UInt8) (shardLen index : Nat) :
    ((getRange data (index * shardLen)
      (min data.length (index * shardLen + shardLen))).getD []).length ≤ shardLen := by
  unfold getRange
  split_ifs with h
  · rw [Option.getD_some, List.length_take]
    omega
  · exact Nat.zero_le _

theorem length_dataShard (data : List UInt8) (shardLen index : Nat) :
    (dataShard data shardLen index).length = shardLen := by
  have := length_source_le data shardLen index
  rw [dataShard, List.length_append, List.length_replicate]
  omega

theorem getD_replicate_zero (n i : Nat) : (List.replicate n (0 : UInt8)).getD i 0 = 0 := by
  rw [List.getD_eq_getElem?_getD, List.getElem?_replicate]
  split <;> rfl

theorem getD_dataShard (data : List UInt8) {shardLen p : Nat} (hp : p < shardLen) (index : Nat) :
    (dataShard data shardLen index).getD p 0 = data.getD (index * shardLen + p) 0 := by
  by_cases hstart : index * shardLen ≤ data.length
  · simp only [dataShard, getRange, if_pos (show index * shardLen ≤ min data.length
      (index * shardLen + shardLen) ∧ min data.length (index * shardLen + shardLen) ≤ data.length by
        omega), Option.getD_some]
    by_cases hin : index * shardLen + p < data.length
    · rw [List.getD_append _ _ _ _ (by rw [List.length_take, List.length_drop]; omega)]
      rw [List.getD_eq_getElem?_getD, List.getElem?_take, if_pos (by omega), List.getElem?_drop,
        ← List.getD_eq_getElem?_getD]
    · rw [List.getD_append_right _ _ _ _ (by rw [List.length_take, List.length_drop]; omega),
        getD_replicate_zero, List.getD_eq_default _ _ (by omega)]
  · simp only [dataShard, getRange, if_neg (show ¬(index * shardLen ≤ min data.length
      (index * shardLen + shardLen) ∧ min data.length (index * shardLen + shardLen) ≤ data.length) by
        omega), Option.getD_none, List.nil_append]
    rw [getD_replicate_zero, List.getD_eq_default _ _ (by omega)]

/-- The shards written so far are the blob's. -/
def Coded (data : List UInt8) (layout : Layout) (bytes : List (List UInt8)) : Prop :=
  ∀ i < bytes.length, IsShard data layout ⟨UInt8.ofNat i, bytes.getD i []⟩

theorem coded_dataShards (data : List UInt8) (layout : Layout) :
    Coded data layout
      ((List.range layout.coding.data.toNat).map (dataShard data layout.shardLen)) := by
  intro i hi
  rw [List.length_map, List.length_range] at hi
  have hdata : layout.coding.data.toNat < 256 := layout.coding.data.toNat_lt
  have hnat : (UInt8.ofNat i).toNat = i := toNat_ofNat_of_lt (by omega)
  have hget : ((List.range layout.coding.data.toNat).map (dataShard data layout.shardLen)).getD i [] =
      dataShard data layout.shardLen i := by
    simp [List.getD_eq_getElem?_getD, hi]
  rw [hget]
  refine ⟨?_, length_dataShard _ _ _, fun p hp => ?_⟩
  · rw [hnat, Coding.toNat_shards]
    omega
  · rw [sum_coefficient_data (hnat.symm ▸ hi), hnat, getD_dataShard data hp, block]

/-- The blocks can be read off the shards written so far. -/
theorem Coded.column {bytes : List (List UInt8)}
    (h : Coded data layout bytes) (hlength : layout.coding.data.toNat ≤ bytes.length)
    (hp : p < layout.shardLen) {j : Nat} (hj : j < layout.coding.data.toNat) :
    column bytes p j = block data layout.shardLen p j := by
  have hdata : layout.coding.data.toNat < 256 := layout.coding.data.toNat_lt
  have hnat : (UInt8.ofNat j).toNat = j := toNat_ofNat_of_lt (by omega)
  have := (h j (by omega)).bytes p hp
  rw [sum_coefficient_data (hnat.symm ▸ hj), hnat] at this
  exact this

theorem pushParity_spec {bytes : List (List UInt8)}
    (h : Coded data layout bytes) (hdata : layout.coding.data.toNat ≤ bytes.length)
    (hlt : bytes.length < layout.coding.shards.toNat) :
    ∃ bytes', pushParity layout.coding layout.shardLen bytes bytes.length = .ok bytes' ∧
      bytes'.length = bytes.length + 1 ∧ Coded data layout bytes' := by
  have hbound : layout.coding.shards.toNat < 256 := layout.coding.shards.toNat_lt
  have hnat : (UInt8.ofNat bytes.length).toNat = bytes.length := toNat_ofNat_of_lt (by omega)
  obtain ⟨row, hrow, hrowlen, hcells⟩ := generatorRow_spec (hnat.symm ▸ hlt)
  have hsources : ∀ source ∈ bytes, source.length = layout.shardLen := by
    intro source hmem
    obtain ⟨i, hi, rfl⟩ := List.getElem_of_mem hmem
    have := (h i hi).length
    rwa [List.getD_eq_getElem _ _ hi] at this
  obtain ⟨parity, hparity, hparitylen, hbytes⟩ := addTerms_spec false
    "generator row wider than the coding" hsources row 0 (List.replicate layout.shardLen 0)
    (by omega) List.length_replicate
  refine ⟨bytes ++ [parity], ?_, by rw [List.length_append, List.length_singleton], fun i hi => ?_⟩
  · rw [pushParity, hrow, okOr_some]
    show (addTerms .. >>= _) = _
    rw [hparity]
    rfl
  · rw [List.length_append, List.length_singleton] at hi
    rcases Nat.lt_succ_iff_lt_or_eq.mp hi with hold | rfl
    · rw [List.getD_append _ _ _ _ hold]
      exact h i hold
    · rw [List.getD_append_right _ _ _ _ le_rfl, Nat.sub_self]
      refine ⟨hnat.symm ▸ hlt, hparitylen, fun p hp => ?_⟩
      show Gf.Elem.of (parity.getD p 0) = _
      rw [hbytes, getD_replicate_zero, Gf.Elem.of_zero, zero_add, hrowlen]
      refine Finset.sum_congr rfl fun j hj => ?_
      have hj := Finset.mem_range.mp hj
      rw [hcells j hj, Nat.zero_add, h.column hdata hp hj]

theorem foldlM_pushParity : ∀ (count : Nat)
    {bytes : List (List UInt8)}, Coded data layout bytes →
    layout.coding.data.toNat ≤ bytes.length →
    bytes.length + count ≤ layout.coding.shards.toNat →
    ∃ bytes', (List.range' bytes.length count).foldlM (pushParity layout.coding layout.shardLen)
      bytes = .ok bytes' ∧ bytes'.length = bytes.length + count ∧ Coded data layout bytes'
  | 0, bytes, h, _, _ => ⟨bytes, rfl, rfl, h⟩
  | count + 1, bytes, h, hdata, hlt => by
      obtain ⟨bytes₁, hpush, hlen₁, hcoded₁⟩ := pushParity_spec h hdata (by omega)
      obtain ⟨bytes', hrun, hlen', hcoded'⟩ :=
        foldlM_pushParity count hcoded₁ (by omega) (by omega)
      refine ⟨bytes', ?_, by omega, hcoded'⟩
      rw [List.range'_succ, List.foldlM_cons, hpush, ← hlen₁]
      exact hrun

section Digest

variable [Sha256]

theorem mapM_shardRoot (layout : Layout) : ∀ bytes : List (List UInt8),
    bytes.mapM (shardRoot layout) = .ok (bytes.map (rootOf layout))
  | [] => rfl
  | shard :: bytes => by
      rw [List.mapM_cons, shardRoot_eq, mapM_shardRoot layout bytes]
      rfl

/-- `encoded` is what encoding this blob leaves: its digest, its layout, all
its shards, and their roots. -/
structure Encodes (data : List UInt8) (layout : Layout) (encoded : Encoded) : Prop where
  digest : encoded.manifest.digest = digestOf data
  layout_eq : encoded.manifest.layout = layout
  total : layout.total = data.length
  shards : ∀ shard, shard ∈ encoded.shards ↔ IsShard data layout shard
  exists_shard : ∀ index : UInt8, index.toNat < layout.coding.shards.toNat →
    ∃ shard ∈ encoded.shards, shard.index = index ∧
      encoded.manifest.roots[index.toNat]? = some (rootOf layout shard.bytes)

theorem encode_spec {data : List UInt8} (coding : Coding) {chunkLen : Nat}
    (hlength : data.length ≤ MAX_CODED_BYTES) (hlegal : LegalChunkLen chunkLen) :
    ∃ encoded, encode data coding chunkLen = .ok encoded ∧
      Encodes data ⟨data.length, coding, chunkLen, hlegal, hlength⟩ encoded := by
  let layout : Layout := ⟨data.length, coding, chunkLen, hlegal, hlength⟩
  have hlayout : Layout.new data.length coding chunkLen = .ok layout := by
    rw [Layout.new, dif_neg (not_not.mpr hlegal), dif_neg (Nat.not_lt.mpr hlength)]
  have hstart : ((List.range coding.data.toNat).map (dataShard data layout.shardLen)).length =
      coding.data.toNat := by rw [List.length_map, List.length_range]
  have hshards := coding.toNat_shards
  obtain ⟨bytes, hbytes, hlen, hcoded⟩ := foldlM_pushParity coding.parity.toNat
    (coded_dataShards data layout) hstart.ge (by
      show _ ≤ coding.shards.toNat
      rw [hshards, hstart])
  rw [hstart] at hbytes hlen
  have hbound : coding.shards.toNat < 256 := coding.shards.toNat_lt
  have hroots : ∀ root ∈ bytes.map (rootOf layout), isDigest root = true := by
    intro root hmem
    obtain ⟨shard, -, rfl⟩ := List.mem_map.mp hmem
    exact isDigest_rootOf layout shard
  have hcount : (bytes.map (rootOf layout)).length = layout.coding.shards.toNat := by
    rw [List.length_map, hlen]
    exact hshards.symm
  have hbuild : Manifest.build (digestOf data) layout (bytes.map (rootOf layout)) =
      .ok ⟨digestOf data, layout, bytes.map (rootOf layout), hcount, hroots⟩ := by
    rw [Manifest.build, dif_pos hcount, dif_pos hroots]
  refine ⟨⟨⟨digestOf data, layout, bytes.map (rootOf layout), hcount, hroots⟩,
      bytes.mapIdx fun index bytes => ⟨UInt8.ofNat index, bytes⟩⟩, ?_, rfl, rfl, rfl,
    fun shard => ⟨fun hmem => ?_, fun h => ?_⟩, fun index hindex => ?_⟩
  · rw [encode, hlayout]
    show ((List.range' coding.data.toNat coding.parity.toNat).foldlM
      (pushParity coding layout.shardLen) _ >>= _) = _
    rw [hbytes]
    show (bytes.mapM (shardRoot layout) >>= _) = _
    rw [mapM_shardRoot]
    show (Manifest.build _ _ _ >>= _) = _
    rw [hbuild]
    rfl
  · obtain ⟨i, hi, rfl⟩ := List.mem_mapIdx.mp hmem
    have := hcoded i hi
    rwa [List.getD_eq_getElem _ _ hi] at this
  · have hlt : shard.index.toNat < bytes.length := by
      rw [hlen, ← hshards]
      exact h.index_lt
    have hcodedShard := hcoded _ hlt
    rw [UInt8.ofNat_toNat, List.getD_eq_getElem _ _ hlt] at hcodedShard
    refine List.mem_mapIdx.mpr ⟨shard.index.toNat, hlt, ?_⟩
    rw [UInt8.ofNat_toNat]
    exact hcodedShard.unique h rfl
  · have hlt : index.toNat < bytes.length := by
      rw [hlen, ← hshards]
      exact hindex
    refine ⟨⟨index, bytes[index.toNat]⟩, List.mem_mapIdx.mpr ⟨_, hlt, ?_⟩, rfl, ?_⟩
    · rw [UInt8.ofNat_toNat]
    · rw [List.getElem?_map, List.getElem?_eq_getElem hlt]
      rfl

/-- What the manifest of an encoding accepts. -/
theorem verifyShard_iff {data : List UInt8} {layout : Layout} {encoded : Encoded}
    (h : Encodes data layout encoded) {shards : List UInt8 → Prop}
    (hcoll : Collisionless layout shards) (hshards : ∀ shard ∈ encoded.shards, shards shard.bytes)
    {shard : Shard} (hoffered : shards shard.bytes) :
    encoded.manifest.verifyShard shard = true ↔ shard ∈ encoded.shards := by
  have hroots : encoded.manifest.roots.length = layout.coding.shards.toNat := by
    rw [encoded.manifest.length_roots, h.layout_eq]
  rw [Manifest.verifyShard, h.layout_eq]
  by_cases hindex : shard.index.toNat < layout.coding.shards.toNat
  · obtain ⟨good, hgood, hsame, hroot⟩ := h.exists_shard shard.index hindex
    have hgoodLen := ((h.shards good).mp hgood).length
    simp only [hroot, shardRoot_eq]
    constructor
    · intro hverify
      split_ifs at hverify with hlen
      have hbytes := rootOf_inj hcoll hoffered (hshards good hgood) hlen hgoodLen
        (beq_iff_eq.mp hverify)
      have heq : shard = good := by
        cases shard
        cases good
        simp_all
      rwa [heq]
    · intro hmem
      have heq := ((h.shards shard).mp hmem).unique ((h.shards good).mp hgood) hsame.symm
      rw [heq, if_pos hgoodLen, beq_self_eq_true]
  · have hnone : encoded.manifest.roots[shard.index.toNat]? = none :=
      List.getElem?_eq_none (by omega)
    simp only [hnone, Bool.false_eq_true, false_iff]
    exact fun hmem => hindex ((h.shards shard).mp hmem).index_lt

end Digest

end Cairn.Ports.Shards
