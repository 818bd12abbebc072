import Cairn.Ports.Shards.Reconstruct
import Mathlib.Logic.Function.Basic

/-!
# Shards on disk

The store of `src/shards/store.rs`: a directory per blob with a manifest and
the shards filed under their indices. A shard is only meaningful against the
manifest, `put_manifest` replaces the manifest whenever the new one claims to
describe the address, and a read deletes the shard that does not rebuild its
root.

A write goes through a temporary name and a rename, so it happens or it does
not; `Disk.left` counts the writes that still succeed, and an operation that
meets a failing one stops there. Reads succeed, and so do deletions.
-/

namespace Cairn.Ports.Shards

open Cairn.Verified Cairn.Verified.Lines Cairn.Ports.Canonical

/-! ## The manifest as a value -/

def Manifest.toValue (manifest : Manifest) : Value :=
  .object [("chunk_len", u64Value (UInt64.ofNat manifest.layout.chunkLen)),
    ("data", u64Value manifest.coding.data.toUInt64), ("digest", .string manifest.digest),
    ("parity", u64Value manifest.coding.parity.toUInt64),
    ("shards", .array (manifest.roots.map .string)),
    ("total", u64Value (UInt64.ofNat manifest.layout.total))]

/-- A `u8` field, refused rather than truncated when it does not fit. -/
def small (value : Value) (field : String) : Except ShardError UInt8 := do
  let n ← okOr (.malformed field) ((value.get field).bind Value.asU64)
  if n.toNat < 256 then .ok (UInt8.ofNat n.toNat) else .error (.malformed field)

def Manifest.fromValue (value : Value) : Except ShardError Manifest := do
  let digest ← okOr (.malformed "digest") ((value.get "digest").bind Value.asStr)
  let total ← okOr (.malformed "total") ((value.get "total").bind Value.asU64)
  let data ← small value "data"
  let parity ← small value "parity"
  let chunkLen ← okOr (.malformed "chunk_len") ((value.get "chunk_len").bind Value.asU64)
  ensure (chunkLen.toNat < 2 ^ 32) (.malformed "chunk_len")
  let items ← okOr (.malformed "shards") ((value.get "shards").bind Value.asArray)
  let roots ← items.mapM fun item => okOr (.malformed "shards") item.asStr
  let coding ← Coding.new data parity
  Manifest.new digest total.toNat coding chunkLen.toNat roots

theorem Coding.new_self (coding : Coding) : Coding.new coding.data coding.parity = .ok coding := by
  rw [Coding.new, dif_neg coding.data_ne_zero, dif_neg coding.parity_ne_zero,
    dif_neg (Nat.not_lt.mpr coding.bounded)]

theorem Layout.new_self (layout : Layout) :
    Layout.new layout.total layout.coding layout.chunkLen = .ok layout := by
  rw [Layout.new, dif_neg (not_not.mpr layout.legal), dif_neg (Nat.not_lt.mpr layout.bounded)]

theorem Manifest.new_self (manifest : Manifest) :
    Manifest.new manifest.digest manifest.layout.total manifest.layout.coding
      manifest.layout.chunkLen manifest.roots = .ok manifest := by
  rw [Manifest.new, Layout.new_self]
  show Manifest.build _ _ _ = _
  rw [Manifest.build, dif_pos manifest.length_roots, dif_pos manifest.digest_roots]

theorem toNat_ofNat_layout (layout : Layout) : (UInt64.ofNat layout.chunkLen).toNat = layout.chunkLen ∧
    (UInt64.ofNat layout.total).toNat = layout.total ∧ layout.chunkLen < 2 ^ 32 := by
  have hchunk : layout.chunkLen ≤ 4194304 := layout.legal.2.1
  have htotal : layout.total ≤ 1073741824 := layout.bounded
  refine ⟨Nat.mod_eq_of_lt ?_, Nat.mod_eq_of_lt ?_, ?_⟩ <;> omega

theorem small_of_get {value : Value} {field : String} {n : UInt8}
    (h : value.get field = some (u64Value n.toUInt64)) : small value field = .ok n := by
  have hlt := n.toNat_lt
  rw [small, h, Option.bind_some, asU64_u64Value, okOr_some]
  show (if n.toUInt64.toNat < 256 then _ else _) = _
  rw [UInt8.toNat_toUInt64, if_pos hlt, UInt8.ofNat_toNat]

theorem Manifest.fromValue_toValue (manifest : Manifest) :
    Manifest.fromValue manifest.toValue = .ok manifest := by
  obtain ⟨hchunk, htotal, hlt⟩ := toNat_ofNat_layout manifest.layout
  have hget : ∀ key, manifest.toValue.get key = BTreeMap.lookupEntry key _ := Value.get_object _
  have hroots : (manifest.roots.map Value.string).mapM
      (fun item => okOr (.malformed "shards") item.asStr) =
        (.ok manifest.roots : Except ShardError _) := by
    rw [List.mapM_map]
    exact (mapM_eq_ok_map fun root _ => rfl).trans (congrArg Except.ok (List.map_id _))
  have hdata : small manifest.toValue "data" = .ok manifest.coding.data :=
    small_of_get (by simp [hget, BTreeMap.lookupEntry])
  have hparity : small manifest.toValue "parity" = .ok manifest.coding.parity :=
    small_of_get (by simp [hget, BTreeMap.lookupEntry])
  refine bind_eq_ok.mpr ⟨manifest.digest, by simp [hget, BTreeMap.lookupEntry], ?_⟩
  refine bind_eq_ok.mpr ⟨UInt64.ofNat manifest.layout.total,
    by simp [hget, BTreeMap.lookupEntry], ?_⟩
  refine bind_eq_ok.mpr ⟨_, hdata, bind_eq_ok.mpr ⟨_, hparity, ?_⟩⟩
  refine bind_eq_ok.mpr ⟨UInt64.ofNat manifest.layout.chunkLen,
    by simp [hget, BTreeMap.lookupEntry], bind_eq_ok.mpr ⟨(), ?_, ?_⟩⟩
  · rw [ensure_eq_ok, hchunk]
    exact hlt
  refine bind_eq_ok.mpr ⟨manifest.roots.map .string,
    by simp [hget, BTreeMap.lookupEntry], bind_eq_ok.mpr ⟨_, hroots, ?_⟩⟩
  refine bind_eq_ok.mpr ⟨_, manifest.coding.new_self, ?_⟩
  rw [hchunk, htotal]
  exact manifest.new_self

theorem Manifest.depth_toValue (manifest : Manifest) : manifest.toValue.depth ≤ MAX_DEPTH := by
  refine Value.depth_objectOf_le.mpr fun e he => ?_
  have hflat : e.2.depth ≤ 1 := by
    have hmem := BTreeMap.mem_of_get?_ofList (BTreeMap.get?_eq_some_iff.mpr he)
    simp only [List.mem_cons, List.not_mem_nil, or_false, Prod.mk.injEq] at hmem
    rcases hmem with ⟨-, h⟩ | ⟨-, h⟩ | ⟨-, h⟩ | ⟨-, h⟩ | ⟨-, h⟩ | ⟨-, h⟩ <;> rw [h]
    all_goals first
      | exact Nat.zero_le _
      | (refine Value.depth_array_le.mpr fun v hv => ?_
         obtain ⟨root, -, rfl⟩ := List.mem_map.mp hv
         exact le_rfl)
  exact (Nat.succ_le_succ hflat).trans (by decide)

/-! ## The disk -/

/-- The directory of one blob. Shard files are named by their index in three
digits, so a file is an index. -/
structure Dir where
  manifest : Option String
  shards : UInt8 → Option (List UInt8)

inductive ShardStoreError where
  | notAnAddress (address : String)
  | noManifest (address : String)
  | mismatched (address digest : String)
  | absent (address : String) (index : UInt8)
  | corrupt (address : String) (index : UInt8)
  | shards (error : ShardError)
  /-- A manifest that is not JSON; the source gives the text of the error. -/
  | notJson (address : String) (error : CanonicalError)
  | io

/-- A directory and how many writes to it still succeed. -/
structure Disk where
  dir : Dir
  left : Nat

/-- A write through a temporary name and a rename. -/
def Disk.write (disk : Disk) (change : Dir → Dir) : Except ShardStoreError Unit × Disk :=
  if disk.left = 0 then (.error .io, disk) else (.ok (), ⟨change disk.dir, disk.left - 1⟩)

def pathOf (address : String) : Except ShardStoreError Unit :=
  ensure (isHex64 address = true) (.notAnAddress address)

/-- The line `put_manifest` writes. -/
def Manifest.line (manifest : Manifest) : String := manifest.toValue.canonicalString.push '\n'

def putManifest (address : String) (manifest : Manifest) (disk : Disk) :
    Except ShardStoreError Unit × Disk :=
  match (do
    pathOf address
    ensure (manifest.describes address = true) (.mismatched address manifest.digest)) with
  | .error error => (.error error, disk)
  | .ok () => disk.write fun dir => { dir with manifest := some manifest.line }

/-- `ShardStore::manifest`. -/
def readManifest (address : String) (dir : Dir) : Except ShardStoreError Manifest := do
  pathOf address
  let text ← okOr (.noManifest address) dir.manifest
  let value ← (Value.fromJson (String.ofList (trim text.toList))).mapError (.notJson address)
  let manifest ← (Manifest.fromValue value).mapError .shards
  ensure (manifest.describes address = true) (.mismatched address manifest.digest)
  pure manifest

/-- Which shard indices are on disk, ascending. -/
def held (address : String) (dir : Dir) : List UInt8 :=
  if isHex64 address then
    ((List.range 256).map UInt8.ofNat).filter fun index => (dir.shards index).isSome
  else []

/-- Two rejection lists into one, sorted and without repeats. -/
def merge (one two : List UInt8) : List UInt8 := ((one ++ two).insertionSort (· ≤ ·)).dedup

section Digest

variable [Sha256]

def putShardAgainst (address : String) (manifest : Manifest) (shard : Shard) (disk : Disk) :
    Except ShardStoreError Unit × Disk :=
  match (do
    pathOf address
    ensure (manifest.describes address = true) (.mismatched address manifest.digest)
    ensure (shard.index.toNat < manifest.roots.length)
      (.shards (.noSuchShard shard.index manifest.coding.shards))
    ensure (manifest.verifyShard shard = true) (.corrupt address shard.index)) with
  | .error error => (.error error, disk)
  | .ok () => disk.write fun dir =>
    { dir with shards := Function.update dir.shards shard.index (some shard.bytes) }

def putShard (address : String) (shard : Shard) (disk : Disk) :
    Except ShardStoreError Unit × Disk :=
  match readManifest address disk.dir with
  | .error error => (.error error, disk)
  | .ok manifest => putShardAgainst address manifest shard disk

/-- The loop of `put_all`. -/
def putShards (address : String) (manifest : Manifest) :
    List Shard → Nat → Disk → Except ShardStoreError Nat × Disk
  | [], written, disk => (.ok written, disk)
  | shard :: shards, written, disk =>
    match putShardAgainst address manifest shard disk with
    | (.error error, disk) => (.error error, disk)
    | (.ok (), disk) => putShards address manifest shards (written + 1) disk

def putAll (address : String) (manifest : Manifest) (shards : List Shard) (disk : Disk) :
    Except ShardStoreError Nat × Disk :=
  match putManifest address manifest disk with
  | (.error error, disk) => (.error error, disk)
  | (.ok (), disk) => putShards address manifest shards 0 disk

/-- A shard read back; the file goes when it does not rebuild its root. -/
def shardAgainst (address : String) (manifest : Manifest) (index : UInt8) (dir : Dir) :
    Except ShardStoreError Shard × Dir :=
  match pathOf address with
  | .error error => (.error error, dir)
  | .ok () =>
    match dir.shards index with
    | none => (.error (.absent address index), dir)
    | some bytes =>
      if bytes.length ≠ manifest.layout.shardLen then
        (.error (.corrupt address index),
          { dir with shards := Function.update dir.shards index none })
      else if manifest.verifyShard ⟨index, bytes⟩ then (.ok ⟨index, bytes⟩, dir)
      else
        (.error (.corrupt address index),
          { dir with shards := Function.update dir.shards index none })

/-- `ShardStore::shard`. -/
def readShard (address : String) (index : UInt8) (dir : Dir) :
    Except ShardStoreError Shard × Dir :=
  match readManifest address dir with
  | .error error => (.error error, dir)
  | .ok manifest => shardAgainst address manifest index dir

/-- The loop of `ShardStore::reconstruct` over the held indices. -/
def collect (address : String) (manifest : Manifest) :
    List UInt8 → List Shard → List UInt8 → Dir →
      Except ShardStoreError (List Shard × List UInt8) × Dir
  | [], offered, rotted, dir => (.ok (offered, rotted), dir)
  | index :: indices, offered, rotted, dir =>
    match shardAgainst address manifest index dir with
    | (.ok shard, dir) => collect address manifest indices (offered ++ [shard]) rotted dir
    | (.error (.corrupt ..), dir) =>
      collect address manifest indices offered (rotted ++ [index]) dir
    | (.error (.absent ..), dir) => collect address manifest indices offered rotted dir
    | (.error error, dir) => (.error error, dir)

/-- `ShardStore::reconstruct`. -/
def rebuild (address : String) (dir : Dir) : Except ShardStoreError Reconstruction × Dir :=
  match readManifest address dir with
  | .error error => (.error error, dir)
  | .ok manifest =>
    match collect address manifest (held address dir) [] [] dir with
    | (.error error, dir) => (.error error, dir)
    | (.ok (offered, rotted), dir) =>
      match reconstruct manifest offered with
      | .ok out => (.ok { out with rejected := merge out.rejected rotted }, dir)
      | .error (.notEnoughShards got need rejected) =>
        (.error (.shards (.notEnoughShards got need (merge rejected rotted))), dir)
      | .error error => (.error (.shards error), dir)

/-! ## Calls -/

/-- A call on the store, with the number of its writes that succeed. -/
inductive Call where
  | putManifest (address : String) (manifest : Manifest) (writes : Nat)
  | putShard (address : String) (shard : Shard) (writes : Nat)
  | putAll (address : String) (manifest : Manifest) (shards : List Shard) (writes : Nat)
  | held (address : String)
  | shard (address : String) (index : UInt8)
  | reconstruct (address : String)

def Call.address : Call → String
  | .putManifest address .. | .putShard address .. | .putAll address .. | .held address
  | .shard address _ | .reconstruct address => address

/-- What a call leaves in the directory it is about. -/
def Call.apply (dir : Dir) : Call → Dir
  | .putManifest address manifest writes => (Shards.putManifest address manifest ⟨dir, writes⟩).2.dir
  | .putShard address given writes => (Shards.putShard address given ⟨dir, writes⟩).2.dir
  | .putAll address manifest given writes =>
    (Shards.putAll address manifest given ⟨dir, writes⟩).2.dir
  | .held _ => dir
  | .shard address index => (readShard address index dir).2
  | .reconstruct address => (rebuild address dir).2

/-- The store: a directory per address. -/
abbrev Store := String → Dir

def step (store : Store) (call : Call) : Store :=
  Function.update store call.address (call.apply (store call.address))

/-! ## What a read leaves -/

/-- The shard filed under this index, where the manifest accepts it. -/
def accepted (manifest : Manifest) (dir : Dir) (index : UInt8) : Option Shard :=
  (dir.shards index).bind fun bytes =>
    if manifest.verifyShard ⟨index, bytes⟩ then some ⟨index, bytes⟩ else none

def allIndices : List UInt8 := (List.range 256).map UInt8.ofNat

/-- The shards `reconstruct` is given. -/
def acceptedShards (manifest : Manifest) (dir : Dir) : List Shard :=
  allIndices.filterMap (accepted manifest dir)

/-- `dir'` is `dir` less some files the manifest rejects. -/
def Sheds (manifest : Manifest) (dir dir' : Dir) : Prop :=
  dir'.manifest = dir.manifest ∧ ∀ index, dir'.shards index = dir.shards index ∨
    dir'.shards index = none ∧ accepted manifest dir index = none

theorem Sheds.refl (manifest : Manifest) (dir : Dir) : Sheds manifest dir dir :=
  ⟨rfl, fun _ => .inl rfl⟩

variable {dir' : Dir} {manifest : Manifest} {index : UInt8} {shard : Shard}

variable {dir : Dir} {address : String} {data : List UInt8}

theorem Sheds.accepted_eq (h : Sheds manifest dir dir') :
    accepted manifest dir' = accepted manifest dir := by
  funext index
  rcases h.2 index with heq | ⟨hnone, hrejected⟩
  · rw [accepted, heq, accepted]
  · rw [hrejected, accepted, hnone, Option.bind_none]

theorem Sheds.trans {dir₁ dir₂ dir₃ : Dir} (h : Sheds manifest dir₁ dir₂)
    (h' : Sheds manifest dir₂ dir₃) : Sheds manifest dir₁ dir₃ := by
  refine ⟨h'.1.trans h.1, fun index => ?_⟩
  rw [← h.accepted_eq]
  rcases h'.2 index with heq | hgone
  · rw [heq]
    rcases h.2 index with heq' | ⟨hnone, hrejected⟩
    · exact .inl heq'
    · exact .inr ⟨hnone, by rwa [h.accepted_eq]⟩
  · exact .inr hgone

/-- What a read of one shard answers and leaves. -/
theorem shardAgainst_spec (haddress : isHex64 address = true)
    (manifest : Manifest) (index : UInt8) (dir : Dir) :
    Sheds manifest dir (shardAgainst address manifest index dir).2 ∧
      (shardAgainst address manifest index dir).1 = match accepted manifest dir index with
        | some shard => .ok shard
        | none => .error (if (dir.shards index).isSome then .corrupt address index
            else .absent address index) := by
  have hpath : pathOf address = .ok () := ensure_eq_ok.mpr haddress
  cases hfile : dir.shards index with
  | none =>
    simp [shardAgainst, hpath, hfile, accepted, Sheds.refl]
  | some bytes =>
    have hremoved : accepted manifest dir index = none → Sheds manifest dir
        { dir with shards := Function.update dir.shards index none } := by
      refine fun hrejected => ⟨rfl, fun i => ?_⟩
      by_cases hi : i = index
      · subst hi
        exact .inr ⟨Function.update_self .., hrejected⟩
      · exact .inl (Function.update_of_ne hi ..)
    by_cases hverify : manifest.verifyShard ⟨index, bytes⟩ = true
    · have hlen : bytes.length = manifest.layout.shardLen := by
        unfold Manifest.verifyShard at hverify
        split at hverify
        · exact absurd hverify (by decide)
        · split_ifs at hverify with hlen
          exact hlen
      simp [shardAgainst, hpath, hfile, accepted, hverify, hlen, Sheds.refl]
    · have hrejected : accepted manifest dir index = none := by
        simp [accepted, hfile, hverify]
      have hresult : shardAgainst address manifest index dir =
          (.error (.corrupt address index),
            { dir with shards := Function.update dir.shards index none }) := by
        by_cases hlen : bytes.length = manifest.layout.shardLen
        · simp [shardAgainst, hpath, hfile, hlen, hverify]
        · simp [shardAgainst, hpath, hfile, hlen]
      rw [hresult, hrejected]
      exact ⟨hremoved hrejected, rfl⟩

theorem collect_spec (haddress : isHex64 address = true) (manifest : Manifest) :
    ∀ (indices : List UInt8) (offered : List Shard) (rotted : List UInt8) (dir : Dir),
      Sheds manifest dir (collect address manifest indices offered rotted dir).2 ∧
      ∃ rotted', (collect address manifest indices offered rotted dir).1 =
        .ok (offered ++ indices.filterMap (accepted manifest dir), rotted')
  | [], offered, rotted, dir => ⟨Sheds.refl manifest dir, rotted, by simp [collect]⟩
  | index :: indices, offered, rotted, dir => by
      obtain ⟨hsheds, hresult⟩ := shardAgainst_spec haddress manifest index dir
      generalize hread : shardAgainst address manifest index dir = outcome at hsheds hresult
      obtain ⟨result, dir₁⟩ := outcome
      cases haccepted : accepted manifest dir index with
      | some shard =>
        rw [haccepted] at hresult
        obtain rfl : result = .ok shard := hresult
        obtain ⟨hsheds', rotted', hrun⟩ :=
          collect_spec haddress manifest indices (offered ++ [shard]) rotted dir₁
        rw [collect, hread, List.filterMap_cons_some haccepted]
        refine ⟨hsheds.trans hsheds', rotted', ?_⟩
        rw [hrun, hsheds.accepted_eq, List.append_assoc]
        rfl
      | none =>
        rw [haccepted] at hresult
        rw [collect, hread, List.filterMap_cons_none haccepted]
        by_cases hfile : (dir.shards index).isSome = true
        · simp only [if_pos hfile] at hresult
          subst hresult
          obtain ⟨hsheds', rotted', hrun⟩ :=
            collect_spec haddress manifest indices offered (rotted ++ [index]) dir₁
          exact ⟨hsheds.trans hsheds', rotted', by rw [hrun, hsheds.accepted_eq]⟩
        · simp only [if_neg hfile] at hresult
          subst hresult
          obtain ⟨hsheds', rotted', hrun⟩ :=
            collect_spec haddress manifest indices offered rotted dir₁
          exact ⟨hsheds.trans hsheds', rotted', by rw [hrun, hsheds.accepted_eq]⟩

/-- The blob `data` is what `reconstruct` would return. -/
def Rebuilds (address : String) (data : List UInt8) (dir : Dir) : Prop :=
  ∃ out, (rebuild address dir).1 = .ok out ∧ out.data = data

theorem acceptedShards_eq (haddress : isHex64 address = true)
    (manifest : Manifest) (dir : Dir) :
    (held address dir).filterMap (accepted manifest dir) = acceptedShards manifest dir := by
  rw [held, if_pos haddress, List.filterMap_filter, acceptedShards]
  refine List.filterMap_congr fun index _ => ?_
  split_ifs with hfile
  · rfl
  · rw [accepted, Option.not_isSome_iff_eq_none.mp hfile, Option.bind_none]

omit [Sha256] in
theorem isHex64_of_readManifest
    (h : readManifest address dir = .ok manifest) :
    isHex64 address = true ∧ manifest.describes address = true := by
  obtain ⟨_, haddress, h⟩ := bind_eq_ok.mp h
  obtain ⟨_, _, h⟩ := bind_eq_ok.mp h
  obtain ⟨_, _, h⟩ := bind_eq_ok.mp h
  obtain ⟨_, _, h⟩ := bind_eq_ok.mp h
  obtain ⟨_, hdescribes, h⟩ := bind_eq_ok.mp h
  cases h
  exact ⟨ensure_eq_ok.mp haddress, ensure_eq_ok.mp hdescribes⟩

/-- What rebuilding the blob answers and leaves. -/
theorem rebuild_spec (h : readManifest address dir = .ok manifest) :
    Sheds manifest dir (rebuild address dir).2 ∧ ∃ rotted, (rebuild address dir).1 =
      match reconstruct manifest (acceptedShards manifest dir) with
      | .ok out => .ok { out with rejected := merge out.rejected rotted }
      | .error (.notEnoughShards got need rejected) =>
        .error (.shards (.notEnoughShards got need (merge rejected rotted)))
      | .error error => .error (.shards error) := by
  have haddress := (isHex64_of_readManifest h).1
  obtain ⟨hsheds, rotted, hcollect⟩ := collect_spec haddress manifest (held address dir) [] [] dir
  rw [acceptedShards_eq haddress, List.nil_append] at hcollect
  generalize hrun : collect address manifest (held address dir) [] [] dir = outcome at *
  obtain ⟨result, dir'⟩ := outcome
  obtain rfl : result = _ := hcollect
  simp only [rebuild, h, hrun]
  refine ⟨?_, rotted, ?_⟩ <;> split <;> first | exact hsheds | rfl

theorem rebuilds_iff :
    Rebuilds address data dir ↔ ∃ manifest out, readManifest address dir = .ok manifest ∧
      reconstruct manifest (acceptedShards manifest dir) = .ok out ∧ out.data = data := by
  cases hread : readManifest address dir with
  | error error => simp [Rebuilds, rebuild, hread]
  | ok manifest =>
    obtain ⟨-, rotted, hresult⟩ := rebuild_spec hread
    rw [Rebuilds, hresult]
    cases hrun : reconstruct manifest (acceptedShards manifest dir) with
    | ok out => simp [hrun]
    | error error => cases error <;> simp [hrun]

/-- Losing rejected files loses nothing. -/
theorem Sheds.rebuilds
    (hread : readManifest address dir = .ok manifest) (h : Sheds manifest dir dir')
    (hrebuilds : Rebuilds address data dir) : Rebuilds address data dir' := by
  have hread' : readManifest address dir' = .ok manifest := by
    rw [← hread, readManifest, readManifest, h.1]
  rw [rebuilds_iff] at hrebuilds ⊢
  obtain ⟨filed, out, hfiled, hrun, hdata⟩ := hrebuilds
  rw [hread] at hfiled
  cases hfiled
  refine ⟨manifest, out, hread', ?_, hdata⟩
  rwa [acceptedShards, h.accepted_eq]

/-- What is read back under an index rebuilds the root filed for it. -/
theorem readShard_eq_ok
    (h : (readShard address index dir).1 = .ok shard) :
    ∃ manifest, readManifest address dir = .ok manifest ∧ shard.index = index ∧
      dir.shards index = some shard.bytes ∧ manifest.verifyShard shard = true := by
  cases hread : readManifest address dir with
  | error error => simp [readShard, hread] at h
  | ok manifest =>
    obtain ⟨-, hresult⟩ := shardAgainst_spec (isHex64_of_readManifest hread).1 manifest index dir
    simp only [readShard, hread, hresult] at h
    cases haccepted : accepted manifest dir index with
    | none => simp [haccepted] at h
    | some good =>
      rw [haccepted] at h
      cases h
      rw [accepted, Option.bind_eq_some_iff] at haccepted
      obtain ⟨bytes, hfile, hif⟩ := haccepted
      split_ifs at hif with hverify
      cases hif
      exact ⟨manifest, rfl, rfl, hfile, hverify⟩

/-! ## What a write leaves -/

omit [Sha256] in
theorem trim_line (manifest : Manifest) :
    trim manifest.line.toList = manifest.toValue.canonicalString.toList := by
  obtain ⟨hhead, hlast⟩ : BraceDelimited manifest.toValue.canonicalString :=
    braceDelimited_canonicalString _
  have hhead' : (manifest.toValue.canonicalString.toList ++ ['\n']).head? = some '{' := by
    rw [List.head?_append, hhead]
    rfl
  have hrev : manifest.toValue.canonicalString.toList.reverse.head? = some '}' := by
    rw [List.head?_reverse, hlast]
  rw [Manifest.line, String.toList_push, trim, trimStart,
    dropWhile_of_head hhead' (by decide), trimEnd, List.reverse_append, List.reverse_singleton,
    List.singleton_append, List.dropWhile_cons_of_pos (by decide),
    dropWhile_of_head hrev (by decide), List.reverse_reverse]

omit [Sha256] in
/-- The manifest filed is the one read back. -/
theorem readManifest_line (haddress : isHex64 address = true)
    (hdescribes : manifest.describes address = true) (hfile : dir.manifest = some manifest.line) :
    readManifest address dir = .ok manifest := by
  refine bind_eq_ok.mpr ⟨(), ensure_eq_ok.mpr haddress, ?_⟩
  refine bind_eq_ok.mpr ⟨manifest.line, by rw [hfile, okOr_some], ?_⟩
  refine bind_eq_ok.mpr ⟨manifest.toValue, mapError_eq_ok.mpr ?_, ?_⟩
  · rw [trim_line, String.ofList_toList]
    exact Value.fromJson_canonicalString _ manifest.depth_toValue
  · exact bind_eq_ok.mpr ⟨manifest, mapError_eq_ok.mpr manifest.fromValue_toValue,
      bind_eq_ok.mpr ⟨(), ensure_eq_ok.mpr hdescribes, rfl⟩⟩

omit [Sha256] in
/-- What `put_manifest` can do to the directory. -/
theorem putManifest_cases (address : String) (manifest : Manifest) (disk : Disk) :
    (∃ error, putManifest address manifest disk = (.error error, disk)) ∨
    isHex64 address = true ∧ manifest.describes address = true ∧
      putManifest address manifest disk =
        (.ok (), ⟨{ disk.dir with manifest := some manifest.line }, disk.left - 1⟩) := by
  unfold putManifest
  split
  · next error _ => exact .inl ⟨error, rfl⟩
  · next h =>
      obtain ⟨_, haddress, hdescribes⟩ := bind_eq_ok.mp h
      unfold Disk.write
      split_ifs
      · exact .inl ⟨.io, rfl⟩
      · exact .inr ⟨ensure_eq_ok.mp haddress, ensure_eq_ok.mp hdescribes, rfl⟩

/-- What putting one shard can do to the directory. -/
theorem putShardAgainst_cases (address : String) (manifest : Manifest) (shard : Shard)
    (disk : Disk) :
    (∃ error, putShardAgainst address manifest shard disk = (.error error, disk)) ∨
    manifest.verifyShard shard = true ∧ putShardAgainst address manifest shard disk =
      (.ok (), ⟨{ disk.dir with
        shards := Function.update disk.dir.shards shard.index (some shard.bytes) },
        disk.left - 1⟩) := by
  unfold putShardAgainst
  split
  · next error _ => exact .inl ⟨error, rfl⟩
  · next h =>
      obtain ⟨_, _, h⟩ := bind_eq_ok.mp h
      obtain ⟨_, _, h⟩ := bind_eq_ok.mp h
      obtain ⟨_, _, hverify⟩ := bind_eq_ok.mp h
      unfold Disk.write
      split_ifs
      · exact .inl ⟨.io, rfl⟩
      · exact .inr ⟨ensure_eq_ok.mp hverify, rfl⟩

/-! ## What keeps a blob -/

/-- The manifest's root for this index is the one encoding the blob gives. -/
def HonestAt (data : List UInt8) (manifest : Manifest) (index : UInt8) : Prop :=
  ∃ encoded, encode data manifest.coding manifest.layout.chunkLen = .ok encoded ∧
    manifest.roots[index.toNat]? = encoded.manifest.roots[index.toNat]?

/-- The shard is filed already, or the manifest is honest about it and about
every shard on disk that it accepts. -/
def Trusted (data : List UInt8) (manifest : Manifest) (dir : Dir) (shard : Shard) : Prop :=
  (accepted manifest dir shard.index).isSome ∨ HonestAt data manifest shard.index ∧
    ∀ index, (accepted manifest dir index).isSome → HonestAt data manifest index

/-- The manifest has the layout of the one filed, and its root for every shard
on disk. -/
def SameAtHeld (address : String) (manifest : Manifest) (dir : Dir) : Prop :=
  ∀ filed, readManifest address dir = .ok filed → manifest.layout = filed.layout ∧
    ∀ index, (dir.shards index).isSome →
      manifest.roots[index.toNat]? = filed.roots[index.toNat]?

/-- The calls that keep the blob `data` under `address`, judged by what they
bring and what is on disk before them. -/
def Keeps (address : String) (data : List UInt8) (dir : Dir) : Call → Prop
  | .putManifest _ manifest _ =>
    manifest.describes address = true → SameAtHeld address manifest dir
  | .putShard _ given _ => ∀ filed, readManifest address dir = .ok filed →
      filed.verifyShard given = true → Trusted data filed dir given
  | .putAll _ manifest given _ => manifest.describes address = true →
      SameAtHeld address manifest dir ∧ ∀ shard ∈ given,
        manifest.verifyShard shard = true → Trusted data manifest dir shard
  | .held _ | .shard .. | .reconstruct _ => True

theorem verifyShard_congr {manifest' : Manifest} (hlayout : manifest'.layout = manifest.layout)
    (hroot : manifest'.roots[shard.index.toNat]? = manifest.roots[shard.index.toNat]?) :
    manifest'.verifyShard shard = manifest.verifyShard shard := by
  rw [Manifest.verifyShard, Manifest.verifyShard, hlayout, hroot]

/-- A run depends on the manifest through its layout, what it describes and
what it accepts of the offered shards. -/
theorem reconstruct_congr {manifest' : Manifest} {offered : List Shard}
    (hlayout : manifest'.layout = manifest.layout)
    (hdescribes : ∀ text, manifest'.describes text = manifest.describes text)
    (hverify : ∀ shard ∈ offered, manifest'.verifyShard shard = manifest.verifyShard shard)
    {out : Reconstruction} (h : reconstruct manifest offered = .ok out) :
    reconstruct manifest' offered = .ok out := by
  have hsieve : ∀ (offered : List Shard) (state : Sieve),
      (∀ shard ∈ offered, manifest'.verifyShard shard = manifest.verifyShard shard) →
      offered.foldl (sieve manifest') state = offered.foldl (sieve manifest) state := by
    intro offered
    induction offered with
    | nil => exact fun _ _ => rfl
    | cons shard offered ih =>
      intro state hall
      have hstep : sieve manifest' state shard = sieve manifest state shard := by
        rw [sieve, sieve, hall shard List.mem_cons_self]
      rw [List.foldl_cons, List.foldl_cons, hstep,
        ih _ fun s hs => hall s (List.mem_cons_of_mem shard hs)]
  have hcoding : manifest'.coding = manifest.coding := congrArg Layout.coding hlayout
  obtain ⟨_, henough, h⟩ := bind_eq_ok.mp h
  obtain ⟨recovered, hrecover, h⟩ := bind_eq_ok.mp h
  obtain ⟨_, hlong, h⟩ := bind_eq_ok.mp h
  obtain ⟨_, hdigest, h⟩ := bind_eq_ok.mp h
  rw [ensure_eq_ok] at henough hlong hdigest
  simp only [reconstruct, hsieve offered _ hverify, hcoding, hlayout]
  refine bind_eq_ok.mpr ⟨(), ensure_eq_ok.mpr henough, bind_eq_ok.mpr ⟨_, hrecover,
    bind_eq_ok.mpr ⟨(), ensure_eq_ok.mpr hlong, bind_eq_ok.mpr ⟨(), ?_, h⟩⟩⟩⟩
  rw [ensure_eq_ok, hdescribes]
  exact hdigest

theorem index_of_accepted (h : accepted manifest dir index = some shard) :
    shard.index = index ∧
      dir.shards index = some shard.bytes ∧ manifest.verifyShard shard = true := by
  rw [accepted, Option.bind_eq_some_iff] at h
  obtain ⟨bytes, hfile, hif⟩ := h
  split_ifs at hif with hverify
  cases hif
  exact ⟨rfl, hfile, hverify⟩

theorem mem_acceptedShards :
    shard ∈ acceptedShards manifest dir ↔ accepted manifest dir shard.index = some shard := by
  rw [acceptedShards, List.mem_filterMap]
  constructor
  · rintro ⟨index, -, haccepted⟩
    rwa [(index_of_accepted haccepted).1]
  · refine fun h => ⟨shard.index, List.mem_map.mpr ⟨shard.index.toNat, ?_, UInt8.ofNat_toNat⟩, h⟩
    exact List.mem_range.mpr shard.index.toNat_lt

theorem mem_acceptedIndices :
    index ∈ acceptedIndices manifest (acceptedShards manifest dir) ↔
      (accepted manifest dir index).isSome := by
  simp only [acceptedIndices, List.mem_dedup, List.mem_map, List.mem_filter, mem_acceptedShards]
  constructor
  · rintro ⟨shard, ⟨haccepted, -⟩, rfl⟩
    rw [haccepted]
    rfl
  · intro h
    obtain ⟨shard, hshard⟩ := Option.isSome_iff_exists.mp h
    obtain ⟨hindex, -, hverify⟩ := index_of_accepted hshard
    exact ⟨shard, ⟨by rwa [hindex], hverify⟩, hindex⟩

/-- An honest root is rebuilt by the blob's own shard alone. -/
theorem isShard_of_honest {bytes : List UInt8 → Prop}
    (htotal : manifest.layout.total = data.length) (hcoll : Collisionless manifest.layout bytes)
    (hencoded : ∀ shard, IsShard data manifest.layout shard → bytes shard.bytes)
    (hbytes : bytes shard.bytes) (hverify : manifest.verifyShard shard = true)
    (hhonest : HonestAt data manifest shard.index) : IsShard data manifest.layout shard := by
  obtain ⟨encoded, hencode, hroot⟩ := hhonest
  have hlength : data.length ≤ MAX_CODED_BYTES := htotal ▸ manifest.layout.bounded
  obtain ⟨encoded', hencode', hspec⟩ := encode_spec manifest.coding hlength manifest.layout.legal
  rw [hencode] at hencode'
  cases hencode'
  have hlayout : (⟨data.length, manifest.coding, manifest.layout.chunkLen, manifest.layout.legal,
      hlength⟩ : Layout) = manifest.layout := by
    rw [Layout.mk.injEq]
    exact ⟨htotal.symm, rfl, rfl⟩
  rw [hlayout] at hspec
  refine (hspec.shards shard).mp ((verifyShard_iff hspec hcoll
    (fun good hgood => hencoded good ((hspec.shards good).mp hgood)) hbytes).mp ?_)
  rw [← hverify]
  exact verifyShard_congr hspec.layout_eq hroot.symm

/-- What holds of a directory through a run that keeps its blob. -/
structure Kept (address : String) (data : List UInt8) (layout : Layout)
    (bytes : List UInt8 → Prop) (dir : Dir) : Prop where
  rebuilds : Rebuilds address data dir
  layout_eq : ∀ filed, readManifest address dir = .ok filed → filed.layout = layout
  files : ∀ index file, dir.shards index = some file → bytes file

variable {address : String} {data : List UInt8} {layout : Layout} {bytes : List UInt8 → Prop}
  {dir : Dir}

theorem Kept.putManifest (h : Kept address data layout bytes dir)
    (haddress : isHex64 address = true) (hdescribes : manifest.describes address = true)
    (hsame : SameAtHeld address manifest dir) :
    Kept address data layout bytes { dir with manifest := some manifest.line } := by
  obtain ⟨filed, out, hread, hrun, hdata⟩ := rebuilds_iff.mp h.rebuilds
  obtain ⟨hlayout, hroots⟩ := hsame filed hread
  have hread' : readManifest address { dir with manifest := some manifest.line } = .ok manifest :=
    readManifest_line haddress hdescribes rfl
  have hverify : ∀ index file, dir.shards index = some file →
      manifest.verifyShard ⟨index, file⟩ = filed.verifyShard ⟨index, file⟩ :=
    fun index file hfile => verifyShard_congr hlayout (hroots index (by rw [hfile]; rfl))
  have haccepted : acceptedShards manifest { dir with manifest := some manifest.line } =
      acceptedShards filed dir := by
    refine List.filterMap_congr fun index _ => ?_
    show (dir.shards index).bind _ = (dir.shards index).bind _
    cases hfile : dir.shards index with
    | none => rfl
    | some file => rw [Option.bind_some, Option.bind_some, hverify index file hfile]
  have hspelled : ∀ text, manifest.describes text = filed.describes text := by
    intro text
    have hnew := of_decide_eq_true hdescribes
    have hold := of_decide_eq_true (isHex64_of_readManifest hread).2
    rw [Manifest.describes, Manifest.describes, ← hnew, ← hold]
  refine ⟨rebuilds_iff.mpr ⟨manifest, out, hread', ?_, hdata⟩, fun filed' hread'' => ?_, h.files⟩
  · rw [haccepted]
    refine reconstruct_congr hlayout hspelled (fun shard hmem => ?_) hrun
    obtain ⟨-, hfile, -⟩ := index_of_accepted (mem_acceptedShards.mp hmem)
    exact hverify shard.index shard.bytes hfile
  · rw [hread'] at hread''
    cases hread''
    exact hlayout.trans (h.layout_eq filed hread)

theorem Kept.putShard (h : Kept address data layout bytes dir) (hcoll : Collisionless layout bytes)
    (hencoded : ∀ shard, IsShard data layout shard → bytes shard.bytes)
    (hread : readManifest address dir = .ok manifest) (hbytes : bytes shard.bytes)
    (hverify : manifest.verifyShard shard = true) (htrusted : Trusted data manifest dir shard) :
    Kept address data layout bytes
      { dir with shards := Function.update dir.shards shard.index (some shard.bytes) } := by
  obtain ⟨filed, out, hfiled, hrun, rfl⟩ := rebuilds_iff.mp h.rebuilds
  rw [hread] at hfiled
  cases hfiled
  obtain rfl := h.layout_eq manifest hread
  have hlens : ∀ {s : Shard}, manifest.verifyShard s = true → s.bytes.length =
      manifest.layout.shardLen ∧
      manifest.roots[s.index.toNat]? = some (rootOf manifest.layout s.bytes) := by
    intro s hs
    unfold Manifest.verifyShard at hs
    split at hs
    · exact absurd hs (by decide)
    · next expected hroot =>
        split_ifs at hs with hlen
        rw [shardRoot_eq] at hs
        exact ⟨hlen, by rw [hroot, beq_iff_eq.mp hs]⟩
  rcases htrusted with hfiled | ⟨hhonest, hall⟩
  · -- the same root, so the same bytes
    obtain ⟨old, hold⟩ := Option.isSome_iff_exists.mp hfiled
    obtain ⟨hindex, hfile, hverifyOld⟩ := index_of_accepted hold
    have hroot := (hlens hverifyOld).2
    rw [hindex, (hlens hverify).2] at hroot
    have heq := rootOf_inj hcoll hbytes (h.files _ _ hfile) (hlens hverify).1 (hlens hverifyOld).1
      (Option.some.inj hroot)
    have hsame : Function.update dir.shards shard.index (some shard.bytes) = dir.shards := by
      rw [heq, ← hfile, Function.update_eq_self]
    rw [hsame]
    exact h
  · obtain ⟨henough, htotal, hdescribes⟩ := reconstruct_eq_ok hrun
    generalize hdir : ({ dir with
      shards := Function.update dir.shards shard.index (some shard.bytes) } : Dir) = dir'
    have hshard : dir'.shards shard.index = some shard.bytes := by
      rw [← hdir]
      exact Function.update_self ..
    have hothers : ∀ index, index ≠ shard.index → dir'.shards index = dir.shards index := by
      intro index hne
      rw [← hdir]
      exact Function.update_of_ne hne ..
    have hself : accepted manifest dir' shard.index = some shard := by
      rw [accepted, hshard, Option.bind_some, if_pos hverify]
    have hother : ∀ index, index ≠ shard.index →
        accepted manifest dir' index = accepted manifest dir index := by
      intro index hne
      rw [accepted, hothers index hne, accepted]
    have hfiles : ∀ index file, dir'.shards index = some file → bytes file := by
      intro index file hfile
      by_cases hne : index = shard.index
      · rw [hne, hshard, Option.some.injEq] at hfile
        rwa [← hfile]
      · rw [hothers index hne] at hfile
        exact h.files index file hfile
    have hgood : ∀ s ∈ acceptedShards manifest dir', manifest.verifyShard s = true →
        IsShard out.data manifest.layout s := by
      intro s hs hsv
      have haccepted := mem_acceptedShards.mp hs
      refine isShard_of_honest htotal.symm hcoll hencoded
        (hfiles _ _ (index_of_accepted haccepted).2.1) hsv ?_
      by_cases hne : s.index = shard.index
      · rwa [hne]
      · rw [hother _ hne] at haccepted
        exact hall s.index (by rw [haccepted]; rfl)
    have hread' : readManifest address dir' = .ok manifest := by
      rw [← hread, ← hdir]
      rfl
    refine ⟨?_, fun filed hfiled => ?_, hfiles⟩
    · obtain ⟨rejected, -, -, hanswer⟩ := reconstruct_of_accepted htotal.symm hdescribes hgood
      have hmore : (acceptedIndices manifest (acceptedShards manifest dir)).length ≤
          (acceptedIndices manifest (acceptedShards manifest dir')).length := by
        have hsub : acceptedIndices manifest (acceptedShards manifest dir) ⊆
            acceptedIndices manifest (acceptedShards manifest dir') := by
          intro index hindex
          rw [mem_acceptedIndices] at hindex ⊢
          by_cases hne : index = shard.index
          · rw [hne, hself]
            rfl
          · rwa [hother _ hne]
        exact (List.subperm_of_subset (List.nodup_dedup _) hsub).length_le
      rw [if_pos (henough.trans hmore)] at hanswer
      obtain ⟨used, hanswer, -⟩ := hanswer
      exact rebuilds_iff.mpr ⟨manifest, _, hread', hanswer, rfl⟩
    · rw [hread'] at hfiled
      cases hfiled
      rfl

/-- The shards a call brings. -/
def Call.shards : Call → List Shard
  | .putShard _ given _ => [given]
  | .putAll _ _ given _ => given
  | .putManifest .. | .held _ | .shard .. | .reconstruct _ => []

theorem accepted_put (hverify : manifest.verifyShard shard = true) (index : UInt8) :
    accepted manifest
      { dir with shards := Function.update dir.shards shard.index (some shard.bytes) } index =
        if index = shard.index then some shard else accepted manifest dir index := by
  split_ifs with hindex
  · show (Function.update dir.shards shard.index (some shard.bytes) index).bind _ = _
    rw [hindex, Function.update_self, Option.bind_some, if_pos hverify]
  · show (Function.update dir.shards shard.index (some shard.bytes) index).bind _ = _
    rw [Function.update_of_ne hindex, accepted]

/-- A trusted shard leaves the others trusted. -/
theorem Trusted.put {other : Shard} (hverify : manifest.verifyShard shard = true)
    (hshard : Trusted data manifest dir shard) (hother : Trusted data manifest dir other) :
    Trusted data manifest
      { dir with shards := Function.update dir.shards shard.index (some shard.bytes) } other := by
  rcases hother with hfiled | ⟨hhonest, hall⟩
  · left
    rw [accepted_put hverify]
    split_ifs
    · rfl
    · exact hfiled
  · refine .inr ⟨hhonest, fun index haccepted => ?_⟩
    rw [accepted_put hverify] at haccepted
    split_ifs at haccepted with hindex
    · rw [hindex]
      rcases hshard with hfiled | ⟨hself, -⟩
      · exact hall _ hfiled
      · exact hself
    · exact hall index haccepted

theorem Kept.putShards (hcoll : Collisionless layout bytes)
    (hencoded : ∀ shard, IsShard data layout shard → bytes shard.bytes) {manifest : Manifest} :
    ∀ (shards : List Shard) (written left : Nat) (dir : Dir),
      readManifest address dir = .ok manifest → (∀ shard ∈ shards, bytes shard.bytes) →
      (∀ shard ∈ shards, manifest.verifyShard shard = true → Trusted data manifest dir shard) →
      Kept address data layout bytes dir → Kept address data layout bytes
        (Shards.putShards address manifest shards written ⟨dir, left⟩).2.dir
  | [], _, _, _, _, _, _, h => h
  | shard :: shards, written, left, dir, hread, hbytes, htrusted, h => by
      rw [Shards.putShards]
      rcases putShardAgainst_cases address manifest shard ⟨dir, left⟩ with
        ⟨error, hput⟩ | ⟨hverify, hput⟩ <;> rw [hput]
      · exact h
      · have hself := htrusted shard List.mem_cons_self hverify
        refine putShards hcoll hencoded shards _ _ _ (by rw [← hread]; rfl)
          (fun s hs => hbytes s (List.mem_cons_of_mem _ hs)) (fun s hs hsv => ?_)
          (h.putShard hcoll hencoded hread (hbytes shard List.mem_cons_self) hverify hself)
        exact hself.put hverify (htrusted s (List.mem_cons_of_mem _ hs) hsv)

theorem Sheds.kept (hread : readManifest address dir = .ok manifest)
    (hsheds : Sheds manifest dir dir') (h : Kept address data layout bytes dir) :
    Kept address data layout bytes dir' := by
  have hread' : readManifest address dir' = readManifest address dir := by
    rw [readManifest, readManifest, hsheds.1]
  refine ⟨hsheds.rebuilds hread h.rebuilds, fun filed hfiled => ?_, fun index file hfile => ?_⟩
  · exact h.layout_eq filed (hread' ▸ hfiled)
  · rcases hsheds.2 index with heq | ⟨hnone, -⟩
    · exact h.files index file (heq ▸ hfile)
    · rw [hnone] at hfile
      cases hfile

/-- What one call leaves of a blob it keeps. -/
theorem Kept.apply (h : Kept address data layout bytes dir) (hcoll : Collisionless layout bytes)
    (hencoded : ∀ shard, IsShard data layout shard → bytes shard.bytes) (call : Call)
    (haddress : call.address = address) (hbytes : ∀ shard ∈ call.shards, bytes shard.bytes)
    (hkeeps : Keeps address data dir call) :
    Kept address data layout bytes (call.apply dir) := by
  obtain ⟨filed, -, hread, -, -⟩ := rebuilds_iff.mp h.rebuilds
  cases call with
  | putManifest named manifest writes =>
    obtain rfl : named = address := haddress
    rw [Call.apply]
    rcases putManifest_cases named manifest ⟨dir, writes⟩ with
      ⟨error, hput⟩ | ⟨hhex, hdescribes, hput⟩ <;> rw [hput]
    · exact h
    · exact h.putManifest hhex hdescribes (hkeeps hdescribes)
  | putShard named given writes =>
    obtain rfl : named = address := haddress
    have hput : Shards.putShard named given ⟨dir, writes⟩ =
        putShardAgainst named filed given ⟨dir, writes⟩ := by
      rw [Shards.putShard, hread]
    rw [Call.apply, hput]
    rcases putShardAgainst_cases named filed given ⟨dir, writes⟩ with
      ⟨error, hput⟩ | ⟨hverify, hput⟩ <;> rw [hput]
    · exact h
    · exact h.putShard hcoll hencoded hread (hbytes given (List.mem_singleton_self given)) hverify
        (hkeeps filed hread hverify)
  | putAll named manifest given writes =>
    obtain rfl : named = address := haddress
    rw [Call.apply, Shards.putAll]
    rcases putManifest_cases named manifest ⟨dir, writes⟩ with
      ⟨error, hput⟩ | ⟨hhex, hdescribes, hput⟩ <;> rw [hput]
    · exact h
    · obtain ⟨hsame, htrusted⟩ := hkeeps hdescribes
      exact Kept.putShards hcoll hencoded given 0 _ _ (readManifest_line hhex hdescribes rfl)
        hbytes htrusted (h.putManifest hhex hdescribes hsame)
  | held _ => exact h
  | shard named index =>
    obtain rfl : named = address := haddress
    rw [Call.apply, readShard, hread]
    exact (shardAgainst_spec (isHex64_of_readManifest hread).1 filed index dir).1.kept hread h
  | reconstruct named =>
    obtain rfl : named = address := haddress
    exact (rebuild_spec hread).1.kept hread h

/-- Every call of the run keeps the blob, in the state it meets. -/
def KeepsAll (address : String) (data : List UInt8) : Store → List Call → Prop
  | _, [] => True
  | store, call :: calls => (call.address = address → Keeps address data (store address) call) ∧
      KeepsAll address data (step store call) calls

theorem Kept.step {store : Store} (h : Kept address data layout bytes (store address))
    (hcoll : Collisionless layout bytes)
    (hencoded : ∀ shard, IsShard data layout shard → bytes shard.bytes) (call : Call)
    (hbytes : ∀ shard ∈ call.shards, bytes shard.bytes)
    (hkeeps : call.address = address → Keeps address data (store address) call) :
    Kept address data layout bytes (Shards.step store call address) := by
  rw [Shards.step]
  by_cases haddress : call.address = address
  · rw [haddress, Function.update_self]
    exact h.apply hcoll hencoded call haddress hbytes (hkeeps haddress)
  · rwa [Function.update_of_ne (Ne.symm haddress)]

theorem Kept.run (hcoll : Collisionless layout bytes)
    (hencoded : ∀ shard, IsShard data layout shard → bytes shard.bytes) :
    ∀ (calls : List Call) (store : Store), Kept address data layout bytes (store address) →
      (∀ call ∈ calls, ∀ shard ∈ call.shards, bytes shard.bytes) →
      KeepsAll address data store calls → ∀ reached, reached <+: calls →
        Kept address data layout bytes (reached.foldl Shards.step store address)
  | calls, store, h, _, _, [], _ => h
  | call :: calls, store, h, hbytes, hkeeps, first :: reached, hprefix => by
      obtain ⟨rfl, hshort⟩ := List.cons_prefix_cons.mp hprefix
      exact Kept.run hcoll hencoded calls (Shards.step store first)
        (h.step hcoll hencoded first (hbytes first List.mem_cons_self) hkeeps.1)
        (fun call hcall => hbytes call (List.mem_cons_of_mem _ hcall)) hkeeps.2 reached hshort

/-- A shard read back rebuilds the root filed now; and a blob that can be
rebuilt stays so through every run whose calls keep it, as far as the bytes
filed and brought have no colliding roots. -/
theorem rebuilds_run :
    (∀ (address : String) (index : UInt8) (dir : Dir) (shard : Shard),
      (readShard address index dir).1 = .ok shard → ∃ filed,
        readManifest address dir = .ok filed ∧ shard.index = index ∧
          filed.verifyShard shard = true) ∧
    ∀ (store : Store) (address : String) (data : List UInt8) (filed : Manifest)
      (bytes : List UInt8 → Prop) (calls : List Call), Rebuilds address data (store address) →
      readManifest address (store address) = .ok filed → Collisionless filed.layout bytes →
      (∀ shard, IsShard data filed.layout shard → bytes shard.bytes) →
      (∀ index file, (store address).shards index = some file → bytes file) →
      (∀ call ∈ calls, ∀ shard ∈ call.shards, bytes shard.bytes) →
      KeepsAll address data store calls → ∀ reached, reached <+: calls →
        Rebuilds address data (reached.foldl step store address) := by
  constructor
  · intro address index dir shard h
    obtain ⟨filed, hread, hindex, -, hverify⟩ := readShard_eq_ok h
    exact ⟨filed, hread, hindex, hverify⟩
  · intro store address data filed bytes calls hrebuilds hread hcoll hencoded hfiles hbytes hkeeps
      reached hprefix
    have h : Kept address data filed.layout bytes (store address) :=
      ⟨hrebuilds, fun filed' hread' => by rw [hread] at hread'; cases hread'; rfl, hfiles⟩
    exact (Kept.run hcoll hencoded calls store h hbytes hkeeps reached hprefix).rebuilds

omit [Sha256] in
theorem putManifest_ok (haddress : isHex64 address = true)
    (hdescribes : manifest.describes address = true) (disk : Disk) (hleft : disk.left ≠ 0) :
    putManifest address manifest disk =
      (.ok (), ⟨{ disk.dir with manifest := some manifest.line }, disk.left - 1⟩) := by
  have hchecks : (do
      pathOf address
      ensure (manifest.describes address = true) (.mismatched address manifest.digest)) =
        (.ok () : Except ShardStoreError Unit) :=
    bind_eq_ok.mpr ⟨(), ensure_eq_ok.mpr haddress, ensure_eq_ok.mpr hdescribes⟩
  rw [putManifest, hchecks, Disk.write, if_neg hleft]

theorem putShardAgainst_eq (haddress : isHex64 address = true)
    (hdescribes : manifest.describes address = true) (hverify : manifest.verifyShard shard = true)
    (disk : Disk) : putShardAgainst address manifest shard disk = disk.write fun dir =>
      { dir with shards := Function.update dir.shards shard.index (some shard.bytes) } := by
  have hindex : shard.index.toNat < manifest.roots.length := by
    by_contra hout
    rw [Manifest.verifyShard, List.getElem?_eq_none (Nat.le_of_not_lt hout)] at hverify
    exact absurd hverify Bool.false_ne_true
  have hchecks : (do
      pathOf address
      ensure (manifest.describes address = true) (.mismatched address manifest.digest)
      ensure (shard.index.toNat < manifest.roots.length)
        (.shards (.noSuchShard shard.index manifest.coding.shards))
      ensure (manifest.verifyShard shard = true) (.corrupt address shard.index)) =
        (.ok () : Except ShardStoreError Unit) :=
    bind_eq_ok.mpr ⟨(), ensure_eq_ok.mpr haddress, bind_eq_ok.mpr ⟨(), ensure_eq_ok.mpr hdescribes,
      bind_eq_ok.mpr ⟨(), ensure_eq_ok.mpr hindex, ensure_eq_ok.mpr hverify⟩⟩⟩
  rw [putShardAgainst, hchecks]

/-- The files of these shards over what was there. -/
def fileAll (shards : List Shard) (files : UInt8 → Option (List UInt8)) :
    UInt8 → Option (List UInt8) :=
  shards.foldl (fun files shard => Function.update files shard.index (some shard.bytes)) files

omit [Sha256] in
theorem fileAll_eq_some {index : UInt8} {file : List UInt8} :
    ∀ {shards : List Shard} {files : UInt8 → Option (List UInt8)},
      fileAll shards files index = some file →
        (∃ shard ∈ shards, shard.bytes = file) ∨ files index = some file
  | [], _, h => .inr h
  | shard :: shards, files, h => by
      rcases @fileAll_eq_some index file shards _ h with ⟨s, hs, hfile⟩ | hfile
      · exact .inl ⟨s, List.mem_cons_of_mem _ hs, hfile⟩
      · change Function.update files shard.index (some shard.bytes) index = some file at hfile
        by_cases hindex : index = shard.index
        · rw [hindex, Function.update_self, Option.some.injEq] at hfile
          exact .inl ⟨shard, List.mem_cons_self, hfile⟩
        · rw [Function.update_of_ne hindex] at hfile
          exact .inr hfile

/-- Accepted shards are all filed when the writes succeed. -/
theorem putShards_ok {manifest : Manifest} (haddress : isHex64 address = true)
    (hdescribes : manifest.describes address = true) :
    ∀ (shards : List Shard) (written left : Nat) (dir : Dir),
      (∀ shard ∈ shards, manifest.verifyShard shard = true) → shards.length ≤ left →
      putShards address manifest shards written ⟨dir, left⟩ =
        (.ok (written + shards.length),
          ⟨{ dir with shards := fileAll shards dir.shards }, left - shards.length⟩)
  | [], _, _, _, _, _ => rfl
  | shard :: shards, written, left, dir, hverify, hleft => by
      have hpos : left ≠ 0 := by
        rw [List.length_cons] at hleft
        omega
      rw [putShards, putShardAgainst_eq haddress hdescribes (hverify shard List.mem_cons_self),
        Disk.write, if_neg hpos]
      show putShards _ _ _ _ ⟨_, _⟩ = _
      rw [putShards_ok haddress hdescribes shards _ _ _
        (fun s hs => hverify s (List.mem_cons_of_mem _ hs))
        (Nat.le_sub_one_of_lt hleft)]
      rw [List.length_cons, Nat.sub_sub, Nat.add_comm 1, Nat.add_assoc, Nat.add_comm 1]
      rfl

theorem putAll_ok {shards : List Shard} {left : Nat} (haddress : isHex64 address = true)
    (hdescribes : manifest.describes address = true)
    (hverify : ∀ shard ∈ shards, manifest.verifyShard shard = true) (hleft : shards.length < left) :
    (putAll address manifest shards ⟨dir, left⟩).2.dir =
      ⟨some manifest.line, fileAll shards dir.shards⟩ := by
  have hmanifest := putManifest_ok haddress hdescribes ⟨dir, left⟩ (by show left ≠ 0; omega)
  rw [putAll, hmanifest]
  show (putShards _ _ _ _ ⟨_, _⟩).2.dir = _
  rw [putShards_ok haddress hdescribes _ _ _ _ hverify (Nat.le_sub_one_of_lt hleft)]

end Digest

/-! ## A blob lost and a blob kept -/

/-- A store with nothing in it. -/
def emptyStore : Store := fun _ => ⟨none, fun _ => none⟩

theorem one_shard_ne_zero : (1 : UInt8) ≠ 0 := by decide

/-- One data shard and one parity shard. -/
def oneAndOne : Coding := ⟨1, 1, one_shard_ne_zero, one_shard_ne_zero, by decide⟩

/-- The address of the bytes 1, 2, 3 under the two-byte hash. -/
def sampleAddress : String := letI := pairHash; String.ofList (plainDigest (digestOf [1, 2, 3]))

theorem describes_sampleAddress {coding : Coding} {encoded : Encoded}
    (h : @encode pairHash [1, 2, 3] coding 4096 = .ok encoded) :
    encoded.manifest.describes sampleAddress = true := by
  let _ := pairHash
  obtain ⟨encoded', hencode, hspec⟩ := @encode_spec _ [1, 2, 3] coding 4096 (by decide) (by decide)
  rw [h] at hencode
  cases hencode
  rw [Manifest.describes, hspec.digest]
  decide +kernel

/-- Two results that are computed, and what is decided about both. -/
theorem exists_ok_of_decide {ε α β : Type} {x : Except ε α} {y : Except ε β} (P : α → β → Prop)
    [∀ a b, Decidable (P a b)]
    (h : (x.toOption.any fun a => y.toOption.any fun b => decide (P a b)) = true) :
    ∃ a b, x = .ok a ∧ y = .ok b ∧ P a b := by
  cases x with
  | error error => cases h
  | ok a =>
    cases y with
    | error error => cases h
    | ok b => exact ⟨a, b, rfl, rfl, of_decide_eq_true h⟩

/-- Everything about the sample that is computed at once. -/
theorem sample_encoding : letI := pairHash
    ∃ encoded other, encode [1, 2, 3] twoAndOne 4096 = .ok encoded ∧
      encode [1, 2, 3] oneAndOne 4096 = .ok other ∧
      encoded.manifest.layout = ⟨3, twoAndOne, 4096, by decide, by decide⟩ ∧
      encoded.shards = [⟨0, [1, 2]⟩, ⟨1, [3, 0]⟩, ⟨2, [140, 1]⟩] ∧
      encoded.manifest.describes sampleAddress = true ∧
      other.manifest.describes sampleAddress = true ∧
      (∀ shard ∈ encoded.shards, encoded.manifest.verifyShard shard = true) ∧
      (reconstruct encoded.manifest (acceptedShards encoded.manifest
        ⟨none, fileAll encoded.shards fun _ => none⟩)).map Reconstruction.data = .ok [1, 2, 3] ∧
      acceptedShards other.manifest ⟨none, fileAll encoded.shards fun _ => none⟩ = [] := by
  let _ := pairHash
  obtain ⟨encoded, other, hencode, hother, hlayout, hshards, hverify, hrun, hnone⟩ :=
    exists_ok_of_decide (x := encode [1, 2, 3] twoAndOne 4096)
      (y := encode [1, 2, 3] oneAndOne 4096) (fun encoded other : Encoded =>
        encoded.manifest.layout = ⟨3, twoAndOne, 4096, by decide, by decide⟩ ∧
        encoded.shards = [⟨0, [1, 2]⟩, ⟨1, [3, 0]⟩, ⟨2, [140, 1]⟩] ∧
        (∀ shard ∈ encoded.shards, encoded.manifest.verifyShard shard = true) ∧
        (reconstruct encoded.manifest (acceptedShards encoded.manifest
          ⟨none, fileAll encoded.shards fun _ => none⟩)).map Reconstruction.data = .ok [1, 2, 3] ∧
        acceptedShards other.manifest ⟨none, fileAll encoded.shards fun _ => none⟩ = [])
      (by decide +kernel)
  exact ⟨encoded, other, hencode, hother, hlayout, hshards, describes_sampleAddress hencode,
    describes_sampleAddress hother, hverify, hrun, hnone⟩

theorem isHex64_sampleAddress : isHex64 sampleAddress = true := by
  decide

/-- A second `put_manifest`, honest but of another coding, makes the blob
unrecoverable with every shard still on disk. -/
theorem put_manifest_loses : letI := pairHash
    ∃ encoded other, encode [1, 2, 3] twoAndOne 4096 = .ok encoded ∧
      encode [1, 2, 3] oneAndOne 4096 = .ok other ∧
      Rebuilds sampleAddress [1, 2, 3]
        ([.putAll sampleAddress encoded.manifest encoded.shards 4].foldl step emptyStore
          sampleAddress) ∧
      ¬ Rebuilds sampleAddress [1, 2, 3]
        ([.putAll sampleAddress encoded.manifest encoded.shards 4,
          .putManifest sampleAddress other.manifest 1].foldl step emptyStore sampleAddress) := by
  let _ := pairHash
  obtain ⟨encoded, other, hencode, hother, -, hshards, hdescribes, hdescribes', hverify, hrun,
    hnone⟩ := sample_encoding
  have hfiled : step emptyStore (.putAll sampleAddress encoded.manifest encoded.shards 4)
      sampleAddress = ⟨some encoded.manifest.line, fileAll encoded.shards fun _ => none⟩ :=
    (Function.update_self ..).trans
      (putAll_ok isHex64_sampleAddress hdescribes hverify (by rw [hshards]; decide))
  refine ⟨encoded, other, hencode, hother, ?_, ?_⟩
  · rw [List.foldl_cons, List.foldl_nil, hfiled, rebuilds_iff]
    obtain ⟨out, hout, hdata⟩ := map_eq_ok.mp hrun
    exact ⟨encoded.manifest, out, readManifest_line isHex64_sampleAddress hdescribes rfl, hout,
      hdata⟩
  · have hrefiled : step (step emptyStore (.putAll sampleAddress encoded.manifest encoded.shards 4))
        (.putManifest sampleAddress other.manifest 1) sampleAddress =
          ⟨some other.manifest.line, fileAll encoded.shards fun _ => none⟩ := by
      rw [step, Call.address, hfiled, Function.update_self, Call.apply,
        putManifest_ok isHex64_sampleAddress hdescribes' _ one_ne_zero]
    rw [List.foldl_cons, List.foldl_cons, List.foldl_nil, hrefiled, rebuilds_iff]
    rintro ⟨manifest, out, hread, hout, -⟩
    rw [readManifest_line isHex64_sampleAddress hdescribes' rfl] at hread
    cases hread
    obtain ⟨henough, -⟩ := reconstruct_eq_ok hout
    have hnil : acceptedShards other.manifest
        ⟨some other.manifest.line, fileAll encoded.shards fun _ => none⟩ = [] := hnone
    rw [hnil] at henough
    exact Nat.not_le.mpr other.manifest.coding.toNat_data_pos henough

/-- Filing the same manifest and a shard again, and reading, keep the sample. -/
theorem rebuilds_run_sample : letI := pairHash
    ∃ encoded, encode [1, 2, 3] twoAndOne 4096 = .ok encoded ∧
      Rebuilds sampleAddress [1, 2, 3] ([.putManifest sampleAddress encoded.manifest 1,
        .putShard sampleAddress ⟨0, [1, 2]⟩ 1, .reconstruct sampleAddress].foldl step
          (fun _ => ⟨some encoded.manifest.line, fileAll encoded.shards fun _ => none⟩)
            sampleAddress) := by
  let _ := pairHash
  obtain ⟨encoded, -, hencode, -, hlayout, hshards, hdescribes, -, hverify, hrun, -⟩ :=
    sample_encoding
  generalize hdir : (⟨some encoded.manifest.line, fileAll encoded.shards fun _ => none⟩ : Dir) = dir
  have hread : readManifest sampleAddress dir = .ok encoded.manifest := by
    rw [← hdir]
    exact readManifest_line isHex64_sampleAddress hdescribes rfl
  have hrebuilds : Rebuilds sampleAddress [1, 2, 3] dir := by
    obtain ⟨out, hout, hdata⟩ := map_eq_ok.mp hrun
    rw [rebuilds_iff]
    refine ⟨encoded.manifest, out, hread, ?_, hdata⟩
    rw [← hdir]
    exact hout
  have hspec : Encodes [1, 2, 3] encoded.manifest.layout encoded := by
    obtain ⟨encoded', hencode', hspec⟩ :=
      @encode_spec _ [1, 2, 3] twoAndOne 4096 (by decide) (by decide)
    rw [hencode] at hencode'
    cases hencode'
    rw [hspec.layout_eq]
    exact hspec
  have hagain : step (fun _ => dir) (.putManifest sampleAddress encoded.manifest 1) sampleAddress =
      dir := by
    rw [step, Call.address, Function.update_self, Call.apply,
      putManifest_ok isHex64_sampleAddress hdescribes _ one_ne_zero, ← hdir]
  have hthree : ∀ shard ∈ ([⟨0, [1, 2]⟩, ⟨1, [3, 0]⟩, ⟨2, [140, 1]⟩] : List Shard),
      shard.bytes ∈ [[1, 2], [3, 0], [140, 1], [1, 9]] := by
    decide
  have hfiles : ∀ index file, dir.shards index = some file →
      file ∈ [[1, 2], [3, 0], [140, 1], [1, 9]] := by
    rw [← hdir]
    intro index file hfile
    rcases fileAll_eq_some hfile with ⟨shard, hshard, rfl⟩ | hnone
    · rw [hshards] at hshard
      exact hthree shard hshard
    · cases hnone
  have hfirst : Trusted [1, 2, 3] encoded.manifest dir ⟨0, [1, 2]⟩ := by
    have hshard : (⟨0, [1, 2]⟩ : Shard) ∈ encoded.shards := by
      rw [hshards]
      exact List.mem_cons_self
    refine .inl ?_
    have hfile : dir.shards 0 = some [1, 2] := by
      rw [← hdir, hshards]
      rfl
    rw [accepted, hfile, Option.bind_some, if_pos (hverify _ hshard)]
    rfl
  have hkeeps : KeepsAll sampleAddress [1, 2, 3] (fun _ => dir)
      [.putManifest sampleAddress encoded.manifest 1, .putShard sampleAddress ⟨0, [1, 2]⟩ 1,
        .reconstruct sampleAddress] := by
    refine ⟨fun _ _ filed hfiled => ?_, fun _ filed hfiled _ => ?_, fun _ => trivial, trivial⟩
    · rw [hread] at hfiled
      cases hfiled
      exact ⟨rfl, fun _ _ => rfl⟩
    · rw [hagain, hread] at hfiled
      cases hfiled
      rw [hagain]
      exact hfirst
  have hencoded : ∀ shard, IsShard [1, 2, 3] encoded.manifest.layout shard →
      shard.bytes ∈ [[1, 2], [3, 0], [140, 1], [1, 9]] := by
    intro shard hshard
    have hmem := (hspec.shards shard).mpr hshard
    rw [hshards] at hmem
    exact hthree shard hmem
  have hbrought : ∀ call ∈ ([.putManifest sampleAddress encoded.manifest 1,
      .putShard sampleAddress ⟨0, [1, 2]⟩ 1, .reconstruct sampleAddress] : List Call),
      ∀ shard ∈ call.shards, shard.bytes ∈ [[1, 2], [3, 0], [140, 1], [1, 9]] := by
    intro call hcall shard hshard
    simp only [List.mem_cons, List.not_mem_nil, or_false] at hcall
    rcases hcall with rfl | rfl | rfl <;> simp [Call.shards] at hshard
    simp [hshard]
  have hcoll : Collisionless encoded.manifest.layout
      (fun bytes => bytes ∈ [[1, 2], [3, 0], [140, 1], [1, 9]]) := by
    rw [hlayout]
    exact collisionless_sample
  have hkept := rebuilds_run.2 (fun _ => dir) sampleAddress [1, 2, 3] encoded.manifest
    (fun bytes => bytes ∈ [[1, 2], [3, 0], [140, 1], [1, 9]]) _ hrebuilds hread hcoll hencoded
    hfiles hbrought hkeeps _ List.prefix_rfl
  refine ⟨encoded, hencode, ?_⟩
  rw [hdir]
  exact hkept
end Cairn.Ports.Shards
