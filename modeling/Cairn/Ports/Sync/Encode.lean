import Cairn.Ports.Records.Fields
import Cairn.Ports.Sync.Message

/-!
# Writing the messages of a reconciliation

How `src/p2p/sync.rs` writes what it sends. A summary travels without its empty
buckets, so it is read back where an empty bucket has nothing in its exclusive
or, which is what counting leaves (`Sparse`).
-/

namespace Cairn.Ports.Sync

open Cairn.Verified
open Cairn.Ports.Canonical
open Cairn.Ports.Wire

/-- An integer that fits 64 bits, as a value. -/
def smallInt (n : Nat) (h : n < 2 ^ 64) : Value := .int ⟨n, by omega⟩

def Record.toValue (r : Record) : Value :=
  .object [("kind", .string r.kind), ("payload", r.payload)]

theorem Record.fromValue_toValue (r : Record) : Record.fromValue r.toValue = some r := by
  have hkind : r.toValue.get "kind" = some (.string r.kind) := by
    simp [toValue, Value.get_object, BTreeMap.lookupEntry]
  have hpayload : r.toValue.get "payload" = some r.payload := by
    simp [toValue, Value.get_object, BTreeMap.lookupEntry]
  rw [fromValue, hkind, hpayload]
  rfl

/-- An object is one level deeper than its fields. -/
theorem depth_object_le {pairs : List (String × Value)} {n : Nat}
    (h : ∀ e ∈ pairs, e.2.depth + 1 ≤ n) : (Value.object pairs).depth ≤ n := by
  rw [Value.object, Value.depth_objectOf_le]
  rintro ⟨key, v⟩ hentry
  exact h (key, v) (BTreeMap.mem_of_get?_ofList (BTreeMap.get?_eq_some_iff.mpr hentry))

theorem depth_array_map_le {α : Type} {f : α → Value} {xs : List α} {n : Nat}
    (h : ∀ x ∈ xs, (f x).depth + 1 ≤ n) : (Value.array (xs.map f)).depth ≤ n := by
  rw [Value.depth_array_le]
  intro v hv
  obtain ⟨x, hx, rfl⟩ := List.mem_map.mp hv
  exact h x hx

namespace Inventory

/-! ## Rows -/

/-- The row of a bucket. -/
def entry (inv : Inventory) (bucket : UInt8) : Value :=
  .array [smallInt bucket.toNat (bucket.toNat_lt.trans (by decide)),
    smallInt (inv.counts bucket).toNat ((inv.counts bucket).toNat_lt.trans (by decide)),
    .string (String.ofList (hexEncode (inv.xors bucket).toList))]

/-- The rows of the buckets that are not empty. -/
def entries (inv : Inventory) : List Value :=
  (bytes.filter fun b => inv.counts b ≠ 0).map inv.entry

def toValue (inv : Inventory) : Value := .object [("buckets", .array inv.entries)]

/-- An empty bucket has nothing in its exclusive or. -/
def Sparse (inv : Inventory) : Prop :=
  ∀ b, inv.counts b = 0 → inv.xors b = Vector.replicate 32 0

theorem Sparse.count {inv inv' : Inventory} (h : inv.Sparse) {id : String}
    (hcount : inv.count id = .ok inv') : inv'.Sparse := by
  unfold Inventory.count at hcount
  cases hbytes : idBytes id with
  | none => simp [hbytes] at hcount
  | some bytes =>
    simp only [hbytes] at hcount
    by_cases hfits : (inv.counts bytes[0]).toNat + 1 < UInt32.size
    · rw [if_pos hfits] at hcount
      cases hcount
      intro b hb
      dsimp only at hb ⊢
      by_cases hbucket : b = bytes[0]
      · -- one was just counted
        subst hbucket
        rw [Function.update_self] at hb
        have hnat := congrArg UInt32.toNat hb
        rw [UInt32.toNat_add, UInt32.toNat_one, Nat.mod_eq_of_lt hfits, UInt32.toNat_zero] at hnat
        omega
      · rw [Function.update_of_ne hbucket] at hb ⊢
        exact h b hb
    · simp [hfits] at hcount

/-- What counting ids gives is sparse. -/
theorem sparse_of {ids : List String} {inv : Inventory} (h : Inventory.of ids = .ok inv) :
    inv.Sparse := by
  have hfold : ∀ (ids : List String) {acc : Inventory}, acc.Sparse →
      ids.foldlM Inventory.count acc = .ok inv → inv.Sparse := by
    intro ids
    induction ids with
    | nil =>
      intro acc hacc h
      cases h
      exact hacc
    | cons id ids ih =>
      intro acc hacc h
      rw [List.foldlM_cons, bind_eq_ok] at h
      obtain ⟨next, hnext, h⟩ := h
      exact ih (hacc.count hnext) h
  exact hfold ids (fun _ _ => rfl) h

/-- A summary with some buckets of another. -/
def overlay (acc inv : Inventory) (buckets : List UInt8) : Inventory where
  counts b := if b ∈ buckets then inv.counts b else acc.counts b
  xors b := if b ∈ buckets then inv.xors b else acc.xors b

/-- A row fills a bucket that is still empty. -/
theorem row_entry (inv acc : Inventory) {bucket : UInt8} (hempty : acc.counts bucket = 0) :
    acc.row (inv.entry bucket) = .ok
      { counts := Function.update acc.counts bucket (inv.counts bucket)
        xors := Function.update acc.xors bucket (inv.xors bucket) } := by
  have hlt := bucket.toNat_lt
  have hcount := (inv.counts bucket).toNat_lt
  have hbucket : (bucketAt ((bucket.toNat : Int)).toNat : Except (Abort SyncError) UInt8) =
      .ok bucket := by
    unfold bucketAt
    have hin : bucket.toNat < BUCKETS := hlt
    rw [orPanic_eq_ok, Int.toNat_natCast, if_pos hin, UInt8.ofNat_toNat]
  unfold row entry
  refine bind_eq_ok.mpr ⟨_, orError_eq_ok.mpr (Value.asArray_array _), ?_⟩
  refine bind_eq_ok.mpr ⟨(), require_eq_ok.mpr rfl, ?_⟩
  refine bind_eq_ok.mpr ⟨_, orPanic_eq_ok.mpr rfl, ?_⟩
  refine bind_eq_ok.mpr ⟨_, orError_eq_ok.mpr (Value.asI128_int _), ?_⟩
  refine bind_eq_ok.mpr ⟨_, orPanic_eq_ok.mpr rfl, ?_⟩
  refine bind_eq_ok.mpr ⟨_, orError_eq_ok.mpr (Value.asI128_int _), ?_⟩
  refine bind_eq_ok.mpr ⟨_, orPanic_eq_ok.mpr rfl, ?_⟩
  refine bind_eq_ok.mpr ⟨_, orError_eq_ok.mpr (Value.asStr_string _), ?_⟩
  refine bind_eq_ok.mpr ⟨(), require_eq_ok.mpr ⟨Int.natCast_nonneg _, Int.ofNat_lt.mpr hlt⟩, ?_⟩
  refine bind_eq_ok.mpr ⟨(), require_eq_ok.mpr ⟨Int.natCast_nonneg _, hcount⟩, ?_⟩
  refine bind_eq_ok.mpr ⟨_, orError_eq_ok.mpr (unhex_hexEncode _), ?_⟩
  refine bind_eq_ok.mpr ⟨bucket, hbucket, bind_eq_ok.mpr ⟨(), require_eq_ok.mpr hempty, ?_⟩⟩
  show Except.ok _ = Except.ok _
  rw [Int.toNat_natCast, UInt32.ofNat_toNat]

theorem rows_overlay (inv : Inventory) (buckets : List UInt8) :
    ∀ {acc : Inventory}, buckets.Nodup → (∀ b ∈ buckets, acc.counts b = 0) →
      rows (buckets.map inv.entry) acc = .ok (acc.overlay inv buckets) := by
  induction buckets with
  | nil =>
    intro acc _ _
    simp [rows, overlay]
  | cons bucket buckets ih =>
    intro acc hnodup hempty
    obtain ⟨hfresh, hnodup⟩ := List.nodup_cons.mp hnodup
    rw [List.map_cons, rows]
    refine bind_eq_ok.mpr ⟨_, row_entry inv acc (hempty bucket List.mem_cons_self), ?_⟩
    rw [ih hnodup]
    · congr 1
      unfold overlay
      congr 1
      · funext b
        by_cases hb : b = bucket
        · simp [hb, hfresh]
        · simp [hb]
      · funext b
        by_cases hb : b = bucket
        · simp [hb, hfresh]
        · simp [hb]
    · intro b hb
      have hne : b ≠ bucket := fun h => hfresh (h ▸ hb)
      dsimp only
      rw [Function.update_of_ne hne]
      exact hempty b (List.mem_cons_of_mem _ hb)

/-- The rows of a sparse summary rebuild it. -/
theorem rows_entries {inv : Inventory} (h : inv.Sparse) : rows inv.entries default = .ok inv := by
  unfold entries
  rw [rows_overlay inv _ (nodup_bytes.filter _) (fun _ _ => rfl)]
  have hmem : ∀ b, b ∈ (bytes.filter fun b => inv.counts b ≠ 0) ↔ inv.counts b ≠ 0 := by
    intro b
    simp [List.mem_filter, mem_bytes]
  congr 1
  unfold overlay
  simp only [hmem]
  cases inv with
  | mk counts xors =>
    congr 1
    · funext b
      by_cases hb : counts b = 0
      · simp [hb, default]
      · simp [hb]
    · funext b
      by_cases hb : counts b = 0
      · have hxor : xors b = Vector.replicate 32 0 := h b hb
        simp [hb, default, hxor]
      · simp [hb]

theorem fromValue_toValue {inv : Inventory} (h : inv.Sparse) : fromValue inv.toValue = .ok inv := by
  have hget : (inv.toValue.get "buckets").bind Value.asArray = some inv.entries := by
    simp [toValue, Value.get_object, BTreeMap.lookupEntry]
  exact bind_eq_ok.mpr ⟨inv.entries, orError_eq_ok.mpr hget, rows_entries h⟩

theorem depth_toValue (inv : Inventory) : inv.toValue.depth ≤ 3 := by
  have hrow : ∀ b, (inv.entry b).depth ≤ 1 := by
    intro b
    rw [entry, Value.depth_array_le]
    simp only [List.forall_mem_cons]
    exact ⟨le_rfl, le_rfl, le_rfl, by simp⟩
  apply depth_object_le
  intro e he
  obtain rfl := List.mem_singleton.mp he
  exact Nat.succ_le_succ (depth_array_map_le fun b _ => Nat.succ_le_succ (hrow b))

end Inventory

namespace Message

def toValue : Message → Value
  | .hello peer count =>
    .object [("t", .string "hello"), ("peer", .string peer), ("records", u64Value count)]
  | .inventory inv => .object [("t", .string "inventory"), ("inventory", inv.toValue)]
  | .bucketIds bucket ids =>
    .object [("t", .string "bucket_ids"),
      ("bucket", smallInt bucket.toNat (bucket.toNat_lt.trans (by decide))),
      ("ids", .array (ids.map .string))]
  | .want ids => .object [("t", .string "want"), ("ids", .array (ids.map .string))]
  | .records held =>
    .object [("t", .string "records"), ("records", .array (held.map Record.toValue))]
  | .done => .object [("t", .string "done")]

/-- Canonical bytes. -/
def encode (m : Message) : ByteArray := m.toValue.canonicalBytes

/-- A summary that was counted, and payloads that leave room for the message
around them. -/
def Sendable : Message → Prop
  | .inventory inv => ∃ ids, Inventory.of ids = .ok inv
  | .records held => ∀ r ∈ held, r.payload.depth + 3 ≤ MAX_DEPTH
  | _ => True

theorem depth_toValue {m : Message} (h : m.Sendable) : m.toValue.depth ≤ MAX_DEPTH := by
  have hleaf : 0 + 1 ≤ MAX_DEPTH := by decide
  have hids : ∀ ids : List String, (Value.array (ids.map .string)).depth + 1 ≤ MAX_DEPTH := by
    intro ids
    have hflat : (Value.array (ids.map .string)).depth ≤ 1 := depth_array_map_le fun _ _ => le_rfl
    exact (Nat.succ_le_succ hflat).trans (by decide)
  cases m with
  | hello peer count =>
    apply depth_object_le
    simp only [List.forall_mem_cons]
    exact ⟨hleaf, hleaf, hleaf, by simp⟩
  | inventory inv =>
    apply depth_object_le
    simp only [List.forall_mem_cons]
    exact ⟨hleaf, (Nat.succ_le_succ inv.depth_toValue).trans (by decide), by simp⟩
  | bucketIds bucket ids =>
    apply depth_object_le
    simp only [List.forall_mem_cons]
    exact ⟨hleaf, hleaf, hids ids, by simp⟩
  | want ids =>
    apply depth_object_le
    simp only [List.forall_mem_cons]
    exact ⟨hleaf, hids ids, by simp⟩
  | records held =>
    apply depth_object_le
    simp only [List.forall_mem_cons]
    refine ⟨hleaf, ?_, by simp⟩
    have hrecord : ∀ r ∈ held, r.toValue.depth + 2 ≤ MAX_DEPTH := by
      intro r hr
      have hroom := h r hr
      have hobject : r.toValue.depth ≤ MAX_DEPTH - 2 := by
        apply depth_object_le
        simp only [List.forall_mem_cons, Value.depth_string]
        refine ⟨by decide, by omega, by simp⟩
      have htwo : 2 ≤ MAX_DEPTH := by decide
      omega
    have harray : (Value.array (held.map Record.toValue)).depth ≤ MAX_DEPTH - 1 :=
      depth_array_map_le fun r hr => by have := hrecord r hr; omega
    have hone : 1 ≤ MAX_DEPTH := by decide
    omega
  | done =>
    apply depth_object_le
    simp only [List.forall_mem_cons]
    exact ⟨hleaf, by simp⟩

section Decode

variable [DebugText]

omit [DebugText] in
theorem idsField_of_get {value : Value} {ids : List String}
    (h : value.get "ids" = some (.array (ids.map .string))) : idsField value = .ok ids := by
  have hitems : (value.get "ids").bind Value.asArray = some (ids.map .string) := by simp [h]
  exact bind_eq_ok.mpr ⟨_, orError_eq_ok.mpr hitems, stringsOf_map _ _ ids⟩

/-- What was written is read back. -/
theorem fromValue_toValue {m : Message} (h : m.Sendable) : fromValue m.toValue = .ok m := by
  cases m with
  | hello peer count =>
    have ht : ((Message.hello peer count).toValue.get "t").bind Value.asStr = some "hello" := by
      simp [toValue, Value.get_object, BTreeMap.lookupEntry]
    have hpeer : ((Message.hello peer count).toValue.get "peer").bind Value.asStr =
        some peer := by
      simp [toValue, Value.get_object, BTreeMap.lookupEntry]
    have hcount : ((Message.hello peer count).toValue.get "records").bind Value.asU64 =
        some count := by
      simp [toValue, Value.get_object, BTreeMap.lookupEntry]
    unfold fromValue
    rw [ht]
    exact bind_eq_ok.mpr ⟨peer, orError_eq_ok.mpr hpeer,
      bind_eq_ok.mpr ⟨count, orError_eq_ok.mpr hcount, rfl⟩⟩
  | inventory inv =>
    obtain ⟨ids, hids⟩ := h
    have ht : ((Message.inventory inv).toValue.get "t").bind Value.asStr = some "inventory" := by
      simp [toValue, Value.get_object, BTreeMap.lookupEntry]
    have hinv : (Message.inventory inv).toValue.get "inventory" = some inv.toValue := by
      simp [toValue, Value.get_object, BTreeMap.lookupEntry]
    unfold fromValue
    rw [ht]
    exact bind_eq_ok.mpr ⟨_, orError_eq_ok.mpr hinv,
      bind_eq_ok.mpr ⟨inv, Inventory.fromValue_toValue (Inventory.sparse_of hids), rfl⟩⟩
  | bucketIds bucket ids =>
    have hlt := bucket.toNat_lt
    have ht : ((Message.bucketIds bucket ids).toValue.get "t").bind Value.asStr =
        some "bucket_ids" := by
      simp [toValue, Value.get_object, BTreeMap.lookupEntry]
    have hids : (Message.bucketIds bucket ids).toValue.get "ids" =
        some (.array (ids.map .string)) := by
      simp [toValue, Value.get_object, BTreeMap.lookupEntry]
    have hbucket : ((Message.bucketIds bucket ids).toValue.get "bucket").bind Value.asI128 =
        some ⟨bucket.toNat, by omega⟩ := by
      have hget : (Message.bucketIds bucket ids).toValue.get "bucket" =
          some (smallInt bucket.toNat (bucket.toNat_lt.trans (by decide))) := by
        simp [toValue, Value.get_object, BTreeMap.lookupEntry]
      rw [hget]
      exact Value.asI128_int _
    unfold fromValue
    rw [ht]
    refine bind_eq_ok.mpr ⟨⟨bucket.toNat, by omega⟩, orError_eq_ok.mpr ?_,
      bind_eq_ok.mpr ⟨ids, idsField_of_get hids, ?_⟩⟩
    · rw [hbucket]
      have hrange : (bucket.toNat : Int) < (BUCKETS : Int) := Int.ofNat_lt.mpr hlt
      simp [Option.filter, hrange]
    · show Except.ok (Message.bucketIds (UInt8.ofNat ((bucket.toNat : Int)).toNat) ids) = _
      rw [Int.toNat_natCast, UInt8.ofNat_toNat]
  | want ids =>
    have ht : ((Message.want ids).toValue.get "t").bind Value.asStr = some "want" := by
      simp [toValue, Value.get_object, BTreeMap.lookupEntry]
    have hids : (Message.want ids).toValue.get "ids" = some (.array (ids.map .string)) := by
      simp [toValue, Value.get_object, BTreeMap.lookupEntry]
    unfold fromValue
    rw [ht]
    exact bind_eq_ok.mpr ⟨ids, idsField_of_get hids, rfl⟩
  | records held =>
    have ht : ((Message.records held).toValue.get "t").bind Value.asStr = some "records" := by
      simp [toValue, Value.get_object, BTreeMap.lookupEntry]
    have hrecords : ((Message.records held).toValue.get "records").bind Value.asArray =
        some (held.map Record.toValue) := by
      simp [toValue, Value.get_object, BTreeMap.lookupEntry]
    have hread : collect (fun item => orError
        (.malformedMessage "record is not \x7bkind, payload\x7d" : SyncError)
        (Record.fromValue item)) (held.map Record.toValue) = .ok (held.map fun r => r) :=
      collect_map_ok fun r _ => orError_eq_ok.mpr r.fromValue_toValue
    rw [List.map_id'] at hread
    unfold fromValue
    rw [ht]
    exact bind_eq_ok.mpr ⟨_, orError_eq_ok.mpr hrecords, bind_eq_ok.mpr ⟨held, hread, rfl⟩⟩
  | done =>
    have ht : (Message.done.toValue.get "t").bind Value.asStr = some "done" := by
      simp [toValue, Value.get_object, BTreeMap.lookupEntry]
    unfold fromValue
    rw [ht]
    rfl

/-- Every message is read back from its bytes. -/
theorem decode_encode (m : Message) (h : m.Sendable) : decode m.encode = .ok m :=
  bind_eq_ok.mpr ⟨m.toValue, valueOf_canonicalBytes _ (depth_toValue h), fromValue_toValue h⟩

omit [DebugText] in
/-- Two ids of one bucket, summarised and sent. -/
theorem decode_encode_sample : letI : DebugText := ⟨fun text => text⟩
    ∃ inv, Inventory.of [Peer.zeroId, Peer.zeroId] = .ok inv ∧
      decode (Message.inventory inv).encode = .ok (.inventory inv) := by
  have hids : ∀ id ∈ [Peer.zeroId, Peer.zeroId], (idBytes id).isSome := by decide
  obtain ⟨inv, hinv⟩ := @Inventory.exists_foldlM [Peer.zeroId, Peer.zeroId] .default hids (by
    intro b
    have htwo : countIn [Peer.zeroId, Peer.zeroId] b ≤ 2 := List.length_filter_le _ _
    have hzero : (Inventory.default.counts b).toNat = 0 := rfl
    have hsize : 2 < UInt32.size := by decide
    omega)
  exact ⟨inv, hinv, @decode_encode ⟨fun text => text⟩ (.inventory inv) ⟨_, hinv⟩⟩

end Decode

end Message

end Cairn.Ports.Sync
