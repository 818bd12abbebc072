import Cairn.Ports.P2p.Wire
import Cairn.Ports.Sync.Reconcile

/-!
# The messages of a reconciliation

How `src/p2p/sync.rs` reads what a peer sends: the messages, and the summary
that travels as rows of a bucket, its count and its exclusive or.
-/

namespace Cairn.Ports.Sync

open Cairn.Verified
open Cairn.Ports.Canonical
open Cairn.Ports.Wire

def Record.fromValue (value : Value) : Option Record := do
  let kind ← (value.get "kind").bind Value.asStr
  let payload ← value.get "payload"
  return ⟨kind, payload⟩

/-- An item of a row, by its place. -/
def item (row : List Value) (place : Nat) : Except (Abort SyncError) Value := orPanic row[place]?

/-- The bucket of a place in the arrays of a summary. -/
def bucketAt (place : Nat) : Except (Abort SyncError) UInt8 :=
  orPanic (if place < BUCKETS then some (UInt8.ofNat place) else none)

namespace Inventory

/-- One row of a summary. -/
def row (inv : Inventory) (entry : Value) : Except (Abort SyncError) Inventory := do
  let cells ← orError (.malformedMessage "bucket is not an array") entry.asArray
  require (cells.length = 3) (.malformedMessage "bucket must be [index, count, xor]")
  let first ← item cells 0
  let index ← orError (.malformedMessage "bucket index not an integer") first.asI128
  let second ← item cells 1
  let count ← orError (.malformedMessage "bucket count not an integer") second.asI128
  let third ← item cells 2
  let xor ← orError (.malformedMessage "bucket xor not a string") third.asStr
  require (0 ≤ index.val ∧ index.val < BUCKETS) (.malformedMessage "bucket index out of range")
  require (0 ≤ count.val ∧ count.val.toNat < UInt32.size)
    (.malformedMessage "bucket count out of range")
  let xor ← orError (.malformedMessage "bucket xor is not 32 hex bytes") (unhex xor)
  let bucket ← bucketAt index.val.toNat
  require (inv.counts bucket = 0) (.malformedMessage "duplicate bucket index")
  .ok
    { counts := Function.update inv.counts bucket (UInt32.ofNat count.val.toNat)
      xors := Function.update inv.xors bucket xor }

/-- The rows of a summary, one after the other. -/
def rows : List Value → Inventory → Except (Abort SyncError) Inventory
  | [], inv => .ok inv
  | entry :: entries, inv => do
      let inv ← inv.row entry
      rows entries inv

def fromValue (value : Value) : Except (Abort SyncError) Inventory := do
  let entries ← orError (.malformedMessage "inventory has no buckets array")
    ((value.get "buckets").bind Value.asArray)
  rows entries default

theorem returns_row (inv : Inventory) (entry : Value) : Returns (inv.row entry) := by
  unfold row
  rw [returns_bind]
  refine ⟨returns_orError _ _, fun cells _ => ?_⟩
  rw [returns_bind]
  refine ⟨returns_require _ _, fun _ hthree => ?_⟩
  rw [require_eq_ok] at hthree
  have hitem : ∀ place < 3, Returns (item cells place) := by
    intro place hplace
    unfold item
    rw [returns_orPanic, List.getElem?_eq_getElem (by omega)]
    rfl
  rw [returns_bind]
  refine ⟨hitem 0 (by omega), fun first _ => ?_⟩
  rw [returns_bind]
  refine ⟨returns_orError _ _, fun index _ => ?_⟩
  rw [returns_bind]
  refine ⟨hitem 1 (by omega), fun second _ => ?_⟩
  rw [returns_bind]
  refine ⟨returns_orError _ _, fun count _ => ?_⟩
  rw [returns_bind]
  refine ⟨hitem 2 (by omega), fun third _ => ?_⟩
  rw [returns_bind]
  refine ⟨returns_orError _ _, fun xor _ => ?_⟩
  rw [returns_bind]
  refine ⟨returns_require _ _, fun _ hrange => ?_⟩
  rw [require_eq_ok] at hrange
  rw [returns_bind]
  refine ⟨returns_require _ _, fun _ _ => ?_⟩
  rw [returns_bind]
  refine ⟨returns_orError _ _, fun bytes _ => ?_⟩
  rw [returns_bind]
  refine ⟨?_, fun bucket _ => ?_⟩
  · unfold bucketAt
    rw [returns_orPanic, if_pos (by omega)]
    rfl
  · rw [returns_bind]
    exact ⟨returns_require _ _, fun _ _ => returns_ok _⟩

theorem returns_fromValue (value : Value) : Returns (fromValue value) := by
  unfold fromValue
  rw [returns_bind]
  refine ⟨returns_orError _ _, fun entries hentries => ?_⟩
  clear hentries
  generalize default = inv
  induction entries generalizing inv with
  | nil => exact returns_ok inv
  | cons entry entries ih =>
    unfold rows
    rw [returns_bind]
    exact ⟨returns_row inv entry, fun inv' _ => ih inv'⟩

end Inventory

inductive Message where
  | hello (peer : String) (records : UInt64)
  | inventory (inv : Inventory)
  | bucketIds (bucket : UInt8) (ids : List String)
  | want (ids : List String)
  | records (records : List Record)
  | done

namespace Message

section Decode

variable [DebugText]

/-- The ids of a message; there is no limit here. -/
def idsField (value : Value) : Except (Abort SyncError) (List String) := do
  let items ← arrayOf .malformedMessage value "ids"
  stringsOf .malformedMessage "ids" items

def fromValue (value : Value) : Except (Abort SyncError) Message :=
  match (value.get "t").bind Value.asStr with
  | some "hello" => do
      let peer ← orError (.malformedMessage "hello has no peer") ((value.get "peer").bind Value.asStr)
      let count ← orError (.malformedMessage "hello has no record count")
        ((value.get "records").bind Value.asU64)
      .ok (.hello peer count)
  | some "inventory" => do
      let held ← orError (.malformedMessage "inventory message has no inventory")
        (value.get "inventory")
      let inv ← Inventory.fromValue held
      .ok (.inventory inv)
  | some "bucket_ids" => do
      let place ← orError (.malformedMessage "bucket index missing or out of range")
        (((value.get "bucket").bind Value.asI128).filter fun b =>
          decide (0 ≤ b.val) && decide (b.val < (BUCKETS : Int)))
      let ids ← idsField value
      .ok (.bucketIds (UInt8.ofNat place.val.toNat) ids)
  | some "want" => do
      let ids ← idsField value
      .ok (.want ids)
  | some "records" => do
      let items ← arrayOf .malformedMessage value "records"
      let held ← collect (fun item =>
        orError (.malformedMessage "record is not \x7bkind, payload\x7d") (Record.fromValue item)) items
      .ok (.records held)
  | some "done" => .ok .done
  | other => .error (.error (.malformedMessage ("unknown message type " ++ quotedOption other)))

def decode (bytes : ByteArray) : Except (Abort SyncError) Message := do
  let value ← valueOf .malformedMessage bytes
  fromValue value

omit [DebugText] in
theorem returns_idsField (value : Value) : Returns (idsField value) := by
  unfold idsField
  rw [returns_bind]
  exact ⟨returns_arrayOf _ _ _, fun _ _ => returns_stringsOf _ _ _⟩

theorem returns_fromValue (value : Value) : Returns (fromValue value) := by
  unfold fromValue
  split
  · rw [returns_bind]
    refine ⟨returns_orError _ _, fun peer _ => ?_⟩
    rw [returns_bind]
    exact ⟨returns_orError _ _, fun _ _ => returns_ok _⟩
  · rw [returns_bind]
    refine ⟨returns_orError _ _, fun held _ => ?_⟩
    rw [returns_bind]
    exact ⟨Inventory.returns_fromValue held, fun _ _ => returns_ok _⟩
  · rw [returns_bind]
    refine ⟨returns_orError _ _, fun place _ => ?_⟩
    rw [returns_bind]
    exact ⟨returns_idsField value, fun _ _ => returns_ok _⟩
  · rw [returns_bind]
    exact ⟨returns_idsField value, fun _ _ => returns_ok _⟩
  · rw [returns_bind]
    refine ⟨returns_arrayOf _ _ _, fun items _ => ?_⟩
    rw [returns_bind]
    exact ⟨returns_collect_of (fun _ => returns_orError _ _) items, fun _ _ => returns_ok _⟩
  · exact returns_ok _
  · exact returns_error _

/-- A reconciliation message is read or refused. -/
theorem returns_decode (bytes : ByteArray) : Returns (decode bytes) := by
  unfold decode
  rw [returns_bind]
  exact ⟨returns_valueOf _ bytes, fun value _ => returns_fromValue value⟩

end Decode

end Message

end Cairn.Ports.Sync
