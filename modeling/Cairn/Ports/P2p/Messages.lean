import Cairn.Ports.Gossip.Wire
import Cairn.Ports.P2p.Peers
import Cairn.Ports.P2p.Wire

/-!
# The messages about hints, candidates and code

The wire forms of `src/p2p/peers.rs`, `src/p2p/pop.rs` and `src/p2p/code.rs`.
Each has ceilings of its own, which its decoder looks at before it builds a list.
-/

namespace Cairn.Ports

open Cairn.Verified
open Cairn.Ports.Canonical
open Cairn.Ports.Gossip
open Cairn.Ports.Wire

/-! ## Hints -/

inductive PeersError where
  | malformed (detail : String)
  | tooMany (limit got : Nat)
  | badRecord (error : RecordError)
deriving DecidableEq

inductive PeersMessage where
  | digest (digest : String) (ids : List String)
  | want (ids : List String)
  | records (records : List PeerRecord)

namespace PeersMessage

def toValue : PeersMessage → Value
  | .digest text ids =>
    .object [("t", .string "peers_digest"), ("digest", .string text),
      ("ids", .array (ids.map Value.string))]
  | .want ids => .object [("t", .string "peers_want"), ("ids", .array (ids.map Value.string))]
  | .records held =>
    .object [("t", .string "peers_records"), ("records", .array (held.map PeerRecord.toValue))]

def encode (message : PeersMessage) : ByteArray := message.toValue.canonicalBytes

/-- The ids of a message. -/
def idsField (value : Value) (limit : Nat) : Except (Abort PeersError) (List String) := do
  let items ← boundedArray .malformed .tooMany value "ids" limit
  stringsOf .malformed "ids" items

/-- One record of a message: no longer than it may be, and a peer record. -/
def recordItem (limit : Nat) (item : Value) : Except (Abort PeersError) PeerRecord := do
  require (byteLength item.write ≤ limit) (.tooMany limit (byteLength item.write))
  calling .badRecord (PeerRecord.fromValue item)

section Decode

variable [DebugText]

def fromValue (value : Value) (limits : PeerHintLimits) : Except (Abort PeersError) PeersMessage :=
  match (value.get "t").bind Value.asStr with
  | some "peers_digest" => do
      let text ← orError (.malformed "peers_digest has no digest")
        ((value.get "digest").bind Value.asStr)
      let ids ← idsField value limits.maxIdsPerMessage
      .ok (.digest text ids)
  | some "peers_want" => do
      let ids ← idsField value limits.maxIdsPerMessage
      .ok (.want ids)
  | some "peers_records" => do
      let items ← boundedArray .malformed .tooMany value "records" limits.maxRecordsPerMessage
      let held ← collect (recordItem limits.maxRecordBytes) items
      .ok (.records held)
  | other =>
    .error (.error (.malformed ("unknown peer-hint message type " ++ quotedOption other)))

def decode (bytes : ByteArray) (limits : PeerHintLimits) :
    Except (Abort PeersError) PeersMessage := do
  let value ← valueOf .malformed bytes
  fromValue value limits

end Decode

theorem returns_idsField (value : Value) (limit : Nat) : Returns (idsField value limit) := by
  unfold idsField
  rw [returns_bind]
  exact ⟨returns_boundedArray _ _ _ _ _, fun _ _ => returns_stringsOf _ _ _⟩

theorem returns_recordItem (limit : Nat) (item : Value) : Returns (recordItem limit item) := by
  unfold recordItem
  rw [returns_bind]
  exact ⟨returns_require _ _, fun _ _ => returns_calling _ _⟩

/-- A hint message is read or refused. -/
theorem returns_decode [DebugText] (bytes : ByteArray) (limits : PeerHintLimits) :
    Returns (decode bytes limits) := by
  unfold decode
  rw [returns_bind]
  refine ⟨returns_valueOf _ bytes, fun value _ => ?_⟩
  unfold fromValue
  split
  · rw [returns_bind]
    refine ⟨returns_orError _ _, fun _ _ => ?_⟩
    rw [returns_bind]
    exact ⟨returns_idsField _ _, fun _ _ => returns_ok _⟩
  · rw [returns_bind]
    exact ⟨returns_idsField _ _, fun _ _ => returns_ok _⟩
  · rw [returns_bind]
    refine ⟨returns_boundedArray _ _ _ _ _, fun items _ => ?_⟩
    rw [returns_bind]
    exact ⟨returns_collect_of (returns_recordItem _) items, fun _ _ => returns_ok _⟩
  · exact returns_error _

end PeersMessage

/-! ## Candidates -/

inductive PopError where
  | malformed (detail : String)
  | tooMany (limit got : Nat)
  | badCandidate (error : GossipError)
deriving DecidableEq

structure PopLimits where
  maxIdsPerMessage : Nat
  maxCandidatesPerMessage : Nat

def PopLimits.default : PopLimits where
  maxIdsPerMessage := 4096
  maxCandidatesPerMessage := 512

inductive PopMessage where
  | digest (digest : String) (ids : List String)
  | want (ids : List String)
  | records (candidates : List Candidate)
  | done

namespace PopMessage

def toValue : PopMessage → Value
  | .digest text ids =>
    .object [("t", .string "pop_digest"), ("digest", .string text),
      ("ids", .array (ids.map Value.string))]
  | .want ids => .object [("t", .string "pop_want"), ("ids", .array (ids.map Value.string))]
  | .records candidates =>
    .object [("t", .string "pop_records"),
      ("candidates", .array (candidates.map Candidate.toValue))]
  | .done => .object [("t", .string "pop_done")]

def encode (message : PopMessage) : ByteArray := message.toValue.canonicalBytes

/-- The ids of a message. -/
def idsField (value : Value) (limit : Nat) : Except (Abort PopError) (List String) := do
  let items ← boundedArray .malformed .tooMany value "ids" limit
  stringsOf .malformed "ids" items

section Decode

variable [DebugText]

def fromValue (value : Value) (limits : PopLimits) : Except (Abort PopError) PopMessage :=
  match (value.get "t").bind Value.asStr with
  | some "pop_digest" => do
      let text ← orError (.malformed "pop_digest has no digest")
        ((value.get "digest").bind Value.asStr)
      let ids ← idsField value limits.maxIdsPerMessage
      .ok (.digest text ids)
  | some "pop_want" => do
      let ids ← idsField value limits.maxIdsPerMessage
      .ok (.want ids)
  | some "pop_records" => do
      let items ← boundedArray .malformed .tooMany value "candidates" limits.maxCandidatesPerMessage
      let candidates ← collect (fun item => calling .badCandidate (Candidate.fromValue item)) items
      .ok (.records candidates)
  | some "pop_done" => .ok .done
  | other =>
    .error (.error (.malformed ("unknown population message type " ++ quotedOption other)))

def decode (bytes : ByteArray) (limits : PopLimits) : Except (Abort PopError) PopMessage := do
  let value ← valueOf .malformed bytes
  fromValue value limits

end Decode

theorem returns_idsField (value : Value) (limit : Nat) : Returns (idsField value limit) := by
  unfold idsField
  rw [returns_bind]
  exact ⟨returns_boundedArray _ _ _ _ _, fun _ _ => returns_stringsOf _ _ _⟩

/-- A population message is read or refused. -/
theorem returns_decode [DebugText] (bytes : ByteArray) (limits : PopLimits) :
    Returns (decode bytes limits) := by
  unfold decode
  rw [returns_bind]
  refine ⟨returns_valueOf _ bytes, fun value _ => ?_⟩
  unfold fromValue
  split
  · rw [returns_bind]
    refine ⟨returns_orError _ _, fun _ _ => ?_⟩
    rw [returns_bind]
    exact ⟨returns_idsField _ _, fun _ _ => returns_ok _⟩
  · rw [returns_bind]
    exact ⟨returns_idsField _ _, fun _ _ => returns_ok _⟩
  · rw [returns_bind]
    refine ⟨returns_boundedArray _ _ _ _ _, fun items _ => ?_⟩
    rw [returns_bind]
    exact ⟨returns_collect_of (fun _ => returns_calling _ _) items, fun _ _ => returns_ok _⟩
  · exact returns_ok _
  · exact returns_error _

end PopMessage

/-! ## Code -/

/-- `blobs::MAX_BLOB_BYTES`. -/
def MAX_BLOB_BYTES : Nat := 1048576

/-- `blobs::is_address`. -/
def isBlobAddress (text : String) : Bool := isHex64 text

inductive CodeError where
  | malformed (detail : String)
  | tooMany (limit got : Nat)
  | tooLarge (limit got : Nat)
  | notAnAddress (address : String)
deriving DecidableEq

structure CodeLimits where
  maxAddressesPerMessage : Nat
  maxBlobsPerMessage : Nat
  maxBlobBytes : Nat

def CodeLimits.default : CodeLimits where
  maxAddressesPerMessage := 1024
  maxBlobsPerMessage := 32
  maxBlobBytes := MAX_BLOB_BYTES

inductive CodeMessage where
  | want (addresses : List String)
  | blobs (blobs : List (List UInt8))
  | done

namespace CodeMessage

def toValue : CodeMessage → Value
  | .want addresses =>
    .object [("t", .string "code_want"), ("addresses", .array (addresses.map Value.string))]
  | .blobs bodies =>
    .object [("t", .string "code_blobs"),
      ("blobs", .array (bodies.map fun body => .string (String.ofList (hexEncode body))))]
  | .done => .object [("t", .string "code_done")]

def encode (message : CodeMessage) : ByteArray := message.toValue.canonicalBytes

/-- A byte of text as a digit, `(byte as char).to_digit(16)`. -/
def digit (byte : UInt8) : Except (Abort CodeError) Nat :=
  orError (.malformed "blob body is not hex") (hexDigitValue (Char.ofNat byte.toNat))

/-- The pairs of bytes of a text, as bytes; each pair is taken apart by index. -/
def unhexPairs : List UInt8 → Except (Abort CodeError) (List UInt8)
  | [] => .ok []
  | [first] => do
      let _ ← digit first
      .error .panic
  | first :: second :: rest => do
      let high ← digit first
      let low ← digit second
      let bytes ← unhexPairs rest
      .ok (UInt8.ofNat (16 * high + low) :: bytes)

def unhex (text : String) : Except (Abort CodeError) (List UInt8) := do
  require (text.toUTF8.toList.length % 2 = 0) (.malformed "blob body is not hex")
  unhexPairs text.toUTF8.toList

/-- One address of a message. -/
def addressItem (item : Value) : Except (Abort CodeError) String := do
  let text ← orError (.malformed "addresses contains a non-string") item.asStr
  require (isBlobAddress text) (.notAnAddress text)
  .ok text

/-- One body of a message; its declared length comes first. -/
def bodyItem (limit : Nat) (item : Value) : Except (Abort CodeError) (List UInt8) := do
  let text ← orError (.malformed "blobs contains a non-string") item.asStr
  require (byteLength text.toList / 2 ≤ limit) (.tooLarge limit (byteLength text.toList / 2))
  unhex text

section Decode

variable [DebugText]

def fromValue (value : Value) (limits : CodeLimits) : Except (Abort CodeError) CodeMessage :=
  match (value.get "t").bind Value.asStr with
  | some "code_want" => do
      let items ← boundedArray .malformed .tooMany value "addresses" limits.maxAddressesPerMessage
      let addresses ← collect addressItem items
      .ok (.want addresses)
  | some "code_blobs" => do
      let items ← boundedArray .malformed .tooMany value "blobs" limits.maxBlobsPerMessage
      let bodies ← collect (bodyItem limits.maxBlobBytes) items
      .ok (.blobs bodies)
  | some "code_done" => .ok .done
  | other => .error (.error (.malformed ("unknown code message type " ++ quotedOption other)))

def decode (bytes : ByteArray) (limits : CodeLimits) : Except (Abort CodeError) CodeMessage := do
  let value ← valueOf .malformed bytes
  fromValue value limits

end Decode

/-- An even number of bytes is taken apart into pairs. -/
theorem returns_unhexPairs (bytes : List UInt8) (h : bytes.length % 2 = 0) :
    Returns (unhexPairs bytes) := by
  induction bytes using unhexPairs.induct with
  | case1 => exact returns_ok _
  | case2 first => exact absurd h (by simp)
  | case3 first second rest ih =>
    rw [List.length_cons, List.length_cons] at h
    unfold unhexPairs
    rw [returns_bind]
    refine ⟨returns_orError _ _, fun high _ => ?_⟩
    rw [returns_bind]
    refine ⟨returns_orError _ _, fun low _ => ?_⟩
    rw [returns_bind]
    exact ⟨ih (by omega), fun _ _ => returns_ok _⟩

theorem returns_unhex (text : String) : Returns (unhex text) := by
  unfold unhex
  rw [returns_bind]
  refine ⟨returns_require _ _, fun _ heven => ?_⟩
  exact returns_unhexPairs _ (require_eq_ok.mp heven)

theorem returns_addressItem (item : Value) : Returns (addressItem item) := by
  unfold addressItem
  rw [returns_bind]
  refine ⟨returns_orError _ _, fun text _ => ?_⟩
  rw [returns_bind]
  exact ⟨returns_require _ _, fun _ _ => returns_ok _⟩

theorem returns_bodyItem (limit : Nat) (item : Value) : Returns (bodyItem limit item) := by
  unfold bodyItem
  rw [returns_bind]
  refine ⟨returns_orError _ _, fun text _ => ?_⟩
  rw [returns_bind]
  exact ⟨returns_require _ _, fun _ _ => returns_unhex text⟩

/-- A code message is read or refused. -/
theorem returns_decode [DebugText] (bytes : ByteArray) (limits : CodeLimits) :
    Returns (decode bytes limits) := by
  unfold decode
  rw [returns_bind]
  refine ⟨returns_valueOf _ bytes, fun value _ => ?_⟩
  unfold fromValue
  split
  · rw [returns_bind]
    refine ⟨returns_boundedArray _ _ _ _ _, fun items _ => ?_⟩
    rw [returns_bind]
    exact ⟨returns_collect_of returns_addressItem items, fun _ _ => returns_ok _⟩
  · rw [returns_bind]
    refine ⟨returns_boundedArray _ _ _ _ _, fun items _ => ?_⟩
    rw [returns_bind]
    exact ⟨returns_collect_of (returns_bodyItem _) items, fun _ _ => returns_ok _⟩
  · exact returns_ok _
  · exact returns_error _

end CodeMessage

end Cairn.Ports
