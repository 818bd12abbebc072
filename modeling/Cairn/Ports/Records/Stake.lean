import Cairn.Ports.Records.Claim

/-!
# The other records of the log

Issuance, availability pools, undertakings and their answers, attestations,
challenges and their moves, peers and committee shares of `src/records.rs`.
A poster validates before it appends, so for each record that carries money
the round trip says that the log reads it back unchanged.
-/

namespace Cairn.Ports

open Cairn.Verified
open Cairn.Ports.Canonical

/-- `invalid field` of a record. -/
def invalid {α : Type} (record field expected : String) : Except RecordError α :=
  .error (.invalidField record field expected)

/-- `to_value` of a signed record: its signing payload, and the signature. -/
def signedValue (fields : List (String × Value)) (signature : Option String) : Value :=
  .object (fields ++ optField "signature" (signature.map .string))

theorem get_signedValue (fields : List (String × Value)) (signature : Option String)
    (key : String) :
    (signedValue fields signature).get key =
      (if key = "signature" then signature.map .string else none).or
        (BTreeMap.lookupEntry key fields.reverse) := by
  rw [signedValue, Value.get_object, List.reverse_append, lookupEntry_append, reverse_optField,
    lookupEntry_optField]

/-! ## Money -/

structure Issuance where
  holder : String
  units : UInt64
  createdAt : String
deriving DecidableEq

namespace Issuance

def toValue (r : Issuance) : Value :=
  .object [("type", .string "issuance"), ("created_at", .string r.createdAt),
    ("holder", .string r.holder), ("units", u64Value r.units)]

def id [Sha256] (r : Issuance) : String := r.toValue.digest

def validate (r : Issuance) : Except RecordError Unit := do
  if r.holder = "" then invalid "issuance" "holder" "a non-empty name"
  if r.units = 0 then invalid "issuance" "units" "at least one unit"

def fromValue (raw : Value) : Except RecordError Issuance := do
  let value ← expectObject raw "issuance"
  let holder ← requiredString value "issuance" "holder"
  let units ← requiredU64 value "issuance" "units"
  let createdAt ← requiredString value "issuance" "created_at"
  let record : Issuance := { holder, units, createdAt }
  record.validate
  return record

end Issuance

structure AvailabilityPool where
  funder : String
  perEpoch : UInt64
  fromEpoch : UInt64
  toEpoch : UInt64
  createdAt : String
deriving DecidableEq

namespace AvailabilityPool

def toValue (r : AvailabilityPool) : Value :=
  .object [("type", .string "availability_pool"), ("created_at", .string r.createdAt),
    ("from_epoch", u64Value r.fromEpoch), ("funder", .string r.funder),
    ("per_epoch", u64Value r.perEpoch), ("to_epoch", u64Value r.toEpoch)]

def id [Sha256] (r : AvailabilityPool) : String := r.toValue.digest

/-- The most a pool can pay, over every epoch it covers. -/
def ceiling (r : AvailabilityPool) : Nat :=
  r.perEpoch.toNat * (r.toEpoch.toNat - r.fromEpoch.toNat + 1)

def covers (r : AvailabilityPool) (epoch : UInt64) : Bool :=
  r.fromEpoch ≤ epoch && epoch ≤ r.toEpoch

def validate (r : AvailabilityPool) : Except RecordError Unit := do
  if r.funder = "" then invalid "availability_pool" "funder" "a non-empty name"
  if r.perEpoch = 0 then invalid "availability_pool" "per_epoch" "at least one unit"
  if r.fromEpoch > r.toEpoch then
    invalid "availability_pool" "to_epoch" "an epoch at or after from_epoch"

def fromValue (raw : Value) : Except RecordError AvailabilityPool := do
  let value ← expectObject raw "availability_pool"
  let funder ← requiredString value "availability_pool" "funder"
  let perEpoch ← requiredU64 value "availability_pool" "per_epoch"
  let fromEpoch ← requiredU64 value "availability_pool" "from_epoch"
  let toEpoch ← requiredU64 value "availability_pool" "to_epoch"
  let createdAt ← requiredString value "availability_pool" "created_at"
  let record : AvailabilityPool := { funder, perEpoch, fromEpoch, toEpoch, createdAt }
  record.validate
  return record

theorem fromValue_toValue (r : AvailabilityPool) :
    fromValue r.toValue = r.validate.map fun _ => r := by
  obtain ⟨hfunder, hper, hfrom, hto, hcreated⟩ :
      r.toValue.get "funder" = some (.string r.funder) ∧
      r.toValue.get "per_epoch" = some (u64Value r.perEpoch) ∧
      r.toValue.get "from_epoch" = some (u64Value r.fromEpoch) ∧
      r.toValue.get "to_epoch" = some (u64Value r.toEpoch) ∧
      r.toValue.get "created_at" = some (.string r.createdAt) := by
    simp [toValue, Value.get_object, BTreeMap.lookupEntry]
  have hobject : expectObject r.toValue "availability_pool" = .ok r.toValue :=
    expectObject_object _ _
  unfold fromValue
  rw [hobject]
  simp only [bind, Except.bind, requiredString_of_get hfunder, requiredU64_of_get hper,
    requiredU64_of_get hfrom, requiredU64_of_get hto, requiredString_of_get hcreated]
  split <;> rename_i hvalid <;> rw [hvalid] <;> rfl

end AvailabilityPool

/-! ## Undertakings -/

structure Undertaking where
  identity : String
  root : String
  height : UInt64
  bond : UInt64
  createdAt : String
  signature : Option String
deriving DecidableEq

def MAX_UNDERTAKING_HEIGHT : UInt64 := 4294967295

namespace Undertaking

def signingFields (r : Undertaking) : List (String × Value) :=
  [("type", .string "undertaking"), ("bond", u64Value r.bond),
    ("created_at", .string r.createdAt), ("height", u64Value r.height),
    ("identity", .string r.identity), ("root", .string r.root)]

def toValue (r : Undertaking) : Value := signedValue r.signingFields r.signature

def id [Sha256] (r : Undertaking) : String := r.toValue.digest

def verifySignature [Signatures] (r : Undertaking) : Except SignatureError Unit :=
  verifyKeySignature "undertaking" r.identity (.object r.signingFields) r.signature

def validate (r : Undertaking) : Except RecordError Unit := do
  if !isHex64 r.identity then
    invalid "undertaking" "identity" "64 lowercase hex characters of ed25519 public key"
  if !isDigest r.root then
    invalid "undertaking" "root" "sha256: followed by 64 lowercase hex characters"
  if r.height = 0 ∨ r.height > MAX_UNDERTAKING_HEIGHT then
    invalid "undertaking" "height" "between 1 and 2^32 - 1 entries"
  if r.bond = 0 then invalid "undertaking" "bond" "at least one unit staked"

def fromValue (raw : Value) : Except RecordError Undertaking := do
  let value ← expectObject raw "undertaking"
  let identity ← requiredString value "undertaking" "identity"
  let root ← requiredString value "undertaking" "root"
  let height ← requiredU64 value "undertaking" "height"
  let bond ← requiredU64 value "undertaking" "bond"
  let createdAt ← requiredString value "undertaking" "created_at"
  let signature ← optionalString value "undertaking" "signature"
  let record : Undertaking := { identity, root, height, bond, createdAt, signature }
  record.validate
  return record

theorem fromValue_toValue (r : Undertaking) :
    fromValue r.toValue = r.validate.map fun _ => r := by
  obtain ⟨hidentity, hroot, hheight, hbond, hcreated, hsignature⟩ :
      r.toValue.get "identity" = some (.string r.identity) ∧
      r.toValue.get "root" = some (.string r.root) ∧
      r.toValue.get "height" = some (u64Value r.height) ∧
      r.toValue.get "bond" = some (u64Value r.bond) ∧
      r.toValue.get "created_at" = some (.string r.createdAt) ∧
      r.toValue.get "signature" = r.signature.map .string := by
    simp [toValue, get_signedValue, signingFields, BTreeMap.lookupEntry]
  have hobject : expectObject r.toValue "undertaking" = .ok r.toValue := expectObject_object _ _
  unfold fromValue
  rw [hobject]
  simp only [bind, Except.bind, requiredString_of_get hidentity, requiredString_of_get hroot,
    requiredU64_of_get hheight, requiredU64_of_get hbond, requiredString_of_get hcreated,
    optionalString_of_get hsignature]
  split <;> rename_i hvalid <;> rw [hvalid] <;> rfl

end Undertaking

/-- An answer to the sample of an epoch. -/
structure Availability where
  identity : String
  undertaking : String
  epoch : UInt64
  entry : Value
  path : List String
  createdAt : String
  signature : Option String

def MAX_AVAILABILITY_PATH : Nat := 32

namespace Availability

def signingFields (r : Availability) : List (String × Value) :=
  [("type", .string "availability"), ("created_at", .string r.createdAt), ("entry", r.entry),
    ("epoch", u64Value r.epoch), ("identity", .string r.identity),
    ("path", .array (r.path.map .string)), ("undertaking", .string r.undertaking)]

def toValue (r : Availability) : Value := signedValue r.signingFields r.signature

def id [Sha256] (r : Availability) : String := r.toValue.digest

def verifySignature [Signatures] (r : Availability) : Except SignatureError Unit :=
  verifyKeySignature "availability" r.identity (.object r.signingFields) r.signature

def validate (r : Availability) : Except RecordError Unit := do
  if !isHex64 r.identity then
    invalid "availability" "identity" "64 lowercase hex characters of ed25519 public key"
  if !isDigest r.undertaking then
    invalid "availability" "undertaking" "sha256: followed by 64 lowercase hex characters"
  if r.entry.asObject.isNone then
    invalid "availability" "entry" "the sampled log entry as an object"
  if r.path.length > MAX_AVAILABILITY_PATH ∨ !r.path.all isDigest then
    invalid "availability" "path" "at most 32 sha256: digests"

def pathOf (value : Value) : Except RecordError (List String) := do
  let v ← required value "availability" "path"
  let items ← okOr (.invalidField "availability" "path" "an array of strings") v.asArray
  stringItems (.invalidField "availability" "path" "an array of strings") items

def fromValue (raw : Value) : Except RecordError Availability := do
  let value ← expectObject raw "availability"
  let path ← pathOf value
  let identity ← requiredString value "availability" "identity"
  let undertaking ← requiredString value "availability" "undertaking"
  let epoch ← requiredU64 value "availability" "epoch"
  let entry ← required value "availability" "entry"
  let createdAt ← requiredString value "availability" "created_at"
  let signature ← optionalString value "availability" "signature"
  let record : Availability := { identity, undertaking, epoch, entry, path, createdAt, signature }
  record.validate
  return record

end Availability

/-! ## Bonded statements -/

structure Attestation where
  claimId : String
  attestor : String
  status : String
  createdAt : String
  signature : Option String
deriving DecidableEq

namespace Attestation

def signingFields (r : Attestation) : List (String × Value) :=
  [("type", .string "attestation"), ("attestor", .string r.attestor),
    ("claim_id", .string r.claimId), ("created_at", .string r.createdAt),
    ("status", .string r.status)]

def toValue (r : Attestation) : Value := signedValue r.signingFields r.signature

def id [Sha256] (r : Attestation) : String := r.toValue.digest

def verifySignature [Signatures] (r : Attestation) : Except SignatureError Unit :=
  verifyKeySignature "attestation" r.attestor (.object r.signingFields) r.signature

def validate (r : Attestation) : Except RecordError Unit := do
  if r.claimId = "" then invalid "attestation" "claim_id" "the id of the claim attested to"
  if r.status ≠ "accept" ∧ r.status ≠ "reject" then
    invalid "attestation" "status" "accept or reject; a non-settling status is not bondable"

def fromValue (raw : Value) : Except RecordError Attestation := do
  let value ← expectObject raw "attestation"
  let claimId ← requiredString value "attestation" "claim_id"
  let attestor ← requiredString value "attestation" "attestor"
  let status ← requiredString value "attestation" "status"
  let createdAt ← requiredString value "attestation" "created_at"
  let signature ← optionalString value "attestation" "signature"
  let record : Attestation := { claimId, attestor, status, createdAt, signature }
  record.validate
  return record

theorem fromValue_toValue (r : Attestation) :
    fromValue r.toValue = r.validate.map fun _ => r := by
  obtain ⟨hclaim, hattestor, hstatus, hcreated, hsignature⟩ :
      r.toValue.get "claim_id" = some (.string r.claimId) ∧
      r.toValue.get "attestor" = some (.string r.attestor) ∧
      r.toValue.get "status" = some (.string r.status) ∧
      r.toValue.get "created_at" = some (.string r.createdAt) ∧
      r.toValue.get "signature" = r.signature.map .string := by
    simp [toValue, get_signedValue, signingFields, BTreeMap.lookupEntry]
  have hobject : expectObject r.toValue "attestation" = .ok r.toValue := expectObject_object _ _
  unfold fromValue
  rw [hobject]
  simp only [bind, Except.bind, requiredString_of_get hclaim, requiredString_of_get hattestor,
    requiredString_of_get hstatus, requiredString_of_get hcreated, optionalString_of_get hsignature]
  split <;> rename_i hvalid <;> rw [hvalid] <;> rfl

end Attestation

structure Challenge where
  claimId : String
  challenger : String
  root : String
  states : UInt64
  bond : UInt64
  createdAt : String
  signature : Option String
deriving DecidableEq

/-- `challenge::MAX_TRACE`. -/
def MAX_TRACE : Nat := 2 ^ 24

/-- `challenge::MAX_STATE_BYTES`. -/
def MAX_STATE_BYTES : Nat := 64 * 1024

namespace Challenge

def signingFields (r : Challenge) : List (String × Value) :=
  [("type", .string "challenge"), ("bond", u64Value r.bond),
    ("challenger", .string r.challenger), ("claim_id", .string r.claimId),
    ("created_at", .string r.createdAt), ("root", .string r.root), ("states", u64Value r.states)]

def toValue (r : Challenge) : Value := signedValue r.signingFields r.signature

def id [Sha256] (r : Challenge) : String := r.toValue.digest

def verifySignature [Signatures] (r : Challenge) : Except SignatureError Unit :=
  verifyKeySignature "challenge" r.challenger (.object r.signingFields) r.signature

def validate (r : Challenge) : Except RecordError Unit := do
  if r.claimId = "" then invalid "challenge" "claim_id" "the id of the claim being disputed"
  if (stripDigestPrefix r.root).isNone then
    invalid "challenge" "root" "a sha256: Merkle root over the trace"
  if r.states.toNat < 2 ∨ r.states.toNat > MAX_TRACE then
    invalid "challenge" "states" "between 2 and 2^24 states"
  if r.bond = 0 then invalid "challenge" "bond" "a bond of at least one unit"

def fromValue (raw : Value) : Except RecordError Challenge := do
  let value ← expectObject raw "challenge"
  let claimId ← requiredString value "challenge" "claim_id"
  let challenger ← requiredString value "challenge" "challenger"
  let root ← requiredString value "challenge" "root"
  let states ← requiredU64 value "challenge" "states"
  let bond ← requiredU64 value "challenge" "bond"
  let createdAt ← requiredString value "challenge" "created_at"
  let signature ← optionalString value "challenge" "signature"
  let record : Challenge := { claimId, challenger, root, states, bond, createdAt, signature }
  record.validate
  return record

theorem fromValue_toValue (r : Challenge) :
    fromValue r.toValue = r.validate.map fun _ => r := by
  obtain ⟨hclaim, hchallenger, hroot, hstates, hbond, hcreated, hsignature⟩ :
      r.toValue.get "claim_id" = some (.string r.claimId) ∧
      r.toValue.get "challenger" = some (.string r.challenger) ∧
      r.toValue.get "root" = some (.string r.root) ∧
      r.toValue.get "states" = some (u64Value r.states) ∧
      r.toValue.get "bond" = some (u64Value r.bond) ∧
      r.toValue.get "created_at" = some (.string r.createdAt) ∧
      r.toValue.get "signature" = r.signature.map .string := by
    simp [toValue, get_signedValue, signingFields, BTreeMap.lookupEntry]
  have hobject : expectObject r.toValue "challenge" = .ok r.toValue := expectObject_object _ _
  unfold fromValue
  rw [hobject]
  simp only [bind, Except.bind, requiredString_of_get hclaim, requiredString_of_get hchallenger,
    requiredString_of_get hroot, requiredU64_of_get hstates, requiredU64_of_get hbond,
    requiredString_of_get hcreated, optionalString_of_get hsignature]
  split <;> rename_i hvalid <;> rw [hvalid] <;> rfl

theorem fromValue_valid {raw : Value} {r : Challenge} (h : fromValue raw = .ok r) :
    r.validate = .ok () := by
  unfold fromValue at h
  simp only [bind_eq_ok] at h
  obtain ⟨_, _, _, _, _, _, _, _, _, _, _, _, _, _, _, _, ⟨⟩, hvalid, h⟩ := h
  cases h
  exact hvalid

theorem length_of_validate {r : Challenge} (h : r.validate = .ok ()) : 2 ≤ r.states.toNat := by
  by_contra hshort
  have hbad : r.states.toNat < 2 ∨ r.states.toNat > MAX_TRACE := .inl (by omega)
  unfold validate at h
  simp only [if_pos hbad] at h
  split_ifs at h <;> cases h

end Challenge

/-- One move of a dispute. -/
structure BisectionMove where
  challengeId : String
  mover : String
  index : UInt64
  state : Value
  path : List String
  createdAt : String
  signature : Option String

namespace BisectionMove

def signingFields (r : BisectionMove) : List (String × Value) :=
  [("type", .string "bisection"), ("challenge_id", .string r.challengeId),
    ("created_at", .string r.createdAt), ("index", u64Value r.index),
    ("mover", .string r.mover), ("path", .array (r.path.map .string)), ("state", r.state)]

def toValue (r : BisectionMove) : Value := signedValue r.signingFields r.signature

def id [Sha256] (r : BisectionMove) : String := r.toValue.digest

def verifySignature [Signatures] (r : BisectionMove) : Except SignatureError Unit :=
  verifyKeySignature "bisection" r.mover (.object r.signingFields) r.signature

def validate (r : BisectionMove) : Except RecordError Unit := do
  if r.challengeId = "" then
    invalid "bisection" "challenge_id" "the id of the challenge being played"
  if r.path.length > MAX_AVAILABILITY_PATH then
    invalid "bisection" "path" "at most 32 sibling hashes"
  if r.state.canonicalBytes.size > MAX_STATE_BYTES then
    invalid "bisection" "state" "a state of at most 64 KiB"

def pathOf (value : Value) : Except RecordError (List String) :=
  match (value.get "path").bind Value.asArray with
  | some items =>
    stringItems (.invalidField "bisection" "path" "a list of hash strings") items
  | none => invalid "bisection" "path" "a list of hash strings"

def fromValue (raw : Value) : Except RecordError BisectionMove := do
  let value ← expectObject raw "bisection"
  let path ← pathOf value
  let challengeId ← requiredString value "bisection" "challenge_id"
  let mover ← requiredString value "bisection" "mover"
  let index ← requiredU64 value "bisection" "index"
  let state ← okOr (.invalidField "bisection" "state" "the state at that index")
    (value.get "state")
  let createdAt ← requiredString value "bisection" "created_at"
  let signature ← optionalString value "bisection" "signature"
  let record : BisectionMove := { challengeId, mover, index, state, path, createdAt, signature }
  record.validate
  return record

theorem fromValue_toValue (r : BisectionMove) :
    fromValue r.toValue = r.validate.map fun _ => r := by
  have hget : r.toValue.get "path" = some (.array (r.path.map .string)) := by
    simp [toValue, get_signedValue, signingFields, BTreeMap.lookupEntry]
  have hpath : pathOf r.toValue = .ok r.path := by
    simp [pathOf, hget, stringItems_map_string]
  obtain ⟨hchallenge, hmover, hindex⟩ :
      r.toValue.get "challenge_id" = some (.string r.challengeId) ∧
      r.toValue.get "mover" = some (.string r.mover) ∧
      r.toValue.get "index" = some (u64Value r.index) := by
    simp [toValue, get_signedValue, signingFields, BTreeMap.lookupEntry]
  have hstate : r.toValue.get "state" = some r.state := by
    simp [toValue, get_signedValue, signingFields, BTreeMap.lookupEntry]
  obtain ⟨hcreated, hsignature⟩ : r.toValue.get "created_at" = some (.string r.createdAt) ∧
      r.toValue.get "signature" = r.signature.map .string := by
    simp [toValue, get_signedValue, signingFields, BTreeMap.lookupEntry]
  have hobject : expectObject r.toValue "bisection" = .ok r.toValue := expectObject_object _ _
  unfold fromValue
  rw [hobject]
  simp only [bind, Except.bind, hpath, requiredString_of_get hchallenge,
    requiredString_of_get hmover, requiredU64_of_get hindex, hstate, requiredString_of_get hcreated,
    optionalString_of_get hsignature, okOr]
  split <;> rename_i hvalid <;> rw [hvalid] <;> rfl

end BisectionMove

/-! ## Peers and committee shares -/

structure PeerRecord where
  identity : String
  transport : String
  addr : String
  seq : UInt64
  createdAt : String
  signature : Option String
deriving DecidableEq

def MAX_PEER_ADDR : Nat := 255

/-- `is_ascii_graphic`, less the quote and the backslash. -/
def isAddrChar (c : Char) : Bool :=
  33 ≤ c.toNat && c.toNat ≤ 126 && c ≠ '"' && c ≠ '\\'

namespace PeerRecord

def signingFields (r : PeerRecord) : List (String × Value) :=
  [("type", .string "peer"), ("addr", .string r.addr), ("created_at", .string r.createdAt),
    ("identity", .string r.identity), ("seq", u64Value r.seq), ("transport", .string r.transport)]

def toValue (r : PeerRecord) : Value := signedValue r.signingFields r.signature

def id [Sha256] (r : PeerRecord) : String := r.toValue.digest

def verifySignature [Signatures] (r : PeerRecord) : Except SignatureError Unit :=
  verifyKeySignature "peer" r.identity (.object r.signingFields) r.signature

def validate (r : PeerRecord) : Except RecordError Unit := do
  if !isHex64 r.identity then
    invalid "peer" "identity" "64 lowercase hex characters of ed25519 public key"
  if !isHex64 r.transport then
    invalid "peer" "transport" "64 lowercase hex characters of transport peer id"
  if r.addr = "" ∨ r.addr.utf8ByteSize > MAX_PEER_ADDR ∨ !r.addr.toList.all isAddrChar then
    invalid "peer" "addr" "1 to 255 printable ASCII characters, no quote or backslash"

def fromValue (raw : Value) : Except RecordError PeerRecord := do
  let value ← expectObject raw "peer"
  let seq ← requiredU64 value "peer" "seq"
  let identity ← requiredString value "peer" "identity"
  let transport ← requiredString value "peer" "transport"
  let addr ← requiredString value "peer" "addr"
  let createdAt ← requiredString value "peer" "created_at"
  let signature ← optionalString value "peer" "signature"
  let record : PeerRecord := { identity, transport, addr, seq, createdAt, signature }
  record.validate
  return record

theorem fromValue_toValue (r : PeerRecord) :
    fromValue r.toValue = r.validate.map fun _ => r := by
  obtain ⟨hseq, hidentity, htransport, haddr, hcreated, hsignature⟩ :
      r.toValue.get "seq" = some (u64Value r.seq) ∧
      r.toValue.get "identity" = some (.string r.identity) ∧
      r.toValue.get "transport" = some (.string r.transport) ∧
      r.toValue.get "addr" = some (.string r.addr) ∧
      r.toValue.get "created_at" = some (.string r.createdAt) ∧
      r.toValue.get "signature" = r.signature.map .string := by
    simp [toValue, get_signedValue, signingFields, BTreeMap.lookupEntry]
  have hobject : expectObject r.toValue "peer" = .ok r.toValue := expectObject_object _ _
  unfold fromValue
  rw [hobject]
  simp only [bind, Except.bind, requiredU64_of_get hseq, requiredString_of_get hidentity,
    requiredString_of_get htransport, requiredString_of_get haddr, requiredString_of_get hcreated,
    optionalString_of_get hsignature]
  split <;> rename_i hvalid <;> rw [hvalid] <;> rfl

end PeerRecord

structure CommitteeShare where
  commitment : String
  seat : UInt8
  x : UInt8
  share : String
  createdAt : String
  identity : String
  signature : Option String

def MAX_SHARE_BYTES : Nat := 1024

/-- The value of a lowercase hexadecimal digit. -/
def nibble (c : Char) : Option UInt8 :=
  if '0' ≤ c ∧ c ≤ '9' then some (UInt8.ofNat (c.toNat - 48))
  else if 'a' ≤ c ∧ c ≤ 'f' then some (UInt8.ofNat (c.toNat - 87))
  else none

/-- Bytes from pairs of hexadecimal digits. -/
def decodeHexChars : List Char → Option (List UInt8)
  | [] => some []
  | [_] => none
  | c :: d :: rest => do
      let high ← nibble c
      let low ← nibble d
      let bytes ← decodeHexChars rest
      return (high <<< 4 ||| low) :: bytes

def decodeHex (text : String) : Option (List UInt8) := decodeHexChars text.toList

namespace CommitteeShare

def signingFields (r : CommitteeShare) : List (String × Value) :=
  [("type", .string "committee_share"), ("commitment", .string r.commitment),
    ("created_at", .string r.createdAt), ("identity", .string r.identity),
    ("seat", u64Value r.seat.toUInt64), ("share", .string r.share),
    ("x", u64Value r.x.toUInt64)]

def toValue (r : CommitteeShare) : Value := signedValue r.signingFields r.signature

def id [Sha256] (r : CommitteeShare) : String := r.toValue.digest

def verifySignature [Signatures] (r : CommitteeShare) : Except SignatureError Unit :=
  verifyKeySignature "committee_share" r.identity (.object r.signingFields) r.signature

def toShare (r : CommitteeShare) : Except RecordError Share :=
  match decodeHex r.share with
  | some data => .ok { index := r.x, data }
  | none => invalid "committee_share" "share" "lowercase hex of even length"

def validate (r : CommitteeShare) : Except RecordError Unit := do
  let hex := (stripDigestPrefix r.commitment).getD ""
  if hex.utf8ByteSize ≠ 64 ∨ (decodeHex hex).isNone then
    invalid "committee_share" "commitment"
      "a commitment record id: \"sha256:\" and 64 lowercase hex characters"
  if r.identity.utf8ByteSize ≠ 64 ∨ (decodeHex r.identity).isNone then
    invalid "committee_share" "identity" "64 lowercase hex characters of an ed25519 public key"
  if r.x = 0 then invalid "committee_share" "x" "a non-zero Shamir x-coordinate"
  let share ← okOr (.invalidField "committee_share" "share" "lowercase hex of even length")
    (decodeHex r.share)
  if share.isEmpty ∨ share.length > MAX_SHARE_BYTES then
    invalid "committee_share" "share" "between 1 and MAX_SHARE_BYTES bytes of share body"

/-- An integer that fits a byte. -/
def smallField (value : Value) (field : String) : Except RecordError UInt8 :=
  match (value.get field).bind Value.asU64 with
  | some n => if n < 256 then .ok n.toUInt8 else invalid "committee_share" field "an integer in 0..=255"
  | none => invalid "committee_share" field "an integer in 0..=255"

def fromValue (raw : Value) : Except RecordError CommitteeShare := do
  let value ← expectObject raw "committee_share"
  let commitment ← requiredString value "committee_share" "commitment"
  let seat ← smallField value "seat"
  let x ← smallField value "x"
  let share ← requiredString value "committee_share" "share"
  let createdAt ← requiredString value "committee_share" "created_at"
  let identity ← requiredString value "committee_share" "identity"
  let signature ← optionalString value "committee_share" "signature"
  return { commitment, seat, x, share, createdAt, identity, signature }

end CommitteeShare

end Cairn.Ports
