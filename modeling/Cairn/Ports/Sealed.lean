import Cairn.Ports.Crypto.Sealing

/-!
# Sealed submissions

`src/sealed.rs`: an artifact, or the claim around it, committed to and sealed to
a committee in one action, and the claim the committee rebuilds from its shares.
The payload is a selection of the claim's fields, and its optional fields are
omitted when absent; `seal_claim` carries every field of a claim but its
relations.
-/

namespace Cairn.Ports.Sealed

open Cairn.Verified
open Cairn.Ports.Canonical
open Cairn.Ports.Crypto
open P2p (Aead Key)

def RECORD_TYPE : String := "sealed_submission"

theorem version_bounds : -(2 ^ 127) ≤ (2 : Int) ∧ (2 : Int) < 2 ^ 127 := by decide

def VERSION : I128 := ⟨2, version_bounds⟩

def PAYLOAD_ARTIFACT : String := "artifact"

def PAYLOAD_NONCE : String := "nonce"

def PAYLOAD_CREATED_AT : String := "created_at"

def PAYLOAD_CITES : String := "cites"

def PAYLOAD_SIGNATURE : String := "signature"

inductive SealedError where
  | artifactNotAnObject
  | envelope (error : EnvelopeError)
  | envelopeNotBound (commitment aad : String)
  | payloadNotUtf8
  | payloadNotCanonical
  | canonical (error : CanonicalError)
  | payloadNotAnObject
  | missingPayloadField (field : String)
  | invalidPayloadField (field expected : String)
  | unexpectedPayloadField (field : String)
  | commitmentMismatch (committed computed : String)
  | notAnObject
  | missingField (field : String)
  | invalidField (field expected : String)
  | unsupportedVersion (version : I128)

/-- An artifact committed to and sealed to a threshold committee. -/
structure SealedSubmission where
  objectiveId : String
  submitter : String
  commitment : String
  envelope : SealedEnvelope
  epoch : UInt64
  createdAt : String

/-! ## On the wire -/

namespace SealedSubmission

def toValue (submission : SealedSubmission) : Value :=
  .object [("type", .string RECORD_TYPE), ("version", .int VERSION),
    ("objective_id", .string submission.objectiveId), ("submitter", .string submission.submitter),
    ("commitment", .string submission.commitment), ("envelope", submission.envelope.toValue),
    ("epoch", u64Value submission.epoch), ("created_at", .string submission.createdAt)]

/-- The envelope must be sealed to this submission's commitment. -/
def checkEnvelopeBound (submission : SealedSubmission) : Except SealedError Unit :=
  ensure (submission.envelope.aad = submission.commitment)
    (.envelopeNotBound submission.commitment submission.envelope.aad)

def fieldString (value : Value) (field : String) : Except SealedError String := do
  let v ← okOr (.missingField field) (value.get field)
  okOr (.invalidField field "a string") v.asStr

def fromValue (value : Value) : Except SealedError SealedSubmission := do
  ensure value.asObject.isSome .notAnObject
  let tag ← okOr (.missingField "type") (value.get "type")
  ensure (tag.asStr = some RECORD_TYPE) (.invalidField "type" "\"sealed_submission\"")
  let raw ← okOr (.missingField "version") (value.get "version")
  let version ← okOr (.invalidField "version" "an integer") raw.asI128
  ensure (version = VERSION) (.unsupportedVersion version)
  let raw ← okOr (.missingField "epoch") (value.get "epoch")
  let epoch ← okOr (.invalidField "epoch" "an integer in 0..2^64") raw.asU64
  let raw ← okOr (.missingField "envelope") (value.get "envelope")
  let envelope ← (SealedEnvelope.fromValue raw).mapError .envelope
  let objectiveId ← fieldString value "objective_id"
  let submitter ← fieldString value "submitter"
  let commitment ← fieldString value "commitment"
  let createdAt ← fieldString value "created_at"
  let submission : SealedSubmission :=
    { objectiveId, submitter, commitment, envelope, epoch, createdAt }
  submission.checkEnvelopeBound
  pure submission

theorem fieldString_of_get {value : Value} {field text : String}
    (h : value.get field = some (.string text)) : fieldString value field = .ok text :=
  bind_eq_ok.mpr ⟨_, okOr_eq_ok.mpr h, rfl⟩

/-- What is decoded is bound. -/
theorem bound_of_fromValue {value : Value} {submission : SealedSubmission}
    (h : fromValue value = .ok submission) : submission.envelope.aad = submission.commitment := by
  unfold fromValue at h
  simp only [bind_eq_ok] at h
  obtain ⟨_, -, _, -, _, -, _, -, _, -, _, -, _, -, _, -, _, -, _, -, _, -, _, -, _, -, _, -, _,
    hbound, h⟩ := h
  cases h
  exact ensure_eq_ok.mp hbound

/-- A submission is read back when its envelope is bound to its commitment. -/
theorem fromValue_toValue_iff (submission : SealedSubmission) :
    fromValue submission.toValue = .ok submission ↔
      submission.envelope.aad = submission.commitment := by
  have hget : ∀ key, submission.toValue.get key = BTreeMap.lookupEntry key _ := Value.get_object _
  have hid : fieldString submission.toValue "objective_id" = .ok submission.objectiveId :=
    fieldString_of_get (by simp [hget, BTreeMap.lookupEntry])
  have hsubmitter : fieldString submission.toValue "submitter" = .ok submission.submitter :=
    fieldString_of_get (by simp [hget, BTreeMap.lookupEntry])
  have hcommitment : fieldString submission.toValue "commitment" = .ok submission.commitment :=
    fieldString_of_get (by simp [hget, BTreeMap.lookupEntry])
  have hcreated : fieldString submission.toValue "created_at" = .ok submission.createdAt :=
    fieldString_of_get (by simp [hget, BTreeMap.lookupEntry])
  constructor
  · exact bound_of_fromValue
  · intro hbound
    refine bind_eq_ok.mpr ⟨(), ensure_eq_ok.mpr (asObject_object _), ?_⟩
    refine bind_eq_ok.mpr ⟨.string RECORD_TYPE, by simp [hget, BTreeMap.lookupEntry], ?_⟩
    refine bind_eq_ok.mpr ⟨(), ensure_eq_ok.mpr rfl, ?_⟩
    refine bind_eq_ok.mpr ⟨.int VERSION, by simp [hget, BTreeMap.lookupEntry], ?_⟩
    refine bind_eq_ok.mpr ⟨VERSION, rfl, bind_eq_ok.mpr ⟨(), ensure_eq_ok.mpr rfl, ?_⟩⟩
    refine bind_eq_ok.mpr ⟨u64Value submission.epoch, by simp [hget, BTreeMap.lookupEntry], ?_⟩
    refine bind_eq_ok.mpr ⟨submission.epoch, by rw [asU64_u64Value, okOr_some], ?_⟩
    refine bind_eq_ok.mpr ⟨submission.envelope.toValue, by simp [hget, BTreeMap.lookupEntry], ?_⟩
    refine bind_eq_ok.mpr ⟨submission.envelope,
      mapError_eq_ok.mpr (SealedEnvelope.fromValue_toValue _), ?_⟩
    exact bind_eq_ok.mpr ⟨_, hid, bind_eq_ok.mpr ⟨_, hsubmitter, bind_eq_ok.mpr ⟨_, hcommitment,
      bind_eq_ok.mpr ⟨_, hcreated, bind_eq_ok.mpr ⟨(), ensure_eq_ok.mpr hbound, rfl⟩⟩⟩⟩⟩

end SealedSubmission

/-! ## Sealing -/

/-- The payload as a value: the fields that are there. -/
def payloadValue (artifact : Value) (nonce : String) (createdAt : Option String)
    (cites : List String) (signature : Option String) : Value :=
  .object ([(PAYLOAD_ARTIFACT, artifact), (PAYLOAD_NONCE, .string nonce)] ++
    optField PAYLOAD_CREATED_AT (createdAt.map .string) ++
    optField PAYLOAD_CITES (if cites = [] then none else some (.array (cites.map .string))) ++
    optField PAYLOAD_SIGNATURE (signature.map .string))

def payloadBytes (artifact : Value) (nonce : String) (createdAt : Option String)
    (cites : List String) (signature : Option String) : List UInt8 :=
  (payloadValue artifact nonce createdAt cites signature).canonicalBytes.data.toList

section Sealing

variable [Sha256] [Rng] [Kems] [Aead]

/-- `SealedSubmission::seal_claim`. -/
def SealedSubmission.sealClaim (claim : Claim) (epoch : UInt64) (createdAt : String)
    (committee : List CommitteeMember) (threshold : UInt8) (rng : Rng.State) :
    Except SealedError SealedSubmission := do
  ensure claim.artifact.asObject.isSome .artifactNotAnObject
  let commitment := commitmentHash claim.objectiveId claim.submitter claim.artifact claim.nonce
  let payload := payloadBytes claim.artifact claim.nonce (some claim.createdAt) claim.cites
    claim.signature
  let envelope ←
    (SealedEnvelope.sealPayload payload commitment committee threshold rng).mapError .envelope
  pure { objectiveId := claim.objectiveId, submitter := claim.submitter, commitment, envelope,
         epoch, createdAt }

end Sealing

/-! ## Opening -/

/-- The loop over the keys of a payload, which are a closed set. -/
def checkPayloadKeys (keys : List String) : Except SealedError Unit :=
  match keys.find? fun key => key ∉ [PAYLOAD_ARTIFACT, PAYLOAD_NONCE, PAYLOAD_CREATED_AT,
    PAYLOAD_CITES, PAYLOAD_SIGNATURE] with
  | some key => .error (.unexpectedPayloadField key)
  | none => .ok ()

def optionalText (parsed : Value) (field : String) : Except SealedError (Option String) :=
  match parsed.get field with
  | none => .ok none
  | some v => (okOr (.invalidPayloadField field "a string") v.asStr).map some

def citedIds (parsed : Value) : Except SealedError (List String) :=
  match parsed.get PAYLOAD_CITES with
  | none => .ok []
  | some v => do
      let items ← okOr (.invalidPayloadField PAYLOAD_CITES "an array of claim id strings") v.asArray
      items.mapM fun item =>
        okOr (.invalidPayloadField PAYLOAD_CITES "an array of claim id strings") item.asStr

/-- What a payload opens to, before the binding is checked. -/
def readPayload (payload : List UInt8) : Except SealedError OpenedSubmission := do
  let text ← okOr .payloadNotUtf8 (String.fromUTF8? (ByteArray.mk payload.toArray))
  let parsed ← (Value.fromJson text).mapError .canonical
  ensure (parsed.canonicalBytes.data.toList = payload) .payloadNotCanonical
  let fields ← okOr .payloadNotAnObject parsed.asObject
  checkPayloadKeys fields.keys
  let artifact ← okOr (.missingPayloadField PAYLOAD_ARTIFACT) (parsed.get PAYLOAD_ARTIFACT)
  let nonce ← okOr (.missingPayloadField PAYLOAD_NONCE) (parsed.get PAYLOAD_NONCE)
  let nonce ← okOr (.invalidPayloadField PAYLOAD_NONCE "a string") nonce.asStr
  let createdAt ← optionalText parsed PAYLOAD_CREATED_AT
  let signature ← optionalText parsed PAYLOAD_SIGNATURE
  let cites ← citedIds parsed
  pure { artifact, nonce, createdAt, cites, signature }

section Payload

variable (artifact : Value) (nonce : String) (createdAt : Option String) (cites : List String)
  (signature : Option String)

theorem get_payloadValue (key : String) :
    (payloadValue artifact nonce createdAt cites signature).get key =
      (if key = PAYLOAD_SIGNATURE then signature.map .string else none).or
        ((if key = PAYLOAD_CITES then
            if cites = [] then none else some (.array (cites.map .string)) else none).or
          ((if key = PAYLOAD_CREATED_AT then createdAt.map .string else none).or
            (if key = PAYLOAD_NONCE then some (.string nonce)
              else if key = PAYLOAD_ARTIFACT then some artifact else none))) := by
  rw [payloadValue, Value.get_object]
  simp [lookupEntry_append, BTreeMap.lookupEntry]

/-- What a payload holds. -/
theorem mem_payloadValue {map : BTreeMap String Value}
    (hmap : (payloadValue artifact nonce createdAt cites signature).asObject = some map)
    {e : String × Value} (he : e ∈ map.entries) :
    e = (PAYLOAD_ARTIFACT, artifact) ∨ e = (PAYLOAD_NONCE, .string nonce) ∨
      (∃ text, e = (PAYLOAD_CREATED_AT, .string text)) ∨
      e = (PAYLOAD_CITES, .array (cites.map .string)) ∨
      ∃ text, e = (PAYLOAD_SIGNATURE, .string text) := by
  have hobject := asObject_eq_some_iff.mp hmap
  have hget : map.get? e.1 = some e.2 := BTreeMap.get?_eq_some_iff.mpr he
  rw [← Value.get_objectOf, ← hobject, payloadValue, Value.get_object] at hget
  have hmem := List.mem_reverse.mp (BTreeMap.lookupEntry_eq_some hget)
  simp only [List.mem_append, List.mem_cons, List.not_mem_nil, or_false] at hmem
  rcases hmem with ((((h | h) | h) | h) | h)
  · exact .inl h
  · exact .inr (.inl h)
  · cases createdAt with
    | none => cases h
    | some text => exact .inr (.inr (.inl ⟨text, List.mem_singleton.mp h⟩))
  · by_cases hcites : cites = []
    · rw [if_pos hcites] at h
      cases h
    · rw [if_neg hcites] at h
      exact .inr (.inr (.inr (.inl (List.mem_singleton.mp h))))
  · cases signature with
    | none => cases h
    | some text => exact .inr (.inr (.inr (.inr ⟨text, List.mem_singleton.mp h⟩)))

theorem depth_payloadValue (hdepth : artifact.depth < MAX_DEPTH) :
    (payloadValue artifact nonce createdAt cites signature).depth ≤ MAX_DEPTH := by
  obtain ⟨map, hmap⟩ := Option.isSome_iff_exists.mp (asObject_object _ :
    (payloadValue artifact nonce createdAt cites signature).asObject.isSome)
  have hobject : payloadValue artifact nonce createdAt cites signature = .objectOf map :=
    asObject_eq_some_iff.mp hmap
  rw [hobject, Value.depth_objectOf_le]
  have hone : 0 + 1 ≤ MAX_DEPTH := by decide
  intro e he
  rcases mem_payloadValue artifact nonce createdAt cites signature hmap he with
    rfl | rfl | ⟨text, rfl⟩ | rfl | ⟨text, rfl⟩
  · exact hdepth
  · exact hone
  · exact hone
  · have hflat : (Value.array (cites.map .string)).depth ≤ 1 := by
      refine Value.depth_array_le.mpr fun v hv => ?_
      obtain ⟨text, -, rfl⟩ := List.mem_map.mp hv
      exact le_rfl
    exact (Nat.succ_le_succ hflat).trans (by decide)
  · exact hone

/-- A payload is read as it was written. -/
theorem readPayload_payloadBytes (hdepth : artifact.depth < MAX_DEPTH) :
    readPayload (payloadBytes artifact nonce createdAt cites signature) =
      .ok { artifact, nonce, createdAt, cites, signature } := by
  generalize hvalue : payloadValue artifact nonce createdAt cites signature = value
  have hdeep : value.depth ≤ MAX_DEPTH := by
    rw [← hvalue]
    exact depth_payloadValue artifact nonce createdAt cites signature hdepth
  obtain ⟨map, hmap⟩ : ∃ map, value.asObject = some map := by
    rw [← hvalue]
    exact Option.isSome_iff_exists.mp (asObject_object _)
  have hkeys : checkPayloadKeys map.keys = .ok () := by
    have hnone : map.keys.find? (fun key => key ∉ [PAYLOAD_ARTIFACT, PAYLOAD_NONCE,
        PAYLOAD_CREATED_AT, PAYLOAD_CITES, PAYLOAD_SIGNATURE]) = none := by
      refine List.find?_eq_none.mpr fun key hkey => ?_
      obtain ⟨e, he, rfl⟩ := List.mem_map.mp hkey
      rw [← hvalue] at hmap
      rcases mem_payloadValue artifact nonce createdAt cites signature hmap he with
        rfl | rfl | ⟨text, rfl⟩ | rfl | ⟨text, rfl⟩ <;> simp
    rw [checkPayloadKeys, hnone]
  have hget : ∀ key, value.get key = _ := fun key => by
    rw [← hvalue, get_payloadValue]
  have hartifact : value.get PAYLOAD_ARTIFACT = some artifact := by
    simp [hget, PAYLOAD_ARTIFACT, PAYLOAD_NONCE, PAYLOAD_CREATED_AT, PAYLOAD_CITES,
      PAYLOAD_SIGNATURE]
  have hnonce : value.get PAYLOAD_NONCE = some (.string nonce) := by
    simp [hget, PAYLOAD_NONCE, PAYLOAD_CREATED_AT, PAYLOAD_CITES, PAYLOAD_SIGNATURE]
  have hcreated : optionalText value PAYLOAD_CREATED_AT = .ok createdAt := by
    have h : value.get PAYLOAD_CREATED_AT = createdAt.map .string := by
      simp [hget, PAYLOAD_NONCE, PAYLOAD_ARTIFACT, PAYLOAD_CREATED_AT, PAYLOAD_CITES,
        PAYLOAD_SIGNATURE]
    rw [optionalText, h]
    cases createdAt <;> rfl
  have hsignature : optionalText value PAYLOAD_SIGNATURE = .ok signature := by
    have h : value.get PAYLOAD_SIGNATURE = signature.map .string := by
      simp [hget, PAYLOAD_NONCE, PAYLOAD_ARTIFACT, PAYLOAD_CREATED_AT, PAYLOAD_CITES,
        PAYLOAD_SIGNATURE]
    rw [optionalText, h]
    cases signature <;> rfl
  have hcites : citedIds value = .ok cites := by
    have h : value.get PAYLOAD_CITES =
        if cites = [] then none else some (.array (cites.map .string)) := by
      simp [hget, PAYLOAD_NONCE, PAYLOAD_ARTIFACT, PAYLOAD_CREATED_AT, PAYLOAD_CITES,
        PAYLOAD_SIGNATURE]
    rw [citedIds, h]
    split_ifs with hnil
    · rw [hnil]
    · refine bind_eq_ok.mpr ⟨cites.map .string, by rw [Value.asArray_array, okOr_some], ?_⟩
      exact mapM_map_eq_ok fun _ _ => rfl
  have hbytes : payloadBytes artifact nonce createdAt cites signature =
      value.canonicalBytes.data.toList := by
    rw [payloadBytes, hvalue]
  rw [hbytes]
  refine bind_eq_ok.mpr ⟨value.canonicalString, okOr_eq_ok.mpr ?_, ?_⟩
  · rw [Array.toArray_toList]
    exact Wire.fromUTF8?_toUTF8 _
  refine bind_eq_ok.mpr ⟨value, mapError_eq_ok.mpr (Value.fromJson_canonicalString value hdeep), ?_⟩
  refine bind_eq_ok.mpr ⟨(), ensure_eq_ok.mpr rfl, bind_eq_ok.mpr ⟨map, okOr_eq_ok.mpr hmap, ?_⟩⟩
  refine bind_eq_ok.mpr ⟨(), hkeys, bind_eq_ok.mpr ⟨artifact, okOr_eq_ok.mpr hartifact, ?_⟩⟩
  exact bind_eq_ok.mpr ⟨_, okOr_eq_ok.mpr hnonce, bind_eq_ok.mpr ⟨nonce, rfl, bind_eq_ok.mpr ⟨_,
    hcreated, bind_eq_ok.mpr ⟨_, hsignature, bind_eq_ok.mpr ⟨_, hcites, rfl⟩⟩⟩⟩⟩

end Payload

section Opening

variable [Sha256] [Aead]

/-- `open`: open a submission from committee shares and check the binding. -/
def openSubmission (submission : SealedSubmission) (shares : List Share) :
    Except SealedError OpenedSubmission := do
  submission.checkEnvelopeBound
  let payload ← (submission.envelope.openWithShares shares).mapError .envelope
  let opened ← readPayload payload
  let recomputed := commitmentHash submission.objectiveId submission.submitter opened.artifact
    opened.nonce
  ensure (recomputed = submission.commitment) (.commitmentMismatch submission.commitment recomputed)
  ensure opened.artifact.asObject.isSome .artifactNotAnObject
  pure opened

omit [Sha256] [Aead] in
theorem toClaim_eq_ok {opened : OpenedSubmission} {objectiveId submitter fallback : String}
    {claim : Claim} (h : opened.toClaim objectiveId submitter fallback = .ok claim) :
    claim = { objectiveId, submitter, artifact := opened.artifact, nonce := opened.nonce,
              createdAt := opened.createdAt.getD fallback, cites := opened.cites, relations := [],
              signature := opened.signature } := by
  obtain ⟨_, _, h⟩ := bind_eq_ok.mp h
  cases h
  rfl

/-- Whatever the submission, what opens is what was committed to. -/
theorem commitmentHash_of_openSubmission {submission : SealedSubmission} {shares : List Share}
    {opened : OpenedSubmission} (h : openSubmission submission shares = .ok opened)
    {fallback : String} {claim : Claim}
    (hclaim : opened.toClaim submission.objectiveId submission.submitter fallback = .ok claim) :
    claim.commitmentHash = submission.commitment := by
  obtain ⟨_, _, h⟩ := bind_eq_ok.mp h
  obtain ⟨_, _, h⟩ := bind_eq_ok.mp h
  obtain ⟨_, _, h⟩ := bind_eq_ok.mp h
  obtain ⟨_, hbinding, h⟩ := bind_eq_ok.mp h
  obtain ⟨_, _, h⟩ := bind_eq_ok.mp h
  cases h
  rw [toClaim_eq_ok hclaim]
  exact ensure_eq_ok.mp hbinding

omit [Sha256] [Aead] in
/-- A claim without its relations passes the checks it passed. -/
theorem validate_without_relations {claim : Claim} {signature : Option String}
    (h : claim.validate = .ok ()) :
    { claim with relations := [], signature := signature }.validate = .ok () := by
  obtain ⟨_, hsubmitter, h⟩ := bind_eq_ok.mp h
  refine bind_eq_ok.mpr ⟨(), hsubmitter, ?_⟩
  by_cases hnone : claim.artifact.asObject.isNone = true
  · rw [if_pos hnone] at h
    cases h
  · rw [if_neg hnone] at h ⊢
    obtain ⟨_, hcites, -⟩ := bind_eq_ok.mp h
    exact bind_eq_ok.mpr ⟨(), hcites, rfl⟩

variable [Rng] [Kems]

/-- What a sealed claim opens to: the claim without its relations. -/
theorem openSubmission_sealClaim (haead : AeadCorrect) {claim : Claim}
    (hvalid : claim.validate = .ok ()) (hdepth : claim.artifact.depth < MAX_DEPTH) {epoch : UInt64}
    {createdAt : String} {committee : List CommitteeMember} {threshold : UInt8} {rng : Rng.State}
    {submission : SealedSubmission}
    (h : SealedSubmission.sealClaim claim epoch createdAt committee threshold rng = .ok submission)
    {keys : List (UInt8 × CommitteeKey)} (hkeys : ∀ k ∈ keys, Holds committee k.1 k.2)
    (hseats : (keys.map Prod.fst).Nodup) (henough : threshold.toNat ≤ keys.length) :
    submission.envelope.aad = submission.commitment ∧ ∃ shares opened,
      keys.mapM (fun k => k.2.openShare submission.envelope k.1) = .ok shares ∧
      openSubmission submission shares = .ok opened ∧
      ∀ fallback, opened.toClaim claim.objectiveId claim.submitter fallback =
        .ok { claim with relations := [] } := by
  obtain ⟨_, hobject, h⟩ := bind_eq_ok.mp h
  obtain ⟨envelope, hseal, h⟩ := bind_eq_ok.mp h
  cases h
  rw [mapError_eq_ok] at hseal
  obtain ⟨shares, hshares, hopen⟩ :=
    openWithShares_of_seal haead hseal hkeys hseats henough
  have hbound : envelope.aad = claim.commitmentHash := by
    obtain ⟨⟨_, _⟩, hretaining, rfl⟩ := map_eq_ok.mp hseal
    exact (sealRetainingKey_eq_ok hretaining).1
  have hread := readPayload_payloadBytes claim.artifact claim.nonce (some claim.createdAt)
    claim.cites claim.signature hdepth
  refine ⟨hbound, shares, _, hshares, bind_eq_ok.mpr ⟨(), ensure_eq_ok.mpr hbound,
    bind_eq_ok.mpr ⟨_, mapError_eq_ok.mpr hopen, bind_eq_ok.mpr ⟨_, hread,
      bind_eq_ok.mpr ⟨(), ensure_eq_ok.mpr rfl, bind_eq_ok.mpr ⟨(), hobject, rfl⟩⟩⟩⟩⟩, ?_⟩
  intro fallback
  exact bind_eq_ok.mpr ⟨(), validate_without_relations hvalid, rfl⟩

end Opening

/-- Sealed submissions: what is decoded is what was encoded for the bound ones,
what opens is what was committed to, and the claim that lands is the claim that
was sealed exactly if it has no relations. -/
theorem sealed_claim_returns [Sha256] [Aead] [Rng] [Kems] (haead : AeadCorrect) :
    (∀ submission : SealedSubmission,
      SealedSubmission.fromValue submission.toValue = .ok submission ↔
        submission.envelope.aad = submission.commitment) ∧
    (∀ (submission : SealedSubmission) (shares : List Share) (opened : OpenedSubmission)
      (fallback : String) (claim : Claim), openSubmission submission shares = .ok opened →
      opened.toClaim submission.objectiveId submission.submitter fallback = .ok claim →
      claim.commitmentHash = submission.commitment) ∧
    ∀ (claim : Claim) (epoch : UInt64) (createdAt : String) (committee : List CommitteeMember)
      (threshold : UInt8) (rng : Rng.State) (submission : SealedSubmission)
      (keys : List (UInt8 × CommitteeKey)), claim.validate = .ok () →
      claim.artifact.depth < MAX_DEPTH →
      SealedSubmission.sealClaim claim epoch createdAt committee threshold rng = .ok submission →
      (∀ k ∈ keys, Holds committee k.1 k.2) → (keys.map Prod.fst).Nodup →
      threshold.toNat ≤ keys.length →
      SealedSubmission.fromValue submission.toValue = .ok submission ∧ ∃ shares opened,
        keys.mapM (fun k => k.2.openShare submission.envelope k.1) = .ok shares ∧
        openSubmission submission shares = .ok opened ∧
        ∀ fallback, opened.toClaim claim.objectiveId claim.submitter fallback = .ok claim ↔
          claim.relations = [] := by
  refine ⟨SealedSubmission.fromValue_toValue_iff,
    fun _ _ _ _ _ h hclaim => commitmentHash_of_openSubmission h hclaim, ?_⟩
  intro claim epoch createdAt committee threshold rng submission keys hvalid hdepth hseal hkeys
    hseats henough
  obtain ⟨hbound, shares, opened, hshares, hopen, hclaim⟩ :=
    openSubmission_sealClaim haead hvalid hdepth hseal hkeys hseats henough
  refine ⟨(SealedSubmission.fromValue_toValue_iff submission).mpr hbound, shares, opened, hshares,
    hopen, fun fallback => ?_⟩
  rw [hclaim fallback, Except.ok.injEq]
  constructor
  · exact fun h => (congrArg Claim.relations h).symm
  · exact fun h => by rw [← h]

/-! ## A claim that lands as it was sealed, and one that does not -/

/-- A hash of the length. -/
@[reducible] def sizeHash : Sha256 where
  hash data := digestOfNat data.size

/-- A generator that fills in the same byte. -/
@[reducible] def sampleRng : Rng where
  State := Unit
  fill n _ := (Vector.replicate n 7, ())

@[reducible] def sampleKems : @Kems sampleRng :=
  letI := sampleRng
  { encapsulate := fun _ _ rng => ((Vector.replicate _ 1, Vector.replicate 32 5), rng)
    decapsulate := fun _ _ _ => Vector.replicate 32 5 }

/-- An AEAD whose tag is everything it authenticates. -/
@[reducible] def sampleAead : Aead where
  encrypt key nonce text associated := some (key.toList ++ nonce ++ associated ++ text)
  decrypt key nonce ciphertext associated :=
    if (key.toList ++ nonce ++ associated).isPrefixOf ciphertext then
      some (ciphertext.drop (key.toList ++ nonce ++ associated).length)
    else none

attribute [local instance] sizeHash sampleRng sampleKems sampleAead

theorem sampleAead_correct : AeadCorrect := by
  rintro key nonce text associated _ ⟨⟩
  show (if _ then _ else _) = _
  rw [if_pos (List.isPrefixOf_iff_prefix.mpr (List.prefix_append _ _)), List.drop_left]

/-- A McEliece key and nothing else. -/
def sampleSecrets (publicBytes : List UInt8) : SecretBundle where
  keys := [⟨.mcEliece, [0], publicBytes⟩]
  ordered := ⟨List.pairwise_singleton _ _, .mcEliece, List.mem_singleton_self _, rfl⟩

def sampleKeys : List (UInt8 × CommitteeKey) :=
  [(1, ⟨sampleSecrets [1]⟩), (2, ⟨sampleSecrets [1, 1]⟩)]

def sampleCommittee : List CommitteeMember :=
  sampleKeys.map fun k => ⟨k.1, k.2.secrets.publicBundle⟩

/-- A claim that refutes another one, or says nothing about others. -/
def sampleClaim (relations : List ClaimRelation) : Claim where
  objectiveId := "o"
  submitter := "alice"
  artifact := .object []
  nonce := "n"
  createdAt := "2026-07-28T00:00:00+00:00"
  cites := ["c"]
  relations := relations
  signature := none

theorem sampleKeys_hold : ∀ k ∈ sampleKeys, Holds sampleCommittee k.1 k.2 := by
  intro k hk
  refine ⟨fun key hkey rng => ?_, _, List.mem_map_of_mem hk, rfl, rfl⟩
  rfl

theorem sealClaim_sample (relations : List ClaimRelation) : ∃ submission,
    SealedSubmission.sealClaim (sampleClaim relations) 7 "2026-07-28T00:00:00+00:00"
      sampleCommittee 2 () = .ok submission := by
  have h : (SealedSubmission.sealClaim (sampleClaim []) 7 "2026-07-28T00:00:00+00:00"
      sampleCommittee 2 ()).toBool = true := by
    decide +kernel
  -- Sealing does not look at the relations.
  have hsame : SealedSubmission.sealClaim (sampleClaim relations) 7 "2026-07-28T00:00:00+00:00"
      sampleCommittee 2 () = SealedSubmission.sealClaim (sampleClaim []) 7
        "2026-07-28T00:00:00+00:00" sampleCommittee 2 () := rfl
  rw [hsame]
  cases hseal : SealedSubmission.sealClaim (sampleClaim []) 7 "2026-07-28T00:00:00+00:00"
      sampleCommittee 2 () with
  | ok submission => exact ⟨submission, rfl⟩
  | error error => rw [hseal] at h; cases h

/-- A claim that says something about another one comes back silent. -/
theorem relations_lost : ∃ submission shares opened,
    (sampleClaim [⟨.refutes, "x"⟩]).validate = .ok () ∧
    SealedSubmission.sealClaim (sampleClaim [⟨.refutes, "x"⟩]) 7 "2026-07-28T00:00:00+00:00"
      sampleCommittee 2 () = .ok submission ∧
    sampleKeys.mapM (fun k => k.2.openShare submission.envelope k.1) = .ok shares ∧
    openSubmission submission shares = .ok opened ∧
    opened.toClaim "o" "alice" "" = .ok (sampleClaim []) ∧
    sampleClaim [] ≠ sampleClaim [⟨.refutes, "x"⟩] := by
  obtain ⟨submission, hseal⟩ := sealClaim_sample [⟨.refutes, "x"⟩]
  have hvalid : (sampleClaim [⟨.refutes, "x"⟩]).validate = .ok () := by decide
  obtain ⟨-, shares, opened, hshares, hopen, hclaim⟩ := openSubmission_sealClaim sampleAead_correct
    hvalid (by decide) hseal sampleKeys_hold (by decide) (by decide)
  exact ⟨submission, shares, opened, hvalid, hseal, hshares, hopen, hclaim "", by decide⟩

/-- A claim without relations lands as it was sealed. -/
theorem sealed_claim_returns_sample : ∃ submission shares opened,
    SealedSubmission.sealClaim (sampleClaim []) 7 "2026-07-28T00:00:00+00:00" sampleCommittee 2 () =
      .ok submission ∧
    sampleKeys.mapM (fun k => k.2.openShare submission.envelope k.1) = .ok shares ∧
    openSubmission submission shares = .ok opened ∧
    opened.toClaim "o" "alice" "" = .ok (sampleClaim []) ∧
    (sampleClaim []).commitmentHash = submission.commitment := by
  obtain ⟨submission, hseal⟩ := sealClaim_sample []
  have hvalid : (sampleClaim []).validate = .ok () := by decide
  obtain ⟨-, hbinding, hlands⟩ := sealed_claim_returns sampleAead_correct
  obtain ⟨-, shares, opened, hshares, hopen, hiff⟩ := hlands (sampleClaim []) 7
    "2026-07-28T00:00:00+00:00" sampleCommittee 2 () submission sampleKeys hvalid (by decide) hseal
    sampleKeys_hold (by decide) (by decide)
  have hclaim := (hiff "").mpr rfl
  obtain ⟨_, _, hfields⟩ := bind_eq_ok.mp hseal
  obtain ⟨_, _, hfields⟩ := bind_eq_ok.mp hfields
  cases hfields
  exact ⟨_, shares, opened, hseal, hshares, hopen, hclaim, hbinding _ shares opened "" _ hopen hclaim⟩

end Cairn.Ports.Sealed
