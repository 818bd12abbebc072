import Cairn.Ports.Records.Fields

/-!
# Commitments and claims

`Commitment`, `Claim` and `commitment_hash` of `src/records.rs`, and the
opening of a sealed commitment of `src/sealed.rs`. The envelope's ciphers are
a parameter.
-/

namespace Cairn.Ports

open Cairn.Verified
open Cairn.Ports.Canonical

/-- A Shamir share. -/
structure Share where
  index : UInt8
  data : List UInt8

/-- `OpenedSubmission`: what the committee's shares reveal. -/
structure OpenedSubmission where
  artifact : Value
  nonce : String
  createdAt : Option String
  cites : List String
  signature : Option String

/-- Sealed envelopes: the codec of `src/crypto/envelope.rs` and `open` of
`src/sealed.rs`, whose ciphers are outside the model. `openSealed` takes the
submission's commitment hash, objective, submitter and epoch. -/
class Envelopes where
  Envelope : Type
  toValue : Envelope → Value
  fromValue : Value → Except String Envelope
  threshold : Envelope → UInt8
  shareIndices : Envelope → List UInt8
  openSealed : (objectiveId submitter commitment : String) → Envelope → (epoch : UInt64) →
    (createdAt : String) → List Share → Option OpenedSubmission

/-- The hash that binds an artifact before it is shown. -/
def commitmentPreimage [Sha256] (objectiveId submitter : String) (artifact : Value)
    (nonce : String) : String :=
  (Value.object [("objective_id", .string objectiveId), ("artifact", artifact)]).digest
    ++ "|" ++ submitter ++ "|" ++ nonce

def commitmentHash [Sha256] (objectiveId submitter : String) (artifact : Value)
    (nonce : String) : String :=
  digestText (commitmentPreimage objectiveId submitter artifact nonce)

def validateCommitmentSubmitter (submitter : String) : Except RecordError Unit :=
  if submitter.toList.contains '|' then .error .ambiguousSubmitter else .ok ()

/-! ## Commitments -/

structure Commitment [Envelopes] where
  objectiveId : String
  submitter : String
  hash : String
  createdAt : String
  envelope : Option Envelopes.Envelope
  signature : Option String

namespace Commitment

variable [Envelopes]

def signingFields (c : Commitment) : List (String × Value) :=
  [("type", .string "commitment"), ("objective_id", .string c.objectiveId),
    ("submitter", .string c.submitter), ("hash", .string c.hash),
    ("created_at", .string c.createdAt)] ++
  optField "envelope" (c.envelope.map Envelopes.toValue)

def signingPayload (c : Commitment) : Value := .object c.signingFields

def toValue (c : Commitment) : Value :=
  .object (c.signingFields ++ optField "signature" (c.signature.map .string))

def id [Sha256] (c : Commitment) : String := c.toValue.digest

def verifySignature [Signatures] (c : Commitment) : Except SignatureError Unit :=
  verifyRecordSignature "commitment" c.submitter c.signingPayload c.signature

def envelopeOf (value : Value) : Except RecordError (Option Envelopes.Envelope) :=
  match value.get "envelope" with
  | none => .ok none
  | some raw => ((Envelopes.fromValue raw).mapError .malformedEnvelope).map some

def fromValue (raw : Value) : Except RecordError Commitment := do
  let value ← expectObject raw "commitment"
  let envelope ← envelopeOf value
  let objectiveId ← requiredString value "commitment" "objective_id"
  let submitter ← requiredString value "commitment" "submitter"
  let hash ← requiredString value "commitment" "hash"
  let createdAt ← requiredString value "commitment" "created_at"
  let signature ← optionalString value "commitment" "signature"
  let commitment : Commitment := { objectiveId, submitter, hash, createdAt, envelope, signature }
  validateCommitmentSubmitter commitment.submitter
  return commitment

end Commitment

/-! ## Claims -/

/-- What a claim says about another one. -/
inductive Relation where
  | refutes
  | failsToReplicate
  | replicates
  | generalizes
  | narrows
  | corrects
  | supersedes
  | conflictsWith
  | retracts
deriving DecidableEq

def Relation.asStr : Relation → String
  | .refutes => "refutes"
  | .failsToReplicate => "fails_to_replicate"
  | .replicates => "replicates"
  | .generalizes => "generalizes"
  | .narrows => "narrows"
  | .corrects => "corrects"
  | .supersedes => "supersedes"
  | .conflictsWith => "conflicts_with"
  | .retracts => "retracts"

def Relation.all : List Relation :=
  [.refutes, .failsToReplicate, .replicates, .generalizes, .narrows, .corrects, .supersedes,
    .conflictsWith, .retracts]

/-- The relation with this wire name. -/
def Relation.fromWire (text : String) : Option Relation :=
  Relation.all.find? fun relation => relation.asStr = text

@[simp] theorem Relation.fromWire_asStr (r : Relation) : Relation.fromWire r.asStr = some r := by
  cases r <;> rfl

structure ClaimRelation where
  kind : Relation
  target : String
deriving DecidableEq

def ClaimRelation.toValue (r : ClaimRelation) : Value :=
  .object [("kind", .string r.kind.asStr), ("target", .string r.target)]

def ClaimRelation.fromValue (raw : Value) : Except RecordError ClaimRelation := do
  let value ← expectObject raw "claim"
  let kind ← requiredString value "claim" "kind"
  let relation ← okOr (.unknownRelation kind) (Relation.fromWire kind)
  let target ← requiredString value "claim" "target"
  if target = "" then
    throw (.invalidField "claim" "relations" "a non-empty target claim id")
  match value.asObject with
  | some map =>
    if map.keys.any fun key => key ≠ "kind" && key ≠ "target" then
      throw (.invalidField "claim" "relations" "an object with exactly `kind` and `target`")
  | none => pure ()
  return { kind := relation, target }

/-- The relations of an array of objects, in order. -/
def relationItems : List Value → Except RecordError (List ClaimRelation)
  | [] => .ok []
  | item :: items => do
      let relation ← ClaimRelation.fromValue item
      let rest ← relationItems items
      return relation :: rest

structure Claim where
  objectiveId : String
  submitter : String
  artifact : Value
  nonce : String
  createdAt : String
  cites : List String
  relations : List ClaimRelation
  signature : Option String
deriving DecidableEq

namespace Claim

/-- The loop over `cites`: no id twice. -/
def checkCites (seen : List String) : List String → Except RecordError Unit
  | [] => .ok ()
  | cited :: rest =>
    if cited ∈ seen then .error (.duplicateCitation cited)
    else checkCites (cited :: seen) rest

/-- The loop over `relations`: a target, and no target twice. -/
def checkRelations (targets : List String) : List ClaimRelation → Except RecordError Unit
  | [] => .ok ()
  | relation :: rest =>
    if relation.target = "" then
      .error (.invalidField "claim" "relations" "a non-empty target claim id")
    else if relation.target ∈ targets then .error (.duplicateRelation relation.target)
    else checkRelations (relation.target :: targets) rest

def validate (c : Claim) : Except RecordError Unit := do
  validateCommitmentSubmitter c.submitter
  if c.artifact.asObject.isNone then
    throw (.invalidField "claim" "artifact" "an object")
  checkCites [] c.cites
  checkRelations [] c.relations

def signingFields (c : Claim) : List (String × Value) :=
  [("type", .string "claim"), ("objective_id", .string c.objectiveId),
    ("submitter", .string c.submitter), ("artifact", c.artifact), ("nonce", .string c.nonce),
    ("created_at", .string c.createdAt), ("cites", .array (c.cites.map .string))] ++
  optField "relations"
    (if c.relations = [] then none else some (.array (c.relations.map ClaimRelation.toValue)))

def signingPayload (c : Claim) : Value := .object c.signingFields

def toValue (c : Claim) : Value :=
  .object (c.signingFields ++ optField "signature" (c.signature.map .string))

def verifySignature [Signatures] (c : Claim) : Except SignatureError Unit :=
  verifyRecordSignature "claim" c.submitter c.signingPayload c.signature

section Digests

variable [Sha256]

def id (c : Claim) : String := c.toValue.digest

/-- The address of an artifact within its objective. -/
def artifactId (c : Claim) : String :=
  (Value.object [("objective_id", .string c.objectiveId), ("artifact", c.artifact)]).digest

def commitmentHash (c : Claim) : String :=
  Cairn.Ports.commitmentHash c.objectiveId c.submitter c.artifact c.nonce

end Digests

def citesOf (value : Value) : Except RecordError (List String) :=
  match value.get "cites" with
  | none => .ok []
  | some v =>
    match v.asArray with
    | some items =>
      stringItems (.invalidField "claim" "cites" "an array of claim ids") items
    | none => .error (.invalidField "claim" "cites" "an array of claim ids")

def relationsOf (value : Value) : Except RecordError (List ClaimRelation) :=
  match value.get "relations" with
  | none => .ok []
  | some v =>
    match v.asArray with
    | some items => relationItems items
    | none => .error (.invalidField "claim" "relations" "an array of {kind, target} objects")

def fromValue (raw : Value) : Except RecordError Claim := do
  let value ← expectObject raw "claim"
  let cites ← citesOf value
  let relations ← relationsOf value
  let objectiveId ← requiredString value "claim" "objective_id"
  let submitter ← requiredString value "claim" "submitter"
  let artifact ← required value "claim" "artifact"
  let nonce ← requiredString value "claim" "nonce"
  let createdAt ← requiredString value "claim" "created_at"
  let signature ← optionalString value "claim" "signature"
  let claim : Claim :=
    { objectiveId, submitter, artifact, nonce, createdAt, cites, relations, signature }
  claim.validate
  return claim

end Claim

/-- `to_claim`: the claim the submitter sealed, rebuilt. -/
def OpenedSubmission.toClaim (opened : OpenedSubmission) (objectiveId submitter fallback : String) :
    Except RecordError Claim := do
  let claim : Claim :=
    { objectiveId, submitter, artifact := opened.artifact, nonce := opened.nonce,
      createdAt := opened.createdAt.getD fallback, cites := opened.cites, relations := [],
      signature := none }
  claim.validate
  return { claim with signature := opened.signature }

/-- The choices of `k` items, in lexicographic order of their positions. -/
def combinations {α : Type} : Nat → List α → List (List α)
  | 0, _ => [[]]
  | _ + 1, [] => []
  | k + 1, x :: xs => (combinations k xs).map (x :: ·) ++ combinations (k + 1) xs

/-- `open_with_any_subset`: the first choice of `threshold` shares that opens. -/
def openWithAnySubset [Envelopes] (c : Commitment) (envelope : Envelopes.Envelope)
    (epoch : UInt64) (shares : List Share) (threshold : Nat) : Option OpenedSubmission :=
  if threshold = 0 ∨ shares.length < threshold then none
  else (combinations threshold shares).findSome? fun subset =>
    Envelopes.openSealed c.objectiveId c.submitter c.hash envelope epoch c.createdAt subset

/-! ## What a commitment hash pins -/

/-- The objective and artifact the inner digest of a commitment covers. -/
theorem inner_inj {objectiveId objectiveId' : String} {artifact artifact' : Value}
    (h : Value.object [("objective_id", .string objectiveId), ("artifact", artifact)] =
      Value.object [("objective_id", .string objectiveId'), ("artifact", artifact')]) :
    objectiveId = objectiveId' ∧ artifact = artifact' := by
  have hid := congrArg (fun v => v.get "objective_id") h
  have hartifact := congrArg (fun v => v.get "artifact") h
  simp only [Value.get_object, List.reverse_cons, List.reverse_nil, List.nil_append,
    List.cons_append, BTreeMap.lookupEntry] at hid hartifact
  constructor
  · have hstr := congrArg (fun v => v.bind Value.asStr) hid
    simpa using hstr
  · simpa using hartifact

/-- Two lists split at the first occurrence of a separator. -/
theorem split_at_separator {sep : Char} {xs ys xs' ys' : List Char} (hxs : sep ∉ xs)
    (hxs' : sep ∉ xs') (h : xs ++ sep :: ys = xs' ++ sep :: ys') : xs = xs' ∧ ys = ys' := by
  induction xs generalizing xs' with
  | nil =>
    cases xs' with
    | nil => simpa using h
    | cons c xs' =>
      simp only [List.nil_append, List.cons_append, List.cons.injEq] at h
      exact absurd h.1 (fun he => hxs' (by simp [he]))
  | cons c xs ih =>
    cases xs' with
    | nil =>
      simp only [List.nil_append, List.cons_append, List.cons.injEq] at h
      exact absurd h.1.symm (fun he => hxs (by simp [he]))
    | cons c' xs' =>
      simp only [List.cons_append, List.cons.injEq] at h
      have htail := ih (fun hm => hxs (by simp [hm])) (fun hm => hxs' (by simp [hm])) h.2
      exact ⟨by rw [h.1, htail.1], htail.2⟩

section Binding

variable [Sha256]

/-- The texts a commitment hash is computed through. -/
def CommitmentTexts (objectiveId submitter : String) (artifact : Value) (nonce : String)
    (text : String) : Prop :=
  text = commitmentPreimage objectiveId submitter artifact nonce ∨
    text = (Value.object [("objective_id", .string objectiveId),
      ("artifact", artifact)]).canonicalString

/-- Equal preimages have equal parts: the digest has a fixed length and the
submitter ends at the first separator after it. -/
theorem commitmentPreimage_inj {objectiveId objectiveId' submitter submitter' : String}
    {artifact artifact' : Value} {nonce nonce' : String}
    (hsub : '|' ∉ submitter.toList) (hsub' : '|' ∉ submitter'.toList)
    (h : commitmentPreimage objectiveId submitter artifact nonce =
      commitmentPreimage objectiveId' submitter' artifact' nonce') :
    (Value.object [("objective_id", .string objectiveId), ("artifact", artifact)]).digest =
      (Value.object [("objective_id", .string objectiveId'), ("artifact", artifact')]).digest ∧
    submitter = submitter' ∧ nonce = nonce' := by
  have hlist := congrArg String.toList h
  simp only [commitmentPreimage, String.toList_append, List.append_assoc] at hlist
  have hlength : ∀ v : Value, v.digest.toList.length = 71 := fun v => length_digestBytes _
  obtain ⟨hinner, hrest⟩ := List.append_inj hlist (by rw [hlength, hlength])
  have hbar : ("|" : String).toList = ['|'] := rfl
  rw [hbar] at hrest
  have hsplit := split_at_separator hsub hsub' (List.cons.inj hrest).2
  exact ⟨String.toList_inj.mp hinner, String.toList_inj.mp hsplit.1, String.toList_inj.mp hsplit.2⟩

/-- A commitment hash pins what it was computed from. -/
theorem commitmentHash_inj {objectiveId objectiveId' submitter submitter' : String}
    {artifact artifact' : Value} {nonce nonce' : String} {texts : String → Prop}
    (hsub : '|' ∉ submitter.toList) (hsub' : '|' ∉ submitter'.toList) (hcol : NoCollision texts)
    (htexts : ∀ t, CommitmentTexts objectiveId submitter artifact nonce t → texts t)
    (htexts' : ∀ t, CommitmentTexts objectiveId' submitter' artifact' nonce' t → texts t)
    (h : commitmentHash objectiveId submitter artifact nonce =
      commitmentHash objectiveId' submitter' artifact' nonce') :
    objectiveId = objectiveId' ∧ submitter = submitter' ∧ artifact = artifact' ∧
      nonce = nonce' := by
  have hpre := hcol _ _ (htexts _ (.inl rfl)) (htexts' _ (.inl rfl)) h
  obtain ⟨hinner, hsubmitter, hnonce⟩ := commitmentPreimage_inj hsub hsub' hpre
  have hvalue := hcol _ _ (htexts _ (.inr rfl)) (htexts' _ (.inr rfl)) hinner
  obtain ⟨hid, hartifact⟩ := inner_inj (Value.canonicalString_injective hvalue)
  exact ⟨hid, hsubmitter, hartifact, hnonce⟩

end Binding

/-! ## Reading a revealed claim back -/

theorem ClaimRelation.keys_toValue (r : ClaimRelation) {map : BTreeMap String Value}
    (hmap : r.toValue.asObject = some map) :
    (map.keys.any fun key => key ≠ "kind" && key ≠ "target") = false := by
  have hof : map = BTreeMap.ofList [("kind", .string r.kind.asStr), ("target", .string r.target)] := by
    simpa [ClaimRelation.toValue, Value.asObject, Value.object] using hmap.symm
  rw [List.any_eq_false]
  intro key hkey
  obtain ⟨⟨k, v⟩, hmem, rfl⟩ := List.mem_map.mp hkey
  have hget : r.toValue.get k = some v := by
    rw [ClaimRelation.toValue, Value.object, Value.get_objectOf, ← hof]
    exact BTreeMap.get?_eq_some_iff.mpr hmem
  rw [ClaimRelation.toValue, Value.get_object] at hget
  simp only [List.reverse_cons, List.reverse_nil, List.nil_append, List.cons_append,
    BTreeMap.lookupEntry] at hget
  by_cases htarget : k = "target"
  · simp [htarget]
  · by_cases hkind : k = "kind"
    · simp [hkind]
    · simp [htarget, hkind] at hget

theorem ClaimRelation.fromValue_toValue (r : ClaimRelation) :
    ClaimRelation.fromValue r.toValue =
      if r.target = "" then
        .error (.invalidField "claim" "relations" "a non-empty target claim id")
      else .ok r := by
  have hobject : expectObject r.toValue "claim" = .ok r.toValue := expectObject_object _ _
  have hkind : requiredString r.toValue "claim" "kind" = .ok r.kind.asStr :=
    requiredString_of_get (by simp [ClaimRelation.toValue, Value.get_object, BTreeMap.lookupEntry])
  have htarget : requiredString r.toValue "claim" "target" = .ok r.target :=
    requiredString_of_get (by simp [ClaimRelation.toValue, Value.get_object, BTreeMap.lookupEntry])
  unfold ClaimRelation.fromValue
  rw [hobject]
  simp only [bind, Except.bind, hkind, htarget, Relation.fromWire_asStr, okOr_some]
  by_cases hempty : r.target = ""
  · simp [hempty, throw, throwThe, MonadExceptOf.throw]
  · simp only [hempty, if_false]
    cases hmap : r.toValue.asObject with
    | none => rfl
    | some map =>
      simp only [ClaimRelation.keys_toValue r hmap, Bool.false_eq_true, if_false]
      rfl

theorem relationItems_eq_ok {rs rs' : List ClaimRelation}
    (h : relationItems (rs.map ClaimRelation.toValue) = .ok rs') : rs' = rs := by
  induction rs generalizing rs' with
  | nil =>
    rw [List.map_nil, relationItems] at h
    cases h
    rfl
  | cons r rs ih =>
    rw [List.map_cons, relationItems, ClaimRelation.fromValue_toValue] at h
    by_cases hempty : r.target = ""
    · simp [hempty, bind, Except.bind] at h
    · simp only [hempty, if_false, bind, Except.bind] at h
      cases hrest : relationItems (rs.map ClaimRelation.toValue) with
      | error e => simp [hrest] at h
      | ok tail =>
        rw [hrest] at h
        cases h
        rw [ih hrest]

theorem relationItems_of_check {targets : List String} {rs : List ClaimRelation}
    (h : Claim.checkRelations targets rs = .ok ()) :
    relationItems (rs.map ClaimRelation.toValue) = .ok rs := by
  induction rs generalizing targets with
  | nil => rfl
  | cons r rs ih =>
    rw [Claim.checkRelations] at h
    split_ifs at h with hempty hseen
    rw [List.map_cons, relationItems, ClaimRelation.fromValue_toValue, if_neg hempty, ih h]
    rfl

namespace Claim

theorem get_toValue (c : Claim) (key : String) :
    c.toValue.get key =
      ((if key = "signature" then c.signature.map .string else none).or
        (if key = "relations" then
          (if c.relations = [] then none
            else some (.array (c.relations.map ClaimRelation.toValue))) else none)).or
        (BTreeMap.lookupEntry key
          [("cites", .array (c.cites.map .string)), ("created_at", .string c.createdAt),
            ("nonce", .string c.nonce), ("artifact", c.artifact),
            ("submitter", .string c.submitter), ("objective_id", .string c.objectiveId),
            ("type", .string "claim")]) := by
  rw [toValue, Value.get_object]
  simp only [signingFields, List.reverse_append, lookupEntry_append, reverse_optField,
    lookupEntry_optField, Option.or_assoc]
  rfl

theorem citesOf_toValue (c : Claim) : citesOf c.toValue = .ok c.cites := by
  have hget : c.toValue.get "cites" = some (.array (c.cites.map .string)) := by
    simp [get_toValue, BTreeMap.lookupEntry]
  unfold citesOf
  rw [hget]
  simp only [Value.asArray_array]
  exact stringItems_map_string _ _

theorem relationsOf_toValue (c : Claim) :
    relationsOf c.toValue = relationItems (c.relations.map ClaimRelation.toValue) := by
  have hget : c.toValue.get "relations" =
      (if c.relations = [] then none
        else some (.array (c.relations.map ClaimRelation.toValue))) := by
    simp [get_toValue, BTreeMap.lookupEntry]
  unfold relationsOf
  rw [hget]
  by_cases hempty : c.relations = []
  · simp [hempty, relationItems]
  · simp [hempty]

/-- A claim is read back exactly when it is valid, and then unchanged. -/
theorem fromValue_toValue_iff {c c' : Claim} :
    fromValue c.toValue = .ok c' ↔ c' = c ∧ c.validate = .ok () := by
  have hid : requiredString c.toValue "claim" "objective_id" = .ok c.objectiveId :=
    requiredString_of_get (by simp [get_toValue, BTreeMap.lookupEntry])
  have hsubmitter : requiredString c.toValue "claim" "submitter" = .ok c.submitter :=
    requiredString_of_get (by simp [get_toValue, BTreeMap.lookupEntry])
  have hartifact : required c.toValue "claim" "artifact" = .ok c.artifact :=
    required_of_get (by simp [get_toValue, BTreeMap.lookupEntry])
  have hnonce : requiredString c.toValue "claim" "nonce" = .ok c.nonce :=
    requiredString_of_get (by simp [get_toValue, BTreeMap.lookupEntry])
  have hcreated : requiredString c.toValue "claim" "created_at" = .ok c.createdAt :=
    requiredString_of_get (by simp [get_toValue, BTreeMap.lookupEntry])
  have hsignature : optionalString c.toValue "claim" "signature" = .ok c.signature :=
    optionalString_of_get (by simp [get_toValue, BTreeMap.lookupEntry])
  have hobject : expectObject c.toValue "claim" = .ok c.toValue := expectObject_object _ _
  unfold fromValue
  rw [hobject]
  simp only [bind, Except.bind, citesOf_toValue, relationsOf_toValue, hid, hsubmitter, hartifact,
    hnonce, hcreated, hsignature]
  constructor
  · intro h
    cases hrel : relationItems (c.relations.map ClaimRelation.toValue) with
    | error e => simp [hrel] at h
    | ok relations =>
      obtain rfl := relationItems_eq_ok hrel
      rw [hrel] at h
      cases hvalid : c.validate with
      | error e => simp [hvalid] at h
      | ok u =>
        simp only [hvalid] at h
        cases h
        exact ⟨rfl, rfl⟩
  · rintro ⟨rfl, hvalid⟩
    have hrel : relationItems (c'.relations.map ClaimRelation.toValue) = .ok c'.relations := by
      unfold validate at hvalid
      simp only [bind, Except.bind] at hvalid
      repeat' split at hvalid
      all_goals first | exact relationItems_of_check hvalid | exact absurd hvalid (by simp)
    rw [hrel]
    simp only [hvalid]
    rfl

theorem fromValue_valid {raw : Value} {c : Claim} (h : fromValue raw = .ok c) :
    c.validate = .ok () := by
  unfold fromValue at h
  simp only [bind, Except.bind] at h
  repeat' split at h
  all_goals first | exact absurd h (by simp) | skip
  rename_i hvalid
  cases h
  exact hvalid

end Claim

end Cairn.Ports
