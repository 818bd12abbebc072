import Cairn.Ports.Records.Fields

/-!
# Objectives

`Objective` of `src/records.rs`. Its fields are public, so a value need not
have passed `validate`; decoding validates. `fromValue_toValue` says what the
log gives back for a posted objective: the objective if it is valid, and
nothing otherwise, except that a field holding an explicit null is read as an
absent field.
-/

namespace Cairn.Ports

open Cairn.Verified
open Cairn.Ports.Canonical

inductive Confidentiality where
  | publicClass
  | embargoed
  | sealedClass
deriving DecidableEq

def Confidentiality.asStr : Confidentiality → String
  | .publicClass => "public"
  | .embargoed => "embargoed"
  | .sealedClass => "sealed"

def Confidentiality.parse (s : String) : Except RecordError Confidentiality :=
  if s = "public" then .ok .publicClass
  else if s = "embargoed" then .ok .embargoed
  else if s = "sealed" then .ok .sealedClass
  else .error (.unknownConfidentiality s)

structure Objective where
  goal : String
  statement : String
  verifier : Value
  reward : UInt64
  funder : String
  fundingSignature : Option String
  createdAt : String
  deadline : Option String
  ratchet : Option Value
  piecework : Option Value
  confidentiality : Confidentiality
  embargoEpochs : Option UInt64
  artifactSchema : Option Value
  requireSignedSubmitter : Bool
deriving DecidableEq

namespace Objective

/-- An objective with the fields `Objective::new` defaults. -/
def new (goal statement : String) (verifier : Value) (reward : UInt64)
    (funder createdAt : String) (deadline : Option String) (ratchet : Option Value) : Objective where
  goal := goal
  statement := statement
  verifier := verifier
  reward := reward
  funder := funder
  fundingSignature := none
  createdAt := createdAt
  deadline := deadline
  ratchet := ratchet
  piecework := none
  confidentiality := .publicClass
  embargoEpochs := none
  artifactSchema := none
  requireSignedSubmitter := false

/-- How many epochs past its commitment a sealed submission stays closed. -/
def embargo (o : Objective) : UInt64 :=
  match o.confidentiality with
  | .embargoed => o.embargoEpochs.getD 0
  | _ => 0

/-- An optional block has to be an object. -/
def checkBlock (field : String) : Option Value → Except RecordError Unit
  | none => .ok ()
  | some block =>
    if block.asObject.isNone then .error (.invalidField "objective" field "an object")
    else .ok ()

def validate (o : Objective) : Except RecordError Unit := do
  if Lines.trim o.statement.toList = [] then throw .emptyStatement
  match o.verifier.asObject with
  | some map => if !map.containsKey "kind" then throw .verifierWithoutKind
  | none => throw .verifierWithoutKind
  checkBlock "ratchet" o.ratchet
  checkBlock "piecework" o.piecework
  if o.piecework.isSome && o.ratchet.isSome then throw .pieceworkWithRatchet
  if o.embargoEpochs.isSome && o.confidentiality ≠ .embargoed then
    throw (.invalidField "objective" "embargo_epochs"
      "an embargoed objective; a length has no meaning without one")
  if o.embargoEpochs = some 0 then
    throw (.invalidField "objective" "embargo_epochs"
      "at least one epoch; zero is what `public` already means")
  checkBlock "artifact_schema" o.artifactSchema
  if o.confidentiality = .sealedClass then throw .sealedNotImplemented

def verifierKind (o : Objective) : Option String := (o.verifier.get "kind").bind Value.asStr

/-- The fields of the record without its signature. -/
def unsignedFields (o : Objective) : List (String × Value) :=
  [("type", .string "objective"),
    ("goal", .string o.goal),
    ("statement", .string o.statement),
    ("verifier", o.verifier),
    ("reward", u64Value o.reward),
    ("funder", .string o.funder),
    ("created_at", .string o.createdAt)] ++
  optField "deadline" (o.deadline.map .string) ++
  optField "ratchet" o.ratchet ++
  optField "piecework" o.piecework ++
  optField "confidentiality"
    (if o.confidentiality ≠ .publicClass then some (.string o.confidentiality.asStr) else none) ++
  optField "embargo_epochs" (o.embargoEpochs.map u64Value) ++
  optField "artifact_schema" o.artifactSchema ++
  optField "require_signed_submitter"
    (if o.requireSignedSubmitter then some (.bool true) else none)

def unsignedValue (o : Objective) : Value := .object o.unsignedFields

def fundingSigningPayload (o : Objective) : Value :=
  .object [("domain", .string "cairn/objective-funding/v1"), ("objective", o.unsignedValue)]

def verifyFundingSignature [Signatures] (o : Objective) : Except SignatureError Unit :=
  verifyRecordSignature "objective funding" o.funder o.fundingSigningPayload o.fundingSignature

def toValue (o : Objective) : Value :=
  .object (o.unsignedFields ++ optField "funding_signature" (o.fundingSignature.map .string))

def id [Sha256] (o : Objective) : String := o.toValue.digest

/-- The confidentiality class a record names. -/
def confidentialityOf (value : Value) : Except RecordError Confidentiality :=
  match nullable value "confidentiality" with
  | none => .ok .publicClass
  | some v =>
    match v.asStr with
    | some s => Confidentiality.parse s
    | none => .error (.invalidField "objective" "confidentiality"
        "a string naming a confidentiality class")

def embargoEpochsOf (value : Value) : Except RecordError (Option UInt64) :=
  match nullable value "embargo_epochs" with
  | none => .ok none
  | some v =>
    (okOr (.invalidField "objective" "embargo_epochs"
      "a non-negative integer number of epochs") v.asU64).map some

def requireSignedSubmitterOf (value : Value) : Except RecordError Bool :=
  match nullable value "require_signed_submitter" with
  | none => .ok false
  | some v =>
    okOr (.invalidField "objective" "require_signed_submitter" "a boolean") v.asBool

def rewardOf (value : Value) : Except RecordError UInt64 := do
  let raw ← required value "objective" "reward"
  let reward ← okOr (.invalidField "objective" "reward" "an integer unit count") raw.asI128
  okOr (.rewardOutOfRange reward) raw.asU64

def fromValue (raw : Value) : Except RecordError Objective := do
  let value ← expectObject raw "objective"
  let reward ← rewardOf value
  let ratchet := nullable value "ratchet"
  let piecework := nullable value "piecework"
  let confidentiality ← confidentialityOf value
  let embargoEpochs ← embargoEpochsOf value
  let artifactSchema := nullable value "artifact_schema"
  let goal ← requiredString value "objective" "goal"
  let statement ← requiredString value "objective" "statement"
  let verifier ← required value "objective" "verifier"
  let funder ← requiredString value "objective" "funder"
  let fundingSignature ← optionalString value "objective" "funding_signature"
  let createdAt ← requiredString value "objective" "created_at"
  let deadline ← optionalString value "objective" "deadline"
  let requireSignedSubmitter ← requireSignedSubmitterOf value
  let objective : Objective :=
    { goal, statement, verifier, reward, funder, fundingSignature, createdAt, deadline, ratchet,
      piecework, confidentiality, embargoEpochs, artifactSchema, requireSignedSubmitter }
  objective.validate
  return objective

/-! ## Reading a posted objective back -/

theorem get_toValue (o : Objective) (key : String) :
    o.toValue.get key =
      (((((((((if key = "funding_signature" then o.fundingSignature.map .string else none).or
        (if key = "require_signed_submitter" then
          (if o.requireSignedSubmitter then some (.bool true) else none) else none)).or
        (if key = "artifact_schema" then o.artifactSchema else none)).or
        (if key = "embargo_epochs" then o.embargoEpochs.map u64Value else none)).or
        (if key = "confidentiality" then
          (if o.confidentiality ≠ .publicClass then some (.string o.confidentiality.asStr)
            else none) else none)).or
        (if key = "piecework" then o.piecework else none)).or
        (if key = "ratchet" then o.ratchet else none)).or
        (if key = "deadline" then o.deadline.map .string else none)).or
        (BTreeMap.lookupEntry key
          [("created_at", .string o.createdAt), ("funder", .string o.funder),
            ("reward", u64Value o.reward), ("verifier", o.verifier),
            ("statement", .string o.statement), ("goal", .string o.goal),
            ("type", .string "objective")])) := by
  rw [toValue, Value.get_object]
  simp only [unsignedFields, List.reverse_append, lookupEntry_append, reverse_optField,
    lookupEntry_optField, Option.or_assoc]
  rfl

/-- The two readings of an optional field differ only on an explicit null. -/
def NoNulls (o : Objective) : Prop :=
  o.ratchet ≠ some .null ∧ o.piecework ≠ some .null ∧ o.artifactSchema ≠ some .null

instance (o : Objective) : Decidable o.NoNulls := inferInstanceAs (Decidable (_ ∧ _ ∧ _))

theorem confidentialityOf_toValue (o : Objective) :
    confidentialityOf o.toValue = .ok o.confidentiality := by
  have hget : o.toValue.get "confidentiality" =
      (if o.confidentiality ≠ .publicClass then some (.string o.confidentiality.asStr)
        else none) := by
    simp [get_toValue, BTreeMap.lookupEntry]
  unfold confidentialityOf nullable
  rw [hget]
  cases o.confidentiality <;> rfl

theorem embargoEpochsOf_toValue (o : Objective) :
    embargoEpochsOf o.toValue = .ok o.embargoEpochs := by
  have hget : o.toValue.get "embargo_epochs" = o.embargoEpochs.map u64Value := by
    simp [get_toValue, BTreeMap.lookupEntry]
  unfold embargoEpochsOf nullable
  rw [hget]
  cases o.embargoEpochs with
  | none => rfl
  | some n => simp [Except.map]

theorem requireSignedSubmitterOf_toValue (o : Objective) :
    requireSignedSubmitterOf o.toValue = .ok o.requireSignedSubmitter := by
  have hget : o.toValue.get "require_signed_submitter" =
      (if o.requireSignedSubmitter then some (.bool true) else none) := by
    simp [get_toValue, BTreeMap.lookupEntry]
  unfold requireSignedSubmitterOf nullable
  rw [hget]
  cases o.requireSignedSubmitter <;> rfl

theorem rewardOf_toValue (o : Objective) : rewardOf o.toValue = .ok o.reward := by
  have hget : o.toValue.get "reward" = some (u64Value o.reward) := by
    simp [get_toValue, BTreeMap.lookupEntry]
  unfold rewardOf
  rw [required_of_get hget]
  show (okOr (.rewardOutOfRange (.ofUInt64 o.reward)) (u64Value o.reward).asU64 :
    Except RecordError UInt64) = _
  rw [asU64_u64Value, okOr_some]

/-- The objective as its decoder would build it, before validation: explicit
nulls are gone. -/
def stripNulls (o : Objective) : Objective :=
  { o with
    ratchet := o.ratchet.filter fun v => !v.isNull
    piecework := o.piecework.filter fun v => !v.isNull
    artifactSchema := o.artifactSchema.filter fun v => !v.isNull }

/-- What a decoder makes of a posted objective. -/
theorem fromValue_toValue (o : Objective) :
    fromValue o.toValue = o.stripNulls.validate.map fun _ => o.stripNulls := by
  have hratchet : nullable o.toValue "ratchet" = o.ratchet.filter fun v => !v.isNull :=
    nullable_eq_filter (by simp [get_toValue, BTreeMap.lookupEntry])
  have hpiecework : nullable o.toValue "piecework" = o.piecework.filter fun v => !v.isNull :=
    nullable_eq_filter (by simp [get_toValue, BTreeMap.lookupEntry])
  have hschema : nullable o.toValue "artifact_schema" =
      o.artifactSchema.filter fun v => !v.isNull :=
    nullable_eq_filter (by simp [get_toValue, BTreeMap.lookupEntry])
  have hgoal : requiredString o.toValue "objective" "goal" = .ok o.goal :=
    requiredString_of_get (by simp [get_toValue, BTreeMap.lookupEntry])
  have hstatement : requiredString o.toValue "objective" "statement" = .ok o.statement :=
    requiredString_of_get (by simp [get_toValue, BTreeMap.lookupEntry])
  have hverifier : required o.toValue "objective" "verifier" = .ok o.verifier :=
    required_of_get (by simp [get_toValue, BTreeMap.lookupEntry])
  have hfunder : requiredString o.toValue "objective" "funder" = .ok o.funder :=
    requiredString_of_get (by simp [get_toValue, BTreeMap.lookupEntry])
  have hcreated : requiredString o.toValue "objective" "created_at" = .ok o.createdAt :=
    requiredString_of_get (by simp [get_toValue, BTreeMap.lookupEntry])
  have hsignature : optionalString o.toValue "objective" "funding_signature" =
      .ok o.fundingSignature :=
    optionalString_of_get (by simp [get_toValue, BTreeMap.lookupEntry])
  have hdeadline : optionalString o.toValue "objective" "deadline" = .ok o.deadline :=
    optionalString_of_get (by simp [get_toValue, BTreeMap.lookupEntry])
  have hobject : expectObject o.toValue "objective" = .ok o.toValue := expectObject_object _ _
  unfold fromValue
  rw [hobject]
  simp only [bind, Except.bind, rewardOf_toValue, confidentialityOf_toValue,
    embargoEpochsOf_toValue, hgoal, hstatement, hverifier, hfunder, hsignature, hcreated,
    hdeadline, requireSignedSubmitterOf_toValue, hratchet, hpiecework, hschema]
  unfold stripNulls
  split <;> rename_i hvalid <;> rw [hvalid] <;> rfl

theorem stripNulls_of_noNulls {o : Objective} (h : o.NoNulls) : o.stripNulls = o := by
  obtain ⟨hratchet, hpiecework, hschema⟩ := h
  unfold stripNulls
  rw [filter_isNull_of_ne hratchet, filter_isNull_of_ne hpiecework, filter_isNull_of_ne hschema]

/-- A decoded objective is valid. -/
theorem fromValue_valid {raw : Value} {o : Objective} (h : fromValue raw = .ok o) :
    o.validate = .ok () := by
  unfold fromValue at h
  simp only [bind, Except.bind] at h
  repeat' split at h
  all_goals first | exact absurd h (by simp) | skip
  rename_i hvalid
  cases h
  exact hvalid

theorem checkBlock_ne_null {field : String} {block : Option Value}
    (h : checkBlock field block = .ok ()) : block ≠ some .null := by
  rintro rfl
  exact absurd h (by simp [checkBlock, Value.asObject])

/-- A valid objective has no explicit nulls. -/
theorem noNulls_of_validate {o : Objective} (h : o.validate = .ok ()) : o.NoNulls := by
  have hchecks : checkBlock "ratchet" o.ratchet = .ok () ∧
      checkBlock "piecework" o.piecework = .ok () ∧
      checkBlock "artifact_schema" o.artifactSchema = .ok () := by
    unfold validate at h
    simp only [bind, Except.bind] at h
    repeat' split at h
    all_goals first | exact absurd h (by simp [throw, throwThe, MonadExceptOf.throw]) | skip
    all_goals simp_all
  exact ⟨checkBlock_ne_null hchecks.1, checkBlock_ne_null hchecks.2.1,
    checkBlock_ne_null hchecks.2.2⟩

/-- Decoding what a decoder built gives it back. -/
theorem fromValue_decoded {raw : Value} {o : Objective} (h : fromValue raw = .ok o) :
    fromValue o.toValue = .ok o := by
  have hvalid := fromValue_valid h
  rw [fromValue_toValue, stripNulls_of_noNulls (noNulls_of_validate hvalid), hvalid]
  rfl

end Objective

end Cairn.Ports
