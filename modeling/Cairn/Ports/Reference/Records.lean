import Cairn.Ports.Crypto.Envelope
import Cairn.Ports.Records.Objective
import Cairn.Ports.Reference.Money

/-!
# The records of the second implementation

Objectives, commitments and claims of `reference/rust/src/records.rs`. Errors
are texts, a confidentiality class and a relation stay the words they are
written with, and a commitment carries its envelope as the value it came in.
-/

namespace Cairn.Ports.Reference.Records

open Cairn.Verified
open Cairn.Ports.Canonical

/-! ## Fields -/

def quoted (name : String) : String := "\"" ++ name ++ "\""

def field (value : Value) (name : String) : Except String Value :=
  okOr ("missing required field " ++ quoted name) (value.get name)

def text (value : Value) (name : String) : Except String String := do
  let v ← field value name
  okOr ("field " ++ quoted name ++ " must be a string") v.asStr

def optionalText (value : Value) (name : String) : Except String (Option String) :=
  match (value.get name).map Value.view with
  | none | some .null => .ok none
  | some (.string text) => .ok (some text)
  | some _ => .error ("field " ++ quoted name ++ " must be a string")

/-- A field that is null or absent is unset. -/
def present (value : Value) (name : String) : Option Value :=
  match value.get name with
  | none => none
  | some v => if v.isNull then none else some v

/-! ## Objectives -/

def CONFIDENTIALITY_CLASSES : List String := ["public", "embargoed", "sealed"]

def DEFAULT_CONFIDENTIALITY : String := "public"

/-- The reward ceiling of the format. -/
def MAX_UNITS : Int := UInt64.size - 1

structure Objective where
  goal : String
  statement : String
  verifier : Value
  reward : UInt64
  funder : String
  fundingSignature : Option String
  createdAt : String
  deadline : Option String
  ratchet : Option Value
  piecework : Option Value
  confidentiality : String
  embargoEpochs : Option UInt64
  artifactSchema : Option Value
  requireSignedSubmitter : Bool

namespace Objective

def unsignedValue (o : Objective) : Value :=
  .object (
    [("type", .string "objective"),
      ("goal", .string o.goal),
      ("statement", .string o.statement),
      ("verifier", o.verifier),
      ("reward", u64Value o.reward),
      ("funder", .string o.funder),
      ("created_at", .string o.createdAt)] ++
    optField "deadline" (o.deadline.map .string) ++
    optField "ratchet" o.ratchet ++
    optField "piecework" o.piecework ++
    optField "confidentiality"
      (if o.confidentiality ≠ DEFAULT_CONFIDENTIALITY then some (.string o.confidentiality)
        else none) ++
    optField "embargo_epochs" (o.embargoEpochs.map u64Value) ++
    optField "artifact_schema" o.artifactSchema ++
    optField "require_signed_submitter"
      (if o.requireSignedSubmitter then some (.bool true) else none))

def fundingSigningPayload (o : Objective) : Value :=
  .object [("domain", .string "cairn/objective-funding/v1"), ("objective", o.unsignedValue)]

def toValue (o : Objective) : Value :=
  match o.unsignedValue.asObject, o.fundingSignature with
  | some map, some signature => .objectOf (map.insert "funding_signature" (.string signature))
  | _, _ => o.unsignedValue

def id [Sha256] (o : Objective) : String := digest o.toValue

def verifierKind (o : Objective) : Option String := (o.verifier.get "kind").bind Value.asStr

def checkObject (name : String) : Option Value → Except String Unit
  | none => .ok ()
  | some block =>
    if block.asObject.isNone then .error (name ++ " must be an object") else .ok ()

def validate (o : Objective) : Except String Unit := do
  ensure (Lines.trim o.statement.toList ≠ []) "objective needs a statement"
  ensure o.verifierKind.isSome "objective needs a verifier with a 'kind'"
  checkObject "ratchet" o.ratchet
  checkObject "piecework" o.piecework
  ensure (¬ (o.piecework.isSome ∧ o.ratchet.isSome))
    "objective carries both a ratchet and a piecework block"
  checkObject "artifact_schema" o.artifactSchema
  ensure (¬ (o.embargoEpochs.isSome ∧ o.confidentiality ≠ "embargoed"))
    "embargo_epochs has no meaning without confidentiality \"embargoed\""

def rewardOf (value : Value) : Except String UInt64 := do
  let raw ← field value "reward"
  let reward ← okOr "reward must be an integer unit count" raw.asI128
  ensure (0 ≤ reward.val ∧ reward.val ≤ MAX_UNITS)
    ("reward " ++ toString reward.val ++ " is outside the representable range (0..=" ++
      toString MAX_UNITS ++ ")")
  return UInt64.ofNat reward.val.toNat

def embargoEpochsOf (value : Value) : Except String (Option UInt64) :=
  match (value.get "embargo_epochs").map Value.view with
  | none | some .null => .ok none
  | some (.int epochs) =>
    if 0 < epochs.val ∧ epochs.val ≤ MAX_UNITS then
      .ok (some (UInt64.ofNat epochs.val.toNat))
    else
      .error "embargo_epochs must be at least one epoch; zero is what \"public\" already means"
  | some _ => .error "embargo_epochs must be an integer"

def requireSignedSubmitterOf (value : Value) : Except String Bool :=
  match (value.get "require_signed_submitter").map Value.view with
  | none | some .null => .ok false
  | some (.bool flag) => .ok flag
  | some _ => .error "require_signed_submitter must be a boolean"

variable [Wire.DebugText]

def confidentialityOf (value : Value) : Except String String := do
  let confidentiality ← match (value.get "confidentiality").map Value.view with
    | none | some .null => .ok DEFAULT_CONFIDENTIALITY
    | some (.string label) => .ok label
    | some _ => .error "confidentiality must be a string"
  ensure (confidentiality ∈ CONFIDENTIALITY_CLASSES)
    ("unknown confidentiality class " ++ Wire.DebugText.quoted confidentiality)
  ensure (confidentiality ≠ "sealed")
    "confidentiality \"sealed\" requires zero-knowledge verification, which is not implemented"
  return confidentiality

def fromValue (value : Value) : Except String Objective := do
  ensure value.asObject.isSome "objective must be an object"
  let reward ← rewardOf value
  let confidentiality ← confidentialityOf value
  let requireSignedSubmitter ← requireSignedSubmitterOf value
  let goal ← text value "goal"
  let statement ← text value "statement"
  let verifier ← field value "verifier"
  let funder ← text value "funder"
  let fundingSignature ← optionalText value "funding_signature"
  let createdAt ← text value "created_at"
  let deadline ← optionalText value "deadline"
  let embargoEpochs ← embargoEpochsOf value
  let objective : Objective :=
    { goal, statement, verifier, reward, funder, fundingSignature, createdAt, deadline,
      ratchet := present value "ratchet"
      piecework := present value "piecework"
      confidentiality, embargoEpochs
      artifactSchema := present value "artifact_schema"
      requireSignedSubmitter }
  objective.validate
  return objective

end Objective

/-! ## Commitments -/

def validateCommitmentSubmitter (submitter : String) : Except String Unit :=
  ensure ('|' ∉ submitter.toList)
    "submitter cannot contain '|' because it delimits the commitment preimage"

structure Commitment where
  objectiveId : String
  submitter : String
  hash : String
  createdAt : String
  envelope : Option Value
  signature : Option String

namespace Commitment

def signingPayload (c : Commitment) : Value :=
  .object ([("type", .string "commitment"), ("objective_id", .string c.objectiveId),
    ("submitter", .string c.submitter), ("hash", .string c.hash),
    ("created_at", .string c.createdAt)] ++ optField "envelope" c.envelope)

def toValue (c : Commitment) : Value :=
  match c.signingPayload.asObject, c.signature with
  | some map, some signature => .objectOf (map.insert "signature" (.string signature))
  | _, _ => c.signingPayload

def id [Sha256] (c : Commitment) : String := digest c.toValue

def fromValue (value : Value) : Except String Commitment := do
  let objectiveId ← text value "objective_id"
  let submitter ← text value "submitter"
  let hash ← text value "hash"
  let createdAt ← text value "created_at"
  let signature ← optionalText value "signature"
  let commitment : Commitment :=
    { objectiveId, submitter, hash, createdAt, envelope := value.get "envelope", signature }
  validateCommitmentSubmitter commitment.submitter
  return commitment

end Commitment

/-! ## Claims -/

/-- The kinds, as they appear on the wire. -/
def RELATION_KINDS : List String :=
  ["refutes", "fails_to_replicate", "replicates", "generalizes", "narrows", "corrects",
    "supersedes", "conflicts_with", "retracts"]

structure ClaimRelation where
  kind : String
  target : String

namespace ClaimRelation

def toValue (r : ClaimRelation) : Value :=
  .object [("kind", .string r.kind), ("target", .string r.target)]

variable [Wire.DebugText]

/-- The loop over the keys. -/
def checkKeys : List String → Except String Unit
  | [] => .ok ()
  | key :: keys =>
    if key ≠ "kind" ∧ key ≠ "target" then
      .error ("unknown relation field " ++ Wire.DebugText.quoted key)
    else checkKeys keys

def fromValue (value : Value) : Except String ClaimRelation := do
  ensure value.asObject.isSome "a relation must be an object"
  let kind ← text value "kind"
  ensure (kind ∈ RELATION_KINDS) ("unknown relation kind " ++ Wire.DebugText.quoted kind)
  let target ← text value "target"
  ensure (target ≠ "") "a relation target must not be empty"
  match value.asObject with
  | some map => checkKeys map.keys
  | none => .ok ()
  return { kind, target }

end ClaimRelation

structure Claim where
  objectiveId : String
  submitter : String
  artifact : Value
  nonce : String
  createdAt : String
  cites : List String
  relations : List ClaimRelation
  signature : Option String

namespace Claim

def signingPayload (c : Claim) : Value :=
  .object ([("type", .string "claim"), ("objective_id", .string c.objectiveId),
    ("submitter", .string c.submitter), ("artifact", c.artifact), ("nonce", .string c.nonce),
    ("created_at", .string c.createdAt), ("cites", .array (c.cites.map .string))] ++
    optField "relations" (if c.relations.isEmpty then none
      else some (.array (c.relations.map ClaimRelation.toValue))))

def toValue (c : Claim) : Value :=
  match c.signingPayload.asObject, c.signature with
  | some map, some signature => .objectOf (map.insert "signature" (.string signature))
  | _, _ => c.signingPayload

def id [Sha256] (c : Claim) : String := digest c.toValue

variable [Wire.DebugText]

/-- No citation twice. -/
def checkCites (seen : List String) : List String → Except String Unit
  | [] => .ok ()
  | cited :: rest =>
    if cited ∈ seen then .error ("duplicate citation " ++ Wire.DebugText.quoted cited)
    else checkCites (cited :: seen) rest

/-- No target twice. -/
def checkTargets (targets : List String) : List ClaimRelation → Except String Unit
  | [] => .ok ()
  | relation :: rest =>
    if relation.target ∈ targets then
      .error ("two relations name the target " ++ Wire.DebugText.quoted relation.target)
    else checkTargets (relation.target :: targets) rest

def validate (c : Claim) : Except String Unit := do
  validateCommitmentSubmitter c.submitter
  ensure c.artifact.asObject.isSome "claim artifact must be an object"
  checkCites [] c.cites
  checkTargets [] c.relations

def citesOf (value : Value) : Except String (List String) :=
  match (value.get "cites").map Value.view with
  | none => .ok []
  | some (.array items) =>
    items.mapM fun item => okOr "cites must be an array of claim ids" item.asStr
  | some _ => .error "cites must be an array of claim ids"

def relationsOf (value : Value) : Except String (List ClaimRelation) :=
  match (value.get "relations").map Value.view with
  | none => .ok []
  | some (.array items) => items.mapM ClaimRelation.fromValue
  | some _ => .error "relations must be an array of \x7bkind, target\x7d objects"

def fromValue (value : Value) : Except String Claim := do
  let cites ← citesOf value
  let relations ← relationsOf value
  let objectiveId ← text value "objective_id"
  let submitter ← text value "submitter"
  let artifact ← field value "artifact"
  let nonce ← text value "nonce"
  let createdAt ← text value "created_at"
  let signature ← optionalText value "signature"
  let claim : Claim :=
    { objectiveId, submitter, artifact, nonce, createdAt, cites, relations, signature }
  claim.validate
  return claim

end Claim

/-! ## The readers agree -/

theorem exists_unit {p : Unit → Prop} : (∃ u, p u) ↔ p () :=
  ⟨fun ⟨_, h⟩ => h, fun h => ⟨(), h⟩⟩

/-- A check of the primary that returns early. -/
theorem ite_throw {ε β : Type} {p : Prop} [Decidable p] (error : ε) (rest : Except ε β) :
    (if p then ((throw error : Except ε PUnit) >>= fun _ => rest) else rest) =
      (ensure (¬p) error >>= fun _ => rest) := by
  unfold ensure
  split_ifs with h
  · rfl
  · rfl

section Readers

variable (value : Value) (name record : String)

@[simp] theorem toOk_field : toOk (field value name) = value.get name := toOk_okOr _ _

@[simp] theorem toOk_text : toOk (text value name) = (value.get name).bind Value.asStr := by
  unfold text
  simp only [toOk_bind, toOk_field, toOk_okOr]

@[simp] theorem toOk_required : toOk (required value record name) = value.get name :=
  toOk_okOr _ _

@[simp] theorem toOk_requiredString :
    toOk (requiredString value record name) = (value.get name).bind Value.asStr := by
  unfold requiredString
  simp only [toOk_bind, toOk_required, toOk_okOr]

theorem toOk_optionalText :
    toOk (optionalText value name) = toOk (optionalString value record name) := by
  unfold optionalText optionalString Value.isNull Value.asStr
  cases value.get name with
  | none => rfl
  | some v =>
    simp only [Option.map_some]
    cases v.view <;> rfl

theorem present_eq : present value name = nullable value name := rfl

theorem toOk_eq_some_iff {ε α : Type} {x : Except ε α} {a : α} :
    toOk x = some a ↔ x = .ok a := by
  cases x <;> simp [toOk]

theorem ok_iff_of_toOk {ε ε' α : Type} {x : Except ε α} {y : Except ε' α}
    (h : toOk x = toOk y) {a : α} : x = .ok a ↔ y = .ok a := by
  rw [← toOk_eq_some_iff, h, toOk_eq_some_iff]

variable {value name} in
theorem text_eq_ok_iff {s : String} :
    text value name = .ok s ↔ requiredString value record name = .ok s :=
  ok_iff_of_toOk (by rw [toOk_text, toOk_requiredString])

variable {value name} in
theorem field_eq_ok_iff {v : Value} :
    field value name = .ok v ↔ required value record name = .ok v :=
  ok_iff_of_toOk (by rw [toOk_field, toOk_required])

variable {value name} in
theorem optionalText_eq_ok_iff {s : Option String} :
    optionalText value name = .ok s ↔ optionalString value record name = .ok s :=
  ok_iff_of_toOk (toOk_optionalText value name record)

variable {value record} in
theorem expectObject_eq_ok_iff {v : Value} :
    expectObject value record = .ok v ↔ value.asObject.isSome ∧ value = v := by
  unfold expectObject
  split_ifs with h <;> simp [h]

@[simp] theorem toOk_ensure {ε : Type} (p : Prop) [Decidable p] (error : ε) :
    toOk (ensure p error) = if p then some () else none := by
  unfold ensure
  split_ifs <;> rfl

@[simp] theorem toOk_expectObject :
    toOk (expectObject value record) = if value.asObject.isSome then some value else none := by
  unfold expectObject
  split_ifs <;> rfl

/-- A record with its signature inserted, and one written with it. -/
theorem object_signed (pairs : List (String × Value)) (key : String) (signature : Option String) :
    (match (Value.object pairs).asObject, signature with
      | some map, some signature => .objectOf (map.insert key (.string signature))
      | _, _ => .object pairs) =
      Value.object (pairs ++ optField key (signature.map .string)) := by
  have hobject : (Value.object pairs).asObject = some (.ofList pairs) := by
    rw [Crypto.asObject_eq_some_iff]
    rfl
  rw [hobject]
  cases signature with
  | none => simp [optField]
  | some signature =>
    simp only [Option.map_some, optField, Option.toList_some, Value.object, BTreeMap.ofList,
      List.foldl_append, List.foldl_cons, List.foldl_nil]

end Readers

namespace Objective

variable (value : Value)

theorem toOk_rewardOf : toOk (rewardOf value) = toOk (Ports.Objective.rewardOf value) := by
  unfold rewardOf Ports.Objective.rewardOf MAX_UNITS
  simp only [toOk_bind, toOk_field, toOk_required, toOk_okOr, toOk_ensure, toOk_pure]
  cases value.get "reward" with
  | none => rfl
  | some v =>
    simp only [Option.bind_some, Value.asU64]
    cases v.asI128 with
    | none => rfl
    | some n =>
      simp only [Option.bind_some, UInt64.size]
      split_ifs with hrange hfits hfits
      · rfl
      · omega
      · omega
      · rfl

theorem toOk_embargoEpochsOf :
    toOk (embargoEpochsOf value) =
      (toOk (Ports.Objective.embargoEpochsOf value)).filter fun epochs => epochs ≠ some 0 := by
  unfold embargoEpochsOf Ports.Objective.embargoEpochsOf nullable Value.isNull MAX_UNITS
  cases value.get "embargo_epochs" with
  | none => rfl
  | some v =>
    simp only [Option.map_some]
    cases hv : v.view with
    | int n =>
      have hread : v.asU64 = if 0 ≤ n.val ∧ n.val.toNat < UInt64.size then
          some (UInt64.ofNat n.val.toNat) else none := by
        simp only [Value.asU64, Value.asI128, hv, Option.bind_some]
      simp only [Bool.false_eq_true, if_false, hread]
      by_cases hfits : 0 ≤ n.val ∧ n.val.toNat < UInt64.size
      · have hnat : (UInt64.ofNat n.val.toNat).toNat = n.val.toNat :=
          UInt64.toNat_ofNat_of_lt' hfits.2
        by_cases hpos : 0 < n.val
        · have hne : UInt64.ofNat n.val.toNat ≠ 0 := by
            intro hzero
            rw [hzero] at hnat
            have : n.val.toNat = 0 := hnat.symm
            omega
          rw [if_pos hfits, if_pos (by omega)]
          simp [Except.map, Option.filter, hne]
        · have hzero : n.val.toNat = 0 := by omega
          rw [if_pos hfits, if_neg (fun h => hpos h.1), hzero]
          rfl
      · rw [if_neg hfits, if_neg (by omega)]
        rfl
    | null => rfl
    | string => simp [Value.asU64, Value.asI128, hv, okOr, Except.map]
    | bool => simp [Value.asU64, Value.asI128, hv, okOr, Except.map]
    | array => simp [Value.asU64, Value.asI128, hv, okOr, Except.map]
    | object => simp [Value.asU64, Value.asI128, hv, okOr, Except.map]

theorem toOk_requireSignedSubmitterOf :
    toOk (requireSignedSubmitterOf value) =
      toOk (Ports.Objective.requireSignedSubmitterOf value) := by
  unfold requireSignedSubmitterOf Ports.Objective.requireSignedSubmitterOf nullable Value.isNull
    Value.asBool
  cases value.get "require_signed_submitter" with
  | none => rfl
  | some v =>
    simp only [Option.map_some]
    cases hv : v.view <;> simp [hv, okOr]

/-- The word of a class that is implemented. -/
def wordOf (c : Confidentiality) : Option String :=
  if c = .sealedClass then none else some c.asStr

theorem toOk_confidentialityOf [Wire.DebugText] :
    toOk (confidentialityOf value) =
      (toOk (Ports.Objective.confidentialityOf value)).bind wordOf := by
  unfold confidentialityOf Ports.Objective.confidentialityOf nullable Value.isNull Value.asStr
  cases value.get "confidentiality" with
  | none => rfl
  | some v =>
    simp only [Option.map_some]
    cases hv : v.view with
    | null => rfl
    | string label =>
      simp only [Bool.false_eq_true, if_false, hv, Confidentiality.parse]
      split_ifs with hpublic hembargoed hsealed
      · rw [hpublic]
        rfl
      · rw [hembargoed]
        rfl
      · rw [hsealed]
        rfl
      · have hunknown : label ∉ CONFIDENTIALITY_CLASSES := by
          simp [CONFIDENTIALITY_CLASSES, hpublic, hembargoed, hsealed]
        simp [toOk_bind, hunknown]
    | bool => simp [hv, toOk_bind]
    | int => simp [hv, toOk_bind]
    | array => simp [hv, toOk_bind]
    | object => simp [hv, toOk_bind]

/-- The objective the primary holds, with the word of its class. -/
def ofPrimary (o : Ports.Objective) : Objective where
  goal := o.goal
  statement := o.statement
  verifier := o.verifier
  reward := o.reward
  funder := o.funder
  fundingSignature := o.fundingSignature
  createdAt := o.createdAt
  deadline := o.deadline
  ratchet := o.ratchet
  piecework := o.piecework
  confidentiality := o.confidentiality.asStr
  embargoEpochs := o.embargoEpochs
  artifactSchema := o.artifactSchema
  requireSignedSubmitter := o.requireSignedSubmitter

/-- A verifier's kind is a text where it is there. -/
def TextKind (verifier : Value) : Prop :=
  ∀ kind, verifier.get "kind" = some kind → kind.asStr.isSome

omit value in
theorem checkBlock_eq_ok_iff {name : String} {block : Option Value} :
    Ports.Objective.checkBlock name block = .ok () ↔ checkObject name block = .ok () := by
  unfold Ports.Objective.checkBlock checkObject
  cases block with
  | none => simp
  | some v =>
    dsimp only
    split_ifs <;> simp

variable {o : Ports.Objective}

/-- The checks of the primary, as conditions. -/
theorem validate_primary_iff :
    o.validate = .ok () ↔
      Lines.trim o.statement.toList ≠ [] ∧ (o.verifier.get "kind").isSome ∧
      checkObject "ratchet" o.ratchet = .ok () ∧ checkObject "piecework" o.piecework = .ok () ∧
      ¬ (o.piecework.isSome ∧ o.ratchet.isSome) ∧
      ¬ (o.embargoEpochs.isSome ∧ o.confidentiality ≠ .embargoed) ∧ o.embargoEpochs ≠ some 0 ∧
      checkObject "artifact_schema" o.artifactSchema = .ok () ∧
      o.confidentiality ≠ .sealedClass := by
  have hkind : (match o.verifier.asObject with
      | some map => map.containsKey "kind"
      | none => false) = (o.verifier.get "kind").isSome := by
    unfold Value.asObject Value.get BTreeMap.containsKey
    cases o.verifier.view <;> rfl
  have hlast : ∀ error : RecordError,
      (if o.confidentiality = .sealedClass then throw error else pure () :
        Except RecordError Unit) = .ok () ↔ o.confidentiality ≠ .sealedClass := by
    intro error
    split_ifs with h
    · simp [h]
    · simp [pure, Except.pure, h]
  unfold Ports.Objective.validate
  rw [ite_throw]
  cases hobject : o.verifier.asObject with
  | none =>
    rw [hobject] at hkind
    dsimp only at hkind ⊢
    simp only [bind_eq_ok, ← hkind, Bool.false_eq_true, false_and, and_false, iff_false]
    rintro ⟨_, _, _, herror, _⟩
    cases herror
  | some map =>
    rw [hobject] at hkind
    dsimp only at hkind ⊢
    simp only [ite_throw, bind_eq_ok, ensure_eq_ok, hkind, checkBlock_eq_ok_iff, hlast,
      exists_unit, Bool.and_eq_true, decide_eq_true_eq, Bool.not_eq_true', Bool.not_eq_false]

theorem validate_iff :
    (ofPrimary o).validate = .ok () ↔
      Lines.trim o.statement.toList ≠ [] ∧ ((o.verifier.get "kind").bind Value.asStr).isSome ∧
      checkObject "ratchet" o.ratchet = .ok () ∧ checkObject "piecework" o.piecework = .ok () ∧
      ¬ (o.piecework.isSome ∧ o.ratchet.isSome) ∧
      checkObject "artifact_schema" o.artifactSchema = .ok () ∧
      ¬ (o.embargoEpochs.isSome ∧ o.confidentiality ≠ .embargoed) := by
  have hclass : o.confidentiality.asStr ≠ "embargoed" ↔ o.confidentiality ≠ .embargoed := by
    cases o.confidentiality <;> decide
  unfold validate ofPrimary verifierKind
  simp only [bind_eq_ok, ensure_eq_ok, exists_unit, hclass]

/-- On what both readers let through, the reference asks only for more of the
verifier. -/
theorem validate_eq_ok_iff (hepochs : o.embargoEpochs ≠ some 0)
    (hclass : o.confidentiality ≠ .sealedClass) :
    (ofPrimary o).validate = .ok () ↔ o.validate = .ok () ∧ TextKind o.verifier := by
  have hkind : ((o.verifier.get "kind").bind Value.asStr).isSome ↔
      (o.verifier.get "kind").isSome ∧ TextKind o.verifier := by
    unfold TextKind
    cases o.verifier.get "kind" <;> simp
  rw [validate_iff, validate_primary_iff, hkind]
  tauto

/-- What the primary's decoder reads. -/
theorem fromValue_primary_iff :
    Ports.Objective.fromValue value = .ok o ↔ value.asObject.isSome ∧
      Ports.Objective.rewardOf value = .ok o.reward ∧ nullable value "ratchet" = o.ratchet ∧
      nullable value "piecework" = o.piecework ∧
      Ports.Objective.confidentialityOf value = .ok o.confidentiality ∧
      Ports.Objective.embargoEpochsOf value = .ok o.embargoEpochs ∧
      nullable value "artifact_schema" = o.artifactSchema ∧
      requiredString value "objective" "goal" = .ok o.goal ∧
      requiredString value "objective" "statement" = .ok o.statement ∧
      required value "objective" "verifier" = .ok o.verifier ∧
      requiredString value "objective" "funder" = .ok o.funder ∧
      optionalString value "objective" "funding_signature" = .ok o.fundingSignature ∧
      requiredString value "objective" "created_at" = .ok o.createdAt ∧
      optionalString value "objective" "deadline" = .ok o.deadline ∧
      Ports.Objective.requireSignedSubmitterOf value = .ok o.requireSignedSubmitter ∧
      o.validate = .ok () := by
  unfold Ports.Objective.fromValue
  simp only [bind_eq_ok, expectObject_eq_ok_iff]
  constructor
  · rintro ⟨_, ⟨hobject, rfl⟩, _, hreward, _, hconfidentiality, _, hepochs, _, hgoal, _, hstatement,
      _, hverifier, _, hfunder, _, hsignature, _, hcreated, _, hdeadline, _, hsigned, _, hvalid, h⟩
    cases h
    exact ⟨hobject, hreward, rfl, rfl, hconfidentiality, hepochs, rfl, hgoal, hstatement,
      hverifier, hfunder, hsignature, hcreated, hdeadline, hsigned, hvalid⟩
  · rintro ⟨hobject, hreward, hratchet, hpiecework, hconfidentiality, hepochs, hschema, hgoal,
      hstatement, hverifier, hfunder, hsignature, hcreated, hdeadline, hsigned, hvalid⟩
    cases o
    cases hratchet
    cases hpiecework
    cases hschema
    exact ⟨_, ⟨hobject, rfl⟩, _, hreward, _, hconfidentiality, _, hepochs, _, hgoal, _, hstatement,
      _, hverifier, _, hfunder, _, hsignature, _, hcreated, _, hdeadline, _, hsigned, _, hvalid, rfl⟩

/-- What the reference's decoder reads. -/
theorem fromValue_iff [Wire.DebugText] {r : Objective} :
    fromValue value = .ok r ↔ value.asObject.isSome ∧
      rewardOf value = .ok r.reward ∧ present value "ratchet" = r.ratchet ∧
      present value "piecework" = r.piecework ∧
      confidentialityOf value = .ok r.confidentiality ∧
      embargoEpochsOf value = .ok r.embargoEpochs ∧
      present value "artifact_schema" = r.artifactSchema ∧
      text value "goal" = .ok r.goal ∧ text value "statement" = .ok r.statement ∧
      field value "verifier" = .ok r.verifier ∧ text value "funder" = .ok r.funder ∧
      optionalText value "funding_signature" = .ok r.fundingSignature ∧
      text value "created_at" = .ok r.createdAt ∧
      optionalText value "deadline" = .ok r.deadline ∧
      requireSignedSubmitterOf value = .ok r.requireSignedSubmitter ∧
      r.validate = .ok () := by
  unfold fromValue
  simp only [bind_eq_ok, ensure_eq_ok]
  constructor
  · rintro ⟨_, hobject, _, hreward, _, hconfidentiality, _, hsigned, _, hgoal, _, hstatement,
      _, hverifier, _, hfunder, _, hsignature, _, hcreated, _, hdeadline, _, hepochs, _, hvalid, h⟩
    cases h
    exact ⟨hobject, hreward, rfl, rfl, hconfidentiality, hepochs, rfl, hgoal,
      hstatement, hverifier, hfunder, hsignature, hcreated, hdeadline, hsigned, hvalid⟩
  · rintro ⟨hobject, hreward, hratchet, hpiecework, hconfidentiality, hepochs, hschema, hgoal,
      hstatement, hverifier, hfunder, hsignature, hcreated, hdeadline, hsigned, hvalid⟩
    cases r
    cases hratchet
    cases hpiecework
    cases hschema
    exact ⟨(), hobject, _, hreward, _, hconfidentiality, _, hsigned, _, hgoal, _, hstatement,
      _, hverifier, _, hfunder, _, hsignature, _, hcreated, _, hdeadline, _, hepochs, _, hvalid, rfl⟩

theorem confidentialityOf_eq_ok_iff [Wire.DebugText] {word : String} :
    confidentialityOf value = .ok word ↔ ∃ c, Ports.Objective.confidentialityOf value = .ok c ∧
      c ≠ .sealedClass ∧ c.asStr = word := by
  rw [← toOk_eq_some_iff, toOk_confidentialityOf, Option.bind_eq_some_iff]
  refine exists_congr fun c => and_congr toOk_eq_some_iff ?_
  unfold wordOf
  split_ifs with hsealed <;> simp [hsealed]

theorem embargoEpochsOf_eq_ok_iff {epochs : Option UInt64} :
    embargoEpochsOf value = .ok epochs ↔
      Ports.Objective.embargoEpochsOf value = .ok epochs ∧ epochs ≠ some 0 := by
  rw [← toOk_eq_some_iff, toOk_embargoEpochsOf, Option.filter_eq_some_iff, toOk_eq_some_iff]
  simp

/-- The reference accepts the objectives of the primary whose verifier names
its kind by a text, and reads the same. -/
theorem fromValue_eq_ok_iff [Wire.DebugText] {r : Objective} :
    fromValue value = .ok r ↔
      ∃ o, Ports.Objective.fromValue value = .ok o ∧ TextKind o.verifier ∧ ofPrimary o = r := by
  simp only [fromValue_iff, fromValue_primary_iff, ok_iff_of_toOk (toOk_rewardOf value),
    ok_iff_of_toOk (toOk_requireSignedSubmitterOf value), confidentialityOf_eq_ok_iff,
    embargoEpochsOf_eq_ok_iff, text_eq_ok_iff "objective", field_eq_ok_iff "objective",
    optionalText_eq_ok_iff "objective", present_eq]
  constructor
  · rintro ⟨hobject, hreward, hratchet, hpiecework, ⟨c, hconfidentiality, hclass, hword⟩,
      ⟨hepochs, hpositive⟩, hschema, hgoal, hstatement, hverifier, hfunder, hsignature, hcreated,
      hdeadline, hsigned, hvalid⟩
    cases r
    cases hword
    obtain ⟨hprimary, hkind⟩ :=
      (validate_eq_ok_iff (o := ⟨_, _, _, _, _, _, _, _, _, _, c, _, _, _⟩) hpositive hclass).mp
        hvalid
    exact ⟨⟨_, _, _, _, _, _, _, _, _, _, c, _, _, _⟩, ⟨hobject, hreward, hratchet, hpiecework,
      hconfidentiality, hepochs, hschema, hgoal, hstatement, hverifier, hfunder, hsignature,
      hcreated, hdeadline, hsigned, hprimary⟩, hkind, rfl⟩
  · rintro ⟨o, ⟨hobject, hreward, hratchet, hpiecework, hconfidentiality, hepochs, hschema, hgoal,
      hstatement, hverifier, hfunder, hsignature, hcreated, hdeadline, hsigned, hvalid⟩, hkind, rfl⟩
    obtain ⟨-, -, -, -, -, -, hpositive, -, hclass⟩ := validate_primary_iff.mp hvalid
    exact ⟨hobject, hreward, hratchet, hpiecework, ⟨_, hconfidentiality, hclass, rfl⟩,
      ⟨hepochs, hpositive⟩, hschema, hgoal, hstatement, hverifier, hfunder, hsignature, hcreated,
      hdeadline, hsigned, (validate_eq_ok_iff hpositive hclass).mpr ⟨hvalid, hkind⟩⟩

theorem unsignedValue_ofPrimary (o : Ports.Objective) :
    (ofPrimary o).unsignedValue = o.unsignedValue := by
  have hclass : o.confidentiality.asStr ≠ DEFAULT_CONFIDENTIALITY ↔
      o.confidentiality ≠ .publicClass := by
    cases o.confidentiality <;> decide
  unfold unsignedValue Ports.Objective.unsignedValue Ports.Objective.unsignedFields ofPrimary
  simp only [hclass]

theorem toValue_ofPrimary (o : Ports.Objective) : (ofPrimary o).toValue = o.toValue := by
  unfold toValue
  rw [unsignedValue_ofPrimary]
  exact object_signed _ _ _

theorem fundingSigningPayload_ofPrimary (o : Ports.Objective) :
    (ofPrimary o).fundingSigningPayload = o.fundingSigningPayload := by
  unfold fundingSigningPayload Ports.Objective.fundingSigningPayload
  rw [unsignedValue_ofPrimary]

theorem id_ofPrimary [Sha256] (o : Ports.Objective) : (ofPrimary o).id = o.id := by
  unfold id Ports.Objective.id
  rw [digest_eq, toValue_ofPrimary]

end Objective

/-! ## Claims agree -/

namespace ClaimRelation

def ofPrimary (r : Ports.ClaimRelation) : ClaimRelation where
  kind := r.kind.asStr
  target := r.target

theorem fromWire_eq_some_iff {kind : String} {relation : Relation} :
    Relation.fromWire kind = some relation ↔ relation.asStr = kind := by
  constructor
  · intro h
    simpa using List.find?_some h
  · rintro rfl
    exact Relation.fromWire_asStr relation

theorem mem_RELATION_KINDS_iff {kind : String} :
    kind ∈ RELATION_KINDS ↔ ∃ relation : Relation, relation.asStr = kind := by
  constructor
  · intro h
    have hkinds : RELATION_KINDS = Relation.all.map Relation.asStr := rfl
    rw [hkinds, List.mem_map] at h
    obtain ⟨relation, -, hkind⟩ := h
    exact ⟨relation, hkind⟩
  · rintro ⟨relation, rfl⟩
    cases relation <;> decide

variable [Wire.DebugText] {value : Value}

theorem checkKeys_eq_ok_iff {keys : List String} :
    checkKeys keys = .ok () ↔ (keys.any fun key => key ≠ "kind" && key ≠ "target") = false := by
  induction keys with
  | nil => simp [checkKeys]
  | cons key keys ih =>
    rw [checkKeys, List.any_cons]
    split_ifs with hkey
    · simp [hkey]
    · rw [ih]
      simp only [Bool.or_eq_false_iff]
      constructor
      · intro h
        refine ⟨?_, h⟩
        by_contra hne
        simp only [Bool.not_eq_false, Bool.and_eq_true, decide_eq_true_eq] at hne
        exact hkey hne
      · exact fun h => h.2

theorem fromValue_eq_ok_iff {r : ClaimRelation} :
    fromValue value = .ok r ↔
      ∃ relation, Ports.ClaimRelation.fromValue value = .ok relation ∧ ofPrimary relation = r := by
  unfold fromValue Ports.ClaimRelation.fromValue
  cases hobject : value.asObject with
  | none => simp [expectObject, hobject, bind, Except.bind, ensure]
  | some map =>
    simp only [bind_eq_ok, ensure_eq_ok, expectObject_eq_ok_iff, text_eq_ok_iff "claim",
      exists_unit, okOr_eq_ok, fromWire_eq_some_iff, mem_RELATION_KINDS_iff, ite_throw, hobject,
      checkKeys_eq_ok_iff, Option.isSome_some, true_and, Bool.not_eq_true]
    constructor
    · rintro ⟨_, hkind, ⟨relation, rfl⟩, target, htarget, hne, hkeys, hr⟩
      cases hr
      refine ⟨⟨relation, target⟩, ⟨value, rfl, _, hkind, _, rfl, _, htarget, hne, ?_⟩, rfl⟩
      simp only [hobject]
      exact bind_eq_ok.mpr ⟨(), ensure_eq_ok.mpr hkeys, rfl⟩
    · rintro ⟨_, ⟨_, rfl, _, hkind, relation, rfl, target, htarget, hne, h⟩, rfl⟩
      simp only [hobject] at h
      obtain ⟨_, hkeys, h⟩ := bind_eq_ok.mp h
      cases h
      exact ⟨_, hkind, ⟨relation, rfl⟩, _, htarget, hne, ensure_eq_ok.mp hkeys, rfl⟩

omit [Wire.DebugText] in
theorem target_ne_of_fromValue {r : Ports.ClaimRelation}
    (h : Ports.ClaimRelation.fromValue value = .ok r) : r.target ≠ "" := by
  obtain ⟨_, -, h⟩ := bind_eq_ok.mp h
  obtain ⟨_, -, h⟩ := bind_eq_ok.mp h
  obtain ⟨_, -, h⟩ := bind_eq_ok.mp h
  obtain ⟨target, -, h⟩ := bind_eq_ok.mp h
  rw [ite_throw] at h
  obtain ⟨_, hne, h⟩ := bind_eq_ok.mp h
  have htarget : r.target = target := by
    split at h
    · rw [ite_throw] at h
      obtain ⟨_, -, h⟩ := bind_eq_ok.mp h
      cases h
      rfl
    · cases h
      rfl
  rw [htarget]
  exact ensure_eq_ok.mp hne

end ClaimRelation

namespace Claim

/-- The claim the primary holds, with the words of its relations. -/
def ofPrimary (c : Ports.Claim) : Claim where
  objectiveId := c.objectiveId
  submitter := c.submitter
  artifact := c.artifact
  nonce := c.nonce
  createdAt := c.createdAt
  cites := c.cites
  relations := c.relations.map ClaimRelation.ofPrimary
  signature := c.signature

variable [Wire.DebugText] {value : Value}

variable {items : List Value} {rs : List Ports.ClaimRelation}

omit [Wire.DebugText] in
theorem stringItems_eq_ok_iff {error : RecordError} {error' : String} {texts : List String} :
    items.mapM (fun item => okOr error' item.asStr) = .ok texts ↔
      stringItems error items = .ok texts := by
  induction items generalizing texts with
  | nil => simp [stringItems, pure, Except.pure]
  | cons item items ih =>
    rw [List.mapM_cons, stringItems]
    simp only [bind_eq_ok, okOr_eq_ok, ih, pure, Except.pure, Except.ok.injEq]

omit [Wire.DebugText] in
theorem citesOf_eq_ok_iff {cites : List String} :
    citesOf value = .ok cites ↔ Ports.Claim.citesOf value = .ok cites := by
  unfold citesOf Ports.Claim.citesOf Value.asArray
  cases value.get "cites" with
  | none => simp
  | some v =>
    simp only [Option.map_some]
    cases v.view with
    | array items => exact stringItems_eq_ok_iff
    | null => simp
    | bool => simp
    | int => simp
    | string => simp
    | object => simp

theorem relationItems_eq_ok_iff {relations : List ClaimRelation} :
    items.mapM ClaimRelation.fromValue = .ok relations ↔
      ∃ rs, relationItems items = .ok rs ∧ rs.map ClaimRelation.ofPrimary = relations := by
  induction items generalizing relations with
  | nil =>
    rw [List.mapM_nil, relationItems]
    constructor
    · intro h
      cases h
      exact ⟨[], rfl, rfl⟩
    · rintro ⟨_, hnil, rfl⟩
      cases hnil
      rfl
  | cons item items ih =>
    rw [List.mapM_cons, relationItems]
    simp only [bind_eq_ok, ih, ClaimRelation.fromValue_eq_ok_iff]
    constructor
    · rintro ⟨_, ⟨r, hr, rfl⟩, _, ⟨rs, hrs, rfl⟩, h⟩
      cases h
      exact ⟨r :: rs, ⟨r, hr, rs, hrs, rfl⟩, rfl⟩
    · rintro ⟨_, ⟨r, hr, rs, hrs, h⟩, rfl⟩
      cases h
      exact ⟨_, ⟨r, hr, rfl⟩, _, ⟨rs, hrs, rfl⟩, rfl⟩

theorem relationsOf_eq_ok_iff {relations : List ClaimRelation} :
    relationsOf value = .ok relations ↔ ∃ rs, Ports.Claim.relationsOf value = .ok rs ∧
      rs.map ClaimRelation.ofPrimary = relations := by
  unfold relationsOf Ports.Claim.relationsOf Value.asArray
  cases value.get "relations" with
  | none => simp
  | some v =>
    simp only [Option.map_some]
    cases v.view with
    | array items => exact relationItems_eq_ok_iff
    | null => simp
    | bool => simp
    | int => simp
    | string => simp
    | object => simp

omit [Wire.DebugText] in
theorem target_ne_of_relationItems (h : relationItems items = .ok rs) :
    ∀ r ∈ rs, r.target ≠ "" := by
  induction items generalizing rs with
  | nil =>
    cases h
    simp
  | cons item items ih =>
    obtain ⟨r, hr, h⟩ := bind_eq_ok.mp h
    obtain ⟨rest, hrest, h⟩ := bind_eq_ok.mp h
    cases h
    intro other hother
    rcases List.mem_cons.mp hother with rfl | hother
    · exact ClaimRelation.target_ne_of_fromValue hr
    · exact ih hrest other hother

omit [Wire.DebugText] in
theorem target_ne_of_relationsOf (h : Ports.Claim.relationsOf value = .ok rs) :
    ∀ r ∈ rs, r.target ≠ "" := by
  unfold Ports.Claim.relationsOf at h
  split at h
  · cases h
    simp
  · split at h
    · exact target_ne_of_relationItems h
    · cases h

theorem checkCites_eq_ok_iff {seen cites : List String} :
    checkCites seen cites = .ok () ↔ Ports.Claim.checkCites seen cites = .ok () := by
  induction cites generalizing seen with
  | nil => simp [checkCites, Ports.Claim.checkCites]
  | cons cited rest ih =>
    rw [checkCites, Ports.Claim.checkCites]
    split_ifs with hseen
    · simp
    · exact ih

theorem checkTargets_eq_ok_iff {targets : List String} (h : ∀ r ∈ rs, r.target ≠ "") :
    checkTargets targets (rs.map ClaimRelation.ofPrimary) = .ok () ↔
      Ports.Claim.checkRelations targets rs = .ok () := by
  induction rs generalizing targets with
  | nil => simp [checkTargets, Ports.Claim.checkRelations]
  | cons r rest ih =>
    have hne : r.target ≠ "" := h r (by simp)
    have htarget : (ClaimRelation.ofPrimary r).target = r.target := rfl
    rw [List.map_cons, checkTargets, Ports.Claim.checkRelations, if_neg hne, htarget]
    split_ifs with hseen
    · simp
    · exact ih fun other hother => h other (by simp [hother])

omit [Wire.DebugText] in
theorem validateCommitmentSubmitter_eq_ok_iff {submitter : String} :
    validateCommitmentSubmitter submitter = .ok () ↔
      Ports.validateCommitmentSubmitter submitter = .ok () := by
  unfold validateCommitmentSubmitter Ports.validateCommitmentSubmitter ensure
  by_cases hsep : '|' ∈ submitter.toList <;> simp [hsep]

theorem validate_eq_ok_iff {c : Ports.Claim} (h : ∀ r ∈ c.relations, r.target ≠ "") :
    (ofPrimary c).validate = .ok () ↔ c.validate = .ok () := by
  unfold validate Ports.Claim.validate ofPrimary
  simp only [ite_throw, bind_eq_ok, ensure_eq_ok, exists_unit, checkCites_eq_ok_iff,
    checkTargets_eq_ok_iff h, validateCommitmentSubmitter_eq_ok_iff]
  cases c.artifact.asObject <;> simp

/-- Both accept the same objects as claims, and read the same. -/
theorem fromValue_eq_ok_iff (hobject : value.asObject.isSome) {r : Claim} :
    fromValue value = .ok r ↔ ∃ c, Ports.Claim.fromValue value = .ok c ∧ ofPrimary c = r := by
  unfold fromValue Ports.Claim.fromValue
  simp only [bind_eq_ok, expectObject_eq_ok_iff, citesOf_eq_ok_iff, relationsOf_eq_ok_iff,
    text_eq_ok_iff "claim", field_eq_ok_iff "claim", optionalText_eq_ok_iff "claim"]
  constructor
  · rintro ⟨_, hcites, _, ⟨rs, hrs, rfl⟩, _, hid, _, hsubmitter, _, hartifact, _, hnonce, _, hcreated,
      _, hsignature, _, hvalid, h⟩
    cases h
    have hprimary := (validate_eq_ok_iff (c := ⟨_, _, _, _, _, _, rs, _⟩)
      (target_ne_of_relationsOf hrs)).mp hvalid
    exact ⟨⟨_, _, _, _, _, _, rs, _⟩, ⟨_, ⟨hobject, rfl⟩, _, hcites, _, hrs, _, hid, _, hsubmitter,
      _, hartifact, _, hnonce, _, hcreated, _, hsignature, _, hprimary, rfl⟩, rfl⟩
  · rintro ⟨c, ⟨_, ⟨-, rfl⟩, _, hcites, _, hrelations, _, hid, _, hsubmitter, _, hartifact,
      _, hnonce, _, hcreated, _, hsignature, _, hvalid, h⟩, rfl⟩
    cases h
    exact ⟨_, hcites, _, ⟨_, hrelations, rfl⟩, _, hid, _, hsubmitter, _, hartifact, _, hnonce,
      _, hcreated, _, hsignature, _,
      (validate_eq_ok_iff (target_ne_of_relationsOf hrelations)).mpr hvalid, rfl⟩

omit [Wire.DebugText] in
theorem signingPayload_ofPrimary (c : Ports.Claim) :
    (ofPrimary c).signingPayload = c.signingPayload := by
  have hrelations : (c.relations.map ClaimRelation.ofPrimary).map ClaimRelation.toValue =
      c.relations.map Ports.ClaimRelation.toValue := by
    rw [List.map_map]
    rfl
  unfold signingPayload Ports.Claim.signingPayload Ports.Claim.signingFields ofPrimary
  simp only [hrelations, List.isEmpty_iff, List.map_eq_nil_iff]

omit [Wire.DebugText] in
theorem toValue_ofPrimary (c : Ports.Claim) : (ofPrimary c).toValue = c.toValue := by
  unfold toValue
  rw [signingPayload_ofPrimary]
  exact object_signed _ _ _

omit [Wire.DebugText] in
theorem id_ofPrimary [Sha256] (c : Ports.Claim) : (ofPrimary c).id = c.id := by
  unfold id Ports.Claim.id
  rw [digest_eq, toValue_ofPrimary]

end Claim

/-! ## Commitments agree, but for their envelopes -/

namespace Commitment

/-- The commitment the primary holds, with the envelope as it came in. -/
def ofPrimary [Envelopes] (c : Ports.Commitment) (raw : Option Value) : Commitment where
  objectiveId := c.objectiveId
  submitter := c.submitter
  hash := c.hash
  createdAt := c.createdAt
  envelope := raw
  signature := c.signature

variable [Envelopes] {value : Value}

variable {c : Ports.Commitment}

/-- What the primary accepts the reference accepts too. -/
theorem fromValue_of_primary (h : Ports.Commitment.fromValue value = .ok c) :
    fromValue value = .ok (ofPrimary c (value.get "envelope")) := by
  unfold Ports.Commitment.fromValue at h
  unfold fromValue
  simp only [bind_eq_ok, expectObject_eq_ok_iff, text_eq_ok_iff "commitment",
    optionalText_eq_ok_iff "commitment"] at h ⊢
  obtain ⟨_, ⟨-, rfl⟩, _, -, _, hid, _, hsubmitter, _, hhash, _, hcreated, _, hsignature, _, hvalid,
    h⟩ := h
  cases h
  exact ⟨_, hid, _, hsubmitter, _, hhash, _, hcreated, _, hsignature, _,
    Claim.validateCommitmentSubmitter_eq_ok_iff.mpr hvalid, rfl⟩

/-- What the reference accepts the primary accepts too, if it can read the
envelope. -/
theorem primary_of_fromValue {r : Commitment} {envelope : Option Envelopes.Envelope}
    (henvelope : Ports.Commitment.envelopeOf value = .ok envelope)
    (h : fromValue value = .ok r) : ∃ c, Ports.Commitment.fromValue value = .ok c ∧
      c.envelope = envelope := by
  unfold fromValue at h
  unfold Ports.Commitment.fromValue
  simp only [bind_eq_ok, expectObject_eq_ok_iff, text_eq_ok_iff "commitment",
    optionalText_eq_ok_iff "commitment"] at h ⊢
  obtain ⟨_, hid, _, hsubmitter, _, hhash, _, hcreated, _, hsignature, _, hvalid, h⟩ := h
  cases h
  have hobject : value.asObject.isSome := by
    by_contra hnone
    have hget := get_of_not_object (by simpa using hnone) "objective_id"
    obtain ⟨_, hfield, -⟩ := bind_eq_ok.mp hid
    rw [required, hget] at hfield
    cases hfield
  exact ⟨⟨_, _, _, _, envelope, _⟩, ⟨_, ⟨hobject, rfl⟩, _, henvelope, _, hid, _, hsubmitter,
    _, hhash, _, hcreated, _, hsignature, _,
    Claim.validateCommitmentSubmitter_eq_ok_iff.mp hvalid, rfl⟩, rfl⟩

theorem signingPayload_eq_iff {raw : Option Value} :
    (ofPrimary c raw).signingPayload = c.signingPayload ↔ c.envelope.map Envelopes.toValue = raw := by
  constructor
  · intro h
    have hget := congrArg (fun v => v.get "envelope") h
    unfold signingPayload Ports.Commitment.signingPayload Ports.Commitment.signingFields
      ofPrimary at hget
    simp only [Value.get_object, List.reverse_append, lookupEntry_append, reverse_optField,
      lookupEntry_optField, if_true] at hget
    simpa [BTreeMap.lookupEntry] using hget.symm
  · rintro rfl
    rfl

theorem toValue_eq_iff {raw : Option Value} :
    (ofPrimary c raw).toValue = c.toValue ↔ c.envelope.map Envelopes.toValue = raw := by
  have hsigned : (ofPrimary c raw).toValue = Value.object
      (([("type", .string "commitment"), ("objective_id", .string c.objectiveId),
        ("submitter", .string c.submitter), ("hash", .string c.hash),
        ("created_at", .string c.createdAt)] ++ optField "envelope" raw) ++
        optField "signature" (c.signature.map .string)) := object_signed _ _ _
  constructor
  · intro h
    have hget := congrArg (fun v => v.get "envelope") h
    rw [hsigned] at hget
    unfold Ports.Commitment.toValue Ports.Commitment.signingFields at hget
    simp only [Value.get_object, List.reverse_append, lookupEntry_append, reverse_optField,
      lookupEntry_optField, if_true] at hget
    simpa [BTreeMap.lookupEntry] using hget.symm
  · rintro rfl
    rw [hsigned]
    rfl

end Commitment

/-! ## Where they agree -/

/-- Both accept a value as an objective or neither, and write it the same. -/
def ObjectivesAgree [Sha256] [Wire.DebugText] (value : Value) : Prop :=
  ((∃ o, Ports.Objective.fromValue value = .ok o) ↔ ∃ r, Objective.fromValue value = .ok r) ∧
    ∀ o r, Ports.Objective.fromValue value = .ok o → Objective.fromValue value = .ok r →
      r.toValue = o.toValue ∧ r.fundingSigningPayload = o.fundingSigningPayload ∧ r.id = o.id

def ClaimsAgree [Sha256] [Wire.DebugText] (value : Value) : Prop :=
  ((∃ c, Ports.Claim.fromValue value = .ok c) ↔ ∃ r, Claim.fromValue value = .ok r) ∧
    ∀ c r, Ports.Claim.fromValue value = .ok c → Claim.fromValue value = .ok r →
      r.toValue = c.toValue ∧ r.signingPayload = c.signingPayload ∧ r.id = c.id

/-- Without an envelope both accept a value as a commitment or neither; what
both accept they write the same. -/
def CommitmentsAgree [Sha256] [Envelopes] (value : Value) : Prop :=
  (value.get "envelope" = none →
    ((∃ c, Ports.Commitment.fromValue value = .ok c) ↔ ∃ r, Commitment.fromValue value = .ok r)) ∧
    ∀ c r, Ports.Commitment.fromValue value = .ok c → Commitment.fromValue value = .ok r →
      r.toValue = c.toValue ∧ r.signingPayload = c.signingPayload ∧ r.id = c.id

/-- The two implementations agree on what records a value is. -/
def Agree [Sha256] [Wire.DebugText] [Envelopes] (value : Value) : Prop :=
  (value.asObject.isSome → ObjectivesAgree value ∧ ClaimsAgree value) ∧ CommitmentsAgree value

def setField (value : Value) (name : String) (v : Value) : Value :=
  match value.asObject with
  | some map => .objectOf (map.insert name v)
  | none => value

/-- The record with a text for its verifier's kind. -/
def withKind (value : Value) : Value :=
  match value.get "verifier" with
  | some verifier => setField value "verifier" (setField verifier "kind" (.string ""))
  | none => value

/-- The record without its envelope. -/
def withoutEnvelope (value : Value) : Value :=
  match value.asObject with
  | some map => .objectOf (map.remove "envelope")
  | none => value

/-- The verifier's kind is a text, or the record is refused with one too. -/
def KindStands (value : Value) : Prop :=
  (∀ verifier, value.get "verifier" = some verifier → Objective.TextKind verifier) ∨
    ∀ o, Ports.Objective.fromValue (withKind value) ≠ .ok o

/-- The envelope has no fields but the primary's, or cannot be read, or the
record is refused without it too. -/
def EnvelopeStands [Envelopes] (value : Value) : Prop :=
  ∀ raw, value.get "envelope" = some raw → Crypto.SealedEnvelope.Bare raw ∨
    (∀ e, Crypto.SealedEnvelope.fromValue raw ≠ .ok e) ∨
    ∀ c, Ports.Commitment.fromValue (withoutEnvelope value) ≠ .ok c

variable {value : Value}

theorem claimsAgree [Sha256] [Wire.DebugText] (hobject : value.asObject.isSome) :
    ClaimsAgree value := by
  constructor
  · constructor
    · rintro ⟨c, hc⟩
      exact ⟨_, (Claim.fromValue_eq_ok_iff hobject).mpr ⟨c, hc, rfl⟩⟩
    · rintro ⟨r, hr⟩
      obtain ⟨c, hc, -⟩ := (Claim.fromValue_eq_ok_iff hobject).mp hr
      exact ⟨c, hc⟩
  · intro c r hc hr
    obtain ⟨c', hc', rfl⟩ := (Claim.fromValue_eq_ok_iff hobject).mp hr
    rw [hc] at hc'
    cases hc'
    exact ⟨Claim.toValue_ofPrimary c, Claim.signingPayload_ofPrimary c, Claim.id_ofPrimary c⟩

/-- Objectives agree exactly if what the primary accepts names its kind by a
text. -/
theorem objectivesAgree_iff [Sha256] [Wire.DebugText] :
    ObjectivesAgree value ↔
      ∀ o, Ports.Objective.fromValue value = .ok o → Objective.TextKind o.verifier := by
  constructor
  · rintro ⟨hsame, -⟩ o ho
    obtain ⟨r, hr⟩ := hsame.mp ⟨o, ho⟩
    obtain ⟨o', ho', hkind, -⟩ := (Objective.fromValue_eq_ok_iff value).mp hr
    rw [ho] at ho'
    cases ho'
    exact hkind
  · intro h
    constructor
    · constructor
      · rintro ⟨o, ho⟩
        exact ⟨_, (Objective.fromValue_eq_ok_iff value).mpr ⟨o, ho, h o ho, rfl⟩⟩
      · rintro ⟨r, hr⟩
        obtain ⟨o, ho, -⟩ := (Objective.fromValue_eq_ok_iff value).mp hr
        exact ⟨o, ho⟩
    · intro o r ho hr
      obtain ⟨o', ho', -, rfl⟩ := (Objective.fromValue_eq_ok_iff value).mp hr
      rw [ho] at ho'
      cases ho'
      exact ⟨Objective.toValue_ofPrimary o, Objective.fundingSigningPayload_ofPrimary o,
        Objective.id_ofPrimary o⟩

/-- Commitments agree exactly if the primary writes the envelopes of those it
accepts as they came in. -/
theorem commitmentsAgree_iff [Sha256] [Envelopes] :
    CommitmentsAgree value ↔ ∀ c, Ports.Commitment.fromValue value = .ok c →
      c.envelope.map Envelopes.toValue = value.get "envelope" := by
  constructor
  · rintro ⟨-, hsame⟩ c hc
    exact Commitment.toValue_eq_iff.mp (hsame c _ hc (Commitment.fromValue_of_primary hc)).1
  · intro h
    constructor
    · intro hnone
      constructor
      · rintro ⟨c, hc⟩
        exact ⟨_, Commitment.fromValue_of_primary hc⟩
      · rintro ⟨r, hr⟩
        have henvelope : Ports.Commitment.envelopeOf value = .ok none := by
          rw [Ports.Commitment.envelopeOf, hnone]
        obtain ⟨c, hc, -⟩ := Commitment.primary_of_fromValue henvelope hr
        exact ⟨c, hc⟩
    · intro c r hc hr
      rw [Commitment.fromValue_of_primary hc] at hr
      cases hr
      have hvalue := Commitment.toValue_eq_iff.mpr (h c hc)
      refine ⟨hvalue, Commitment.signingPayload_eq_iff.mpr (h c hc), ?_⟩
      unfold Commitment.id Ports.Commitment.id
      rw [digest_eq, hvalue]

/-! ## What decides, read off the value -/

section Decides

variable {value : Value}

theorem get_setField (hobject : value.asObject.isSome) (name key : String) (v : Value) :
    (setField value name v).get key = if key = name then some v else value.get key := by
  obtain ⟨map, hmap⟩ := Option.isSome_iff_exists.mp hobject
  unfold setField
  rw [hmap, Crypto.asObject_eq_some_iff.mp hmap]
  simp only [Value.get_objectOf, BTreeMap.get?_insert]

theorem get_withoutEnvelope (hobject : value.asObject.isSome) (key : String) :
    (withoutEnvelope value).get key = if key = "envelope" then none else value.get key := by
  obtain ⟨map, hmap⟩ := Option.isSome_iff_exists.mp hobject
  unfold withoutEnvelope
  rw [hmap, Crypto.asObject_eq_some_iff.mp hmap]
  simp only [Value.get_objectOf, BTreeMap.get?_remove]

/-- The reference does not look at the envelope. -/
theorem fromValue_withoutEnvelope (hobject : value.asObject.isSome) :
    (∃ r, Commitment.fromValue (withoutEnvelope value) = .ok r) ↔
      ∃ r, Commitment.fromValue value = .ok r := by
  have htext : ∀ name, name ≠ "envelope" → text (withoutEnvelope value) name = text value name := by
    intro name hname
    unfold text field
    rw [get_withoutEnvelope hobject, if_neg hname]
  have hsignature : optionalText (withoutEnvelope value) "signature" =
      optionalText value "signature" := by
    unfold optionalText
    rw [get_withoutEnvelope hobject, if_neg (by decide)]
  unfold Commitment.fromValue
  rw [htext _ (by decide), htext _ (by decide), htext _ (by decide), htext _ (by decide),
    hsignature]
  simp only [bind_eq_ok]
  constructor
  · rintro ⟨_, _, hid, _, hsubmitter, _, hhash, _, hcreated, _, hsigned, _, hvalid, h⟩
    exact ⟨_, _, hid, _, hsubmitter, _, hhash, _, hcreated, _, hsigned, _, hvalid, rfl⟩
  · rintro ⟨_, _, hid, _, hsubmitter, _, hhash, _, hcreated, _, hsigned, _, hvalid, h⟩
    exact ⟨_, _, hid, _, hsubmitter, _, hhash, _, hcreated, _, hsigned, _, hvalid, rfl⟩

theorem envelopeOf_of_fromValue [Envelopes] {c : Ports.Commitment}
    (h : Ports.Commitment.fromValue value = .ok c) :
    value.asObject.isSome ∧ Ports.Commitment.envelopeOf value = .ok c.envelope := by
  unfold Ports.Commitment.fromValue at h
  simp only [bind_eq_ok, expectObject_eq_ok_iff] at h
  obtain ⟨_, ⟨hobject, rfl⟩, _, henvelope, _, -, _, -, _, -, _, -, _, -, _, -, h⟩ := h
  cases h
  exact ⟨hobject, henvelope⟩

/-- Without its envelope the primary accepts what the reference does. -/
theorem accepted_withoutEnvelope [Envelopes] (hobject : value.asObject.isSome) :
    (∃ c, Ports.Commitment.fromValue (withoutEnvelope value) = .ok c) ↔
      ∃ r, Commitment.fromValue value = .ok r := by
  have hnone : (withoutEnvelope value).get "envelope" = none := by
    rw [get_withoutEnvelope hobject, if_pos rfl]
  have henvelope : Ports.Commitment.envelopeOf (withoutEnvelope value) = .ok none := by
    rw [Ports.Commitment.envelopeOf, hnone]
  rw [← fromValue_withoutEnvelope hobject]
  constructor
  · rintro ⟨c, hc⟩
    exact ⟨_, Commitment.fromValue_of_primary hc⟩
  · rintro ⟨r, hr⟩
    obtain ⟨c, hc, -⟩ := Commitment.primary_of_fromValue henvelope hr
    exact ⟨c, hc⟩

section Codec

variable [Wire.DebugText] (openSealed : (objectiveId submitter commitment : String) →
  Crypto.SealedEnvelope → (epoch : UInt64) → (createdAt : String) → List Share →
  Option OpenedSubmission)

theorem envelopeStands_iff : let _ := Crypto.envelopes openSealed
    EnvelopeStands value ↔ ∀ c, Ports.Commitment.fromValue value = .ok c →
      c.envelope.map Envelopes.toValue = value.get "envelope" := by
  intro _
  constructor
  · intro h c hc
    obtain ⟨hobject, henvelope⟩ := envelopeOf_of_fromValue hc
    unfold Ports.Commitment.envelopeOf at henvelope
    cases hget : value.get "envelope" with
    | none =>
      rw [hget] at henvelope
      rw [← Except.ok.inj henvelope]
      rfl
    | some raw =>
      rw [hget] at henvelope
      obtain ⟨e, he, hsome⟩ := map_eq_ok.mp henvelope
      have he : Crypto.SealedEnvelope.fromValue raw = .ok e :=
        mapError_eq_ok.mp (mapError_eq_ok.mp he)
      rw [← hsome]
      rcases h raw hget with hbare | hrefused | hrefused
      · exact congrArg some ((Crypto.SealedEnvelope.toValue_eq_iff he).mpr hbare)
      · exact absurd he (hrefused e)
      · obtain ⟨c', hc'⟩ := (accepted_withoutEnvelope hobject).mpr
          ⟨_, Commitment.fromValue_of_primary hc⟩
        exact absurd hc' (hrefused c')
  · intro h raw hget
    by_contra hnone
    push Not at hnone
    obtain ⟨hbare, ⟨e, he⟩, ⟨c', hc'⟩⟩ := hnone
    have hobject : value.asObject.isSome := by
      by_contra hnot
      rw [get_of_not_object (by simpa using hnot)] at hget
      cases hget
    obtain ⟨r, hr⟩ := (accepted_withoutEnvelope hobject).mp ⟨c', hc'⟩
    have henvelope : Ports.Commitment.envelopeOf value = .ok (some e) := by
      rw [Ports.Commitment.envelopeOf, hget]
      exact map_eq_ok.mpr ⟨e, mapError_eq_ok.mpr (mapError_eq_ok.mpr he), rfl⟩
    obtain ⟨c, hc, hcenvelope⟩ := Commitment.primary_of_fromValue henvelope hr
    have hsame := h c hc
    rw [hcenvelope, hget] at hsame
    exact hbare ((Crypto.SealedEnvelope.toValue_eq_iff he).mp (Option.some.inj hsame))

end Codec

theorem isSome_asObject_setField (name : String) (v : Value) :
    (setField value name v).asObject.isSome = value.asObject.isSome := by
  unfold setField
  cases hobject : value.asObject with
  | none => rw [hobject]
  | some map => simp [Value.asObject]

/-- The record with a text for its kind is read as the record is, but for its
verifier. -/
theorem fromValue_withKind {o : Ports.Objective} {verifier replaced : Value}
    (hobject : value.asObject.isSome) (hverifier : value.get "verifier" = some verifier)
    (hkind : (verifier.get "kind").isSome)
    (hreplaced : setField verifier "kind" (.string "") = replaced) :
    Ports.Objective.fromValue (withKind value) = .ok { o with verifier := replaced } ↔
      Ports.Objective.fromValue value = .ok { o with verifier := verifier } := by
  have hwith : withKind value = setField value "verifier" replaced := by
    rw [withKind, hverifier, ← hreplaced]
  have hget : ∀ name, name ≠ "verifier" → (withKind value).get name = value.get name := by
    intro name hname
    rw [hwith, get_setField hobject, if_neg hname]
  have hobject' : (withKind value).asObject.isSome := by
    rw [hwith, isSome_asObject_setField, hobject]
  have hverifier' : (withKind value).get "verifier" = some replaced := by
    rw [hwith, get_setField hobject, if_pos rfl]
  have hkind' : (replaced.get "kind").isSome := by
    have hisobject : verifier.asObject.isSome := by
      by_contra hnot
      rw [get_of_not_object (by simpa using hnot)] at hkind
      cases hkind
    rw [← hreplaced, get_setField hisobject, if_pos rfl]
    rfl
  have hstring : ∀ name, name ≠ "verifier" → requiredString (withKind value) "objective" name =
      requiredString value "objective" name := by
    intro name hname
    unfold requiredString required
    rw [hget name hname]
  have hoptional : ∀ name, name ≠ "verifier" → optionalString (withKind value) "objective" name =
      optionalString value "objective" name := by
    intro name hname
    unfold optionalString
    rw [hget name hname]
  have hnullable : ∀ name, name ≠ "verifier" →
      nullable (withKind value) name = nullable value name := by
    intro name hname
    unfold nullable
    rw [hget name hname]
  have hreward : Ports.Objective.rewardOf (withKind value) = Ports.Objective.rewardOf value := by
    unfold Ports.Objective.rewardOf required
    rw [hget _ (by decide)]
  have hclass : Ports.Objective.confidentialityOf (withKind value) =
      Ports.Objective.confidentialityOf value := by
    unfold Ports.Objective.confidentialityOf
    rw [hnullable _ (by decide)]
  have hepochs : Ports.Objective.embargoEpochsOf (withKind value) =
      Ports.Objective.embargoEpochsOf value := by
    unfold Ports.Objective.embargoEpochsOf
    rw [hnullable _ (by decide)]
  have hsigned : Ports.Objective.requireSignedSubmitterOf (withKind value) =
      Ports.Objective.requireSignedSubmitterOf value := by
    unfold Ports.Objective.requireSignedSubmitterOf
    rw [hnullable _ (by decide)]
  rw [Objective.fromValue_primary_iff, Objective.fromValue_primary_iff,
    Objective.validate_primary_iff, Objective.validate_primary_iff, hreward, hclass, hepochs,
    hsigned, hnullable _ (by decide), hnullable _ (by decide), hnullable _ (by decide),
    hstring _ (by decide), hstring _ (by decide), hstring _ (by decide), hstring _ (by decide),
    hoptional _ (by decide), hoptional _ (by decide), required_of_get hverifier,
    required_of_get hverifier']
  simp only [hobject, hobject', hkind, hkind']

/-- For an object, the kind stands exactly if what the primary accepts has a
text there. -/
theorem kindStands_iff (hobject : value.asObject.isSome) :
    KindStands value ↔
      ∀ o, Ports.Objective.fromValue value = .ok o → Objective.TextKind o.verifier := by
  constructor
  · intro h o ho
    obtain ⟨-, -, -, -, -, -, -, -, -, hrequired, -, -, -, -, -, hvalid⟩ :=
      (Objective.fromValue_primary_iff value).mp ho
    have hverifier : value.get "verifier" = some o.verifier := okOr_eq_ok.mp hrequired
    rcases h with htext | hrefused
    · exact htext _ hverifier
    · have hkind := (Objective.validate_primary_iff.mp hvalid).2.1
      exact absurd ((fromValue_withKind hobject hverifier hkind rfl).mpr ho) (hrefused _)
  · intro h
    by_contra hnone
    unfold KindStands at hnone
    push Not at hnone
    obtain ⟨⟨verifier, hverifier, hkind⟩, o, ho⟩ := hnone
    have hsome : (verifier.get "kind").isSome := by
      unfold Objective.TextKind at hkind
      push Not at hkind
      obtain ⟨kind, hget, -⟩ := hkind
      rw [hget]
      rfl
    have hreplaced : setField verifier "kind" (.string "") = o.verifier := by
      obtain ⟨-, -, -, -, -, -, -, -, -, hrequired, -⟩ :=
        (Objective.fromValue_primary_iff _).mp ho
      have hget := okOr_eq_ok.mp hrequired
      rw [withKind, hverifier] at hget
      dsimp only at hget
      rw [get_setField hobject, if_pos rfl] at hget
      exact Option.some.inj hget
    exact hkind (h { o with verifier := verifier }
      ((fromValue_withKind hobject hverifier hsome hreplaced).mp ho))

end Decides

/-- On a value the two implementations agree on which records it is, and on
their encodings, payloads and ids, exactly if the kind of its verifier is a
text and its envelope has no fields of its own, or neither would matter. -/
theorem records_agree_iff [Sha256] [Wire.DebugText]
    (openSealed : (objectiveId submitter commitment : String) → Crypto.SealedEnvelope →
      (epoch : UInt64) → (createdAt : String) → List Share → Option OpenedSubmission)
    (value : Value) : let _ := Crypto.envelopes openSealed
    Agree value ↔ (value.asObject.isSome → KindStands value) ∧ EnvelopeStands value := by
  intro _
  refine and_congr (forall_congr' fun hobject => ?_)
    (commitmentsAgree_iff.trans (envelopeStands_iff openSealed).symm)
  rw [kindStands_iff hobject, objectivesAgree_iff]
  exact and_iff_left (claimsAgree hobject)

/-- An objective whose verifier has a number for its kind. -/
def sampleNumbered : Value :=
  .object [("goal", .string "g"), ("statement", .string "s"),
    ("verifier", .object [("kind", .int (.ofUInt64 1))]), ("reward", u64Value 1),
    ("funder", .string "f"), ("created_at", .string "2026-01-01T00:00:00Z")]

theorem sampleEnvelope_threshold : (1 : UInt8) ≠ 0 := by decide

/-- An envelope to one member. -/
def sampleEnvelope : Crypto.SealedEnvelope where
  threshold := 1
  nonce := .replicate 12 0
  ciphertext := []
  sealedShares :=
    ⟨[⟨1, ⟨[⟨.mcEliece, .replicate 96 0⟩], by rfl⟩, .replicate 12 0, []⟩], by simp⟩
  aad := "commitment"
  threshold_pos := sampleEnvelope_threshold
  threshold_le := by decide

/-- The envelope as it was written, and a note. -/
def sampleNoted : Value := setField sampleEnvelope.toValue "note" .null

/-- A sealed commitment whose envelope has a note. -/
def sampleSealed : Value :=
  .object [("objective_id", .string "o"), ("submitter", .string "s"), ("hash", .string "h"),
    ("created_at", .string "2026-01-01T00:00:00Z"), ("envelope", sampleNoted)]

theorem fromValue_sampleNoted : Crypto.SealedEnvelope.fromValue sampleNoted = .ok sampleEnvelope := by
  have hobject : sampleEnvelope.toValue.asObject.isSome := asObject_object _
  have hget : ∀ name, name ≠ "note" → sampleNoted.get name = sampleEnvelope.toValue.get name := by
    intro name hname
    rw [sampleNoted, get_setField hobject, if_neg hname]
  have hread := Crypto.SealedEnvelope.fromValue_eq_ok_iff.mp
    (Crypto.SealedEnvelope.fromValue_toValue sampleEnvelope)
  rw [Crypto.SealedEnvelope.fromValue_eq_ok_iff, sampleNoted, isSome_asObject_setField, ← sampleNoted,
    hget _ (by decide), hget _ (by decide), hget _ (by decide), hget _ (by decide),
    hget _ (by decide), hget _ (by decide), hget _ (by decide)]
  exact hread

/-- The reference refuses the first; both accept the second, and write it
differently. -/
theorem records_disagree :
    ¬ @Agree (.ofTable []) ⟨quoted⟩ (@Crypto.envelopes ⟨quoted⟩ fun _ _ _ _ _ _ _ => none)
      sampleNumbered ∧
    ¬ @Agree (.ofTable []) ⟨quoted⟩ (@Crypto.envelopes ⟨quoted⟩ fun _ _ _ _ _ _ _ => none)
      sampleSealed := by
  let _ : Sha256 := .ofTable []
  let _ : Wire.DebugText := ⟨quoted⟩
  let _ := Crypto.envelopes fun _ _ _ _ _ _ _ => none
  constructor
  · intro h
    obtain ⟨⟨hsame, -⟩, -⟩ := h.1 (by rfl)
    have haccepted : Ports.Objective.fromValue sampleNumbered =
        .ok (.new "g" "s" (.object [("kind", .int (.ofUInt64 1))]) 1 "f" "2026-01-01T00:00:00Z"
          none none) := by rfl
    obtain ⟨r, hr⟩ := hsame.mp ⟨_, haccepted⟩
    obtain ⟨o, ho, hkind, -⟩ := (Objective.fromValue_eq_ok_iff _).mp hr
    rw [haccepted] at ho
    cases ho
    cases hkind _ (by rfl)
  · intro h
    have hget : sampleSealed.get "envelope" = some sampleNoted := by
      simp [sampleSealed, Value.get_object, BTreeMap.lookupEntry]
    have henvelope : Ports.Commitment.envelopeOf sampleSealed = .ok (some sampleEnvelope) := by
      rw [Ports.Commitment.envelopeOf, hget]
      exact map_eq_ok.mpr ⟨_, mapError_eq_ok.mpr (mapError_eq_ok.mpr fromValue_sampleNoted), rfl⟩
    obtain ⟨c, hc, hcenvelope⟩ := Commitment.primary_of_fromValue
      (r := ⟨"o", "s", "h", "2026-01-01T00:00:00Z", some sampleNoted, none⟩) henvelope (by rfl)
    have hsame := commitmentsAgree_iff.mp h.2 c hc
    rw [hcenvelope, hget] at hsame
    have hbare := (Crypto.SealedEnvelope.toValue_eq_iff fromValue_sampleNoted).mp
      (Option.some.inj hsame)
    have hobject : sampleEnvelope.toValue.asObject.isSome := asObject_object _
    have hnote : (sampleNoted.get "note").isSome := by
      rw [sampleNoted, get_setField hobject, if_pos rfl]
      rfl
    exact absurd (hbare.1 _ hnote) (by decide)

end Cairn.Ports.Reference.Records
