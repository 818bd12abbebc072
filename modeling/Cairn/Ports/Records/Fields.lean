import Cairn.Ports.Canonical.RoundTrip
import Cairn.Ports.Canonical.Merkle
import Cairn.Verified.Lines

/-!
# Reading record fields

The field readers every decoder of `src/records.rs` is built from, the errors
they report, and the signature rule shared by the records.

A record is written as a list of pairs followed by its optional fields, so a
field is read back by `get_object`; the simp set below computes those reads.
-/

namespace Cairn.Ports

open Cairn.Verified
open Cairn.Ports.Canonical

/-- Why a record is refused. -/
inductive RecordError where
  | notAnObject (record : String)
  | missingField (record field : String)
  | invalidField (record field expected : String)
  | emptyStatement
  | verifierWithoutKind
  | rewardOutOfRange (reward : I128)
  | duplicateCitation (id : String)
  | ambiguousSubmitter
  | duplicateRelation (id : String)
  | unknownRelation (kind : String)
  | unknownConfidentiality (value : String)
  | sealedNotImplemented
  | pieceworkWithRatchet
  | malformedEnvelope (reason : String)
deriving DecidableEq

/-- `Option::ok_or`. -/
def okOr {ε α : Type} (error : ε) : Option α → Except ε α
  | some a => .ok a
  | none => .error error

/-- `Result::ok`. -/
def toOk {ε α : Type} : Except ε α → Option α
  | .ok a => some a
  | .error _ => none

@[simp] theorem okOr_some {ε α : Type} (error : ε) (a : α) : okOr error (some a) = .ok a := rfl

@[simp] theorem okOr_eq_ok {ε α : Type} {error : ε} {x : Option α} {a : α} :
    okOr error x = .ok a ↔ x = some a := by
  cases x <;> simp [okOr]

@[simp] theorem toOk_ok {ε α : Type} (a : α) : toOk (.ok a : Except ε α) = some a := rfl

theorem toOk_eq_some {ε α : Type} {r : Except ε α} {a : α} (h : toOk r = some a) : r = .ok a := by
  cases r with
  | error e => simp [toOk] at h
  | ok b => simpa [toOk] using h

def expectObject (value : Value) (record : String) : Except RecordError Value :=
  if value.asObject.isSome then .ok value else .error (.notAnObject record)

def required (value : Value) (record field : String) : Except RecordError Value :=
  okOr (.missingField record field) (value.get field)

def requiredString (value : Value) (record field : String) : Except RecordError String := do
  let v ← required value record field
  okOr (.invalidField record field "a string") v.asStr

/-- An absent or null field is `none`; a field of the wrong type is an error. -/
def optionalString (value : Value) (record field : String) :
    Except RecordError (Option String) :=
  match value.get field with
  | none => .ok none
  | some v =>
    if v.isNull then .ok none
    else (okOr (.invalidField record field "a string") v.asStr).map some

def requiredU64 (value : Value) (record field : String) : Except RecordError UInt64 := do
  let v ← required value record field
  okOr (.invalidField record field "an integer in [0, 2^64)") v.asU64

/-- A field whose absence and whose null mean the same. -/
def nullable (value : Value) (field : String) : Option Value :=
  match value.get field with
  | none => none
  | some v => if v.isNull then none else some v

/-- Every item is a string. -/
def stringItems (error : RecordError) : List Value → Except RecordError (List String)
  | [] => .ok []
  | item :: items => do
      let s ← okOr error item.asStr
      let rest ← stringItems error items
      return s :: rest

/-- 64 lowercase hexadecimal digits. -/
def isHex64 (text : String) : Bool := text.toList.length = 64 && text.toList.all isHexDigit

/-- `strip_prefix` of the digest prefix. -/
def stripDigestPrefix (text : String) : Option String :=
  if text.toList.take 7 = DIGEST_PREFIX.toList then some (String.ofList (text.toList.drop 7))
  else none

def isDigest (text : String) : Bool :=
  match stripDigestPrefix text with
  | some rest => isHex64 rest
  | none => false

/-! ## Signatures -/

/-- `verify_value` on a key and a signature in hexadecimal. Ed25519 is outside
the repository. -/
class Signatures where
  verifyValue : String → Value → String → Bool

inductive SignatureError where
  | missing (record submitter : String)
  | invalid (record submitter : String)
deriving DecidableEq

/-- A submitter that is the text of a public key has to sign. -/
def signedSubmitter (submitter : String) : Option String :=
  if isHex64 submitter then some submitter else none

section Signed

variable [Signatures]

def verifyRecordSignature (record submitter : String) (payload : Value)
    (signature : Option String) : Except SignatureError Unit :=
  match signedSubmitter submitter with
  | none =>
    match signature with
    | none => .ok ()
    | some _ => .error (.invalid record submitter)
  | some key =>
    match signature with
    | none => .error (.missing record submitter)
    | some signature =>
      if Signatures.verifyValue key payload signature then .ok ()
      else .error (.invalid record submitter)

/-- The stricter rule of the records only a key can make. -/
def verifyKeySignature (record identity : String) (payload : Value)
    (signature : Option String) : Except SignatureError Unit :=
  if (signedSubmitter identity).isNone then .error (.invalid record identity)
  else
    match signature with
    | none => .error (.missing record identity)
    | some signature => verifyRecordSignature record identity payload (some signature)

end Signed

/-! ## Writing fields -/

/-- A field that is written only when it is there. -/
def optField (key : String) (value : Option Value) : List (String × Value) :=
  (value.map fun v => (key, v)).toList

/-- An unsigned 64-bit number as a value. -/
def u64Value (n : UInt64) : Value := .int (.ofUInt64 n)

theorem lookupEntry_append (key : String) (xs ys : List (String × Value)) :
    BTreeMap.lookupEntry key (xs ++ ys) =
      (BTreeMap.lookupEntry key xs).or (BTreeMap.lookupEntry key ys) := by
  induction xs with
  | nil => simp [BTreeMap.lookupEntry]
  | cons x xs ih =>
    rw [List.cons_append, BTreeMap.lookupEntry, BTreeMap.lookupEntry]
    split_ifs
    · rfl
    · exact ih

@[simp] theorem reverse_optField (key : String) (value : Option Value) :
    (optField key value).reverse = optField key value := by
  cases value <;> rfl

@[simp] theorem lookupEntry_optField (key key' : String) (value : Option Value) :
    BTreeMap.lookupEntry key (optField key' value) = if key = key' then value else none := by
  cases value with
  | none => simp [optField, BTreeMap.lookupEntry]
  | some v => simp [optField, BTreeMap.lookupEntry]

@[simp] theorem asObject_object (pairs : List (String × Value)) :
    (Value.object pairs).asObject.isSome = true := by
  simp [Value.asObject, Value.object]

@[simp] theorem expectObject_object (pairs : List (String × Value)) (record : String) :
    expectObject (.object pairs) record = .ok (.object pairs) := by
  simp [expectObject]

@[simp] theorem asU64_u64Value (n : UInt64) : (u64Value n).asU64 = some n :=
  Value.asU64_ofUInt64 n

@[simp] theorem isNull_string (s : String) : (Value.string s).isNull = false := rfl

@[simp] theorem isNull_u64Value (n : UInt64) : (u64Value n).isNull = false := rfl

variable {field record : String} {value : Value}

theorem required_of_get {v : Value} (h : value.get field = some v) :
    required value record field = .ok v := by
  rw [required, h, okOr_some]

theorem requiredString_of_get {s : String} (h : value.get field = some (.string s)) :
    requiredString value record field = .ok s := by
  rw [requiredString, required_of_get h]
  rfl

theorem requiredU64_of_get {n : UInt64} (h : value.get field = some (u64Value n)) :
    requiredU64 value record field = .ok n := by
  rw [requiredU64, required_of_get h]
  show okOr _ (u64Value n).asU64 = _
  rw [asU64_u64Value, okOr_some]

theorem optionalString_of_get {s : Option String} (h : value.get field = s.map Value.string) :
    optionalString value record field = .ok s := by
  rw [optionalString, h]
  cases s <;> rfl

theorem eq_null_of_isNull {v : Value} (h : v.isNull = true) : v = .null := by
  have hview : v.view = .null := by
    unfold Value.isNull at h
    split at h
    · assumption
    · simp at h
  rw [← Value.ofView_view v, hview]
  rfl

/-- Reading a field this way drops an explicit null and nothing else. -/
theorem nullable_eq_filter {v : Option Value} (h : value.get field = v) :
    nullable value field = v.filter fun w => !w.isNull := by
  unfold nullable
  rw [h]
  cases v with
  | none => rfl
  | some w =>
    rw [Option.filter_some]
    cases hw : w.isNull <;> simp [hw]

theorem filter_isNull_of_ne {v : Option Value} (h : v ≠ some .null) :
    (v.filter fun w => !w.isNull) = v := by
  cases v with
  | none => rfl
  | some w =>
    have hw : w.isNull = false := by
      by_contra hn
      rw [Bool.not_eq_false] at hn
      exact h (by rw [eq_null_of_isNull hn])
    rw [Option.filter_some]
    simp [hw]

theorem stringItems_map_string (error : RecordError) (items : List String) :
    stringItems error (items.map Value.string) = .ok items := by
  induction items with
  | nil => rfl
  | cons s items ih =>
    rw [List.map_cons, stringItems, ih]
    rfl

end Cairn.Ports
