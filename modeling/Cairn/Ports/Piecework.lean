import Cairn.Ports.Frontier

/-!
# Piecework

`src/piecework.rs`: a job pays a price for every unit it has not paid before.
A unit is known by its novelty key.
-/

namespace Cairn.Ports

open Cairn.Verified
open Cairn.Ports.Canonical

inductive PieceworkError where
  | notAnObject
  | missingField (field : String)
  | invalidField (field expected : String)
  | zeroUnitPrice
  | zeroUnits
  | emptyKey
  | keyFieldWithComma
  | emptyItems
  | outOfRange (field : String) (value : I128)
deriving DecidableEq

/-- What makes two units the same. -/
inductive UnitKey where
  | field (name : String)
  | fields (names : List String)
deriving DecidableEq

structure Piecework where
  unitPrice : UInt64
  units : Option UInt64
  key : Option UnitKey
  items : Option String
deriving DecidableEq

namespace Piecework

def checkKey : Option UnitKey → Except PieceworkError Unit
  | none => .ok ()
  | some (.field name) => if name = "" then .error .emptyKey else .ok ()
  | some (.fields names) =>
    if names = [] ∨ names.any (· = "") then .error .emptyKey
    else if names.any fun name => name.toList.contains ',' then .error .keyFieldWithComma
    else .ok ()

def validate (p : Piecework) : Except PieceworkError Unit := do
  if p.unitPrice = 0 then throw .zeroUnitPrice
  if p.units = some 0 then throw .zeroUnits
  checkKey p.key
  if p.items = some "" then throw .emptyItems

def unitPriceOf (value : Value) : Except PieceworkError UInt64 := do
  let v ← okOr (.missingField "unit_price") (value.get "unit_price")
  let raw ← okOr (.invalidField "unit_price" "an integer") v.asI128
  okOr (.outOfRange "unit_price" raw) (Ratchet.toUInt64 raw)

def unitsOf (value : Value) : Except PieceworkError (Option UInt64) :=
  match nullable value "units" with
  | none => .ok none
  | some v => do
      let raw ← okOr (.invalidField "units" "an integer") v.asI128
      let n ← okOr (.outOfRange "units" raw) (Ratchet.toUInt64 raw)
      return some n

def keyOf (value : Value) : Except PieceworkError (Option UnitKey) :=
  let expected := "a string naming an artifact field, or an array of them"
  match nullable value "key" with
  | none => .ok none
  | some v =>
    match v.asStr with
    | some name => .ok (some (.field name))
    | none =>
      match v.asArray with
      | some items =>
        (okOr (.invalidField "key" expected) (items.mapM Value.asStr)).map
          fun names => some (.fields names)
      | none => .error (.invalidField "key" expected)

def itemsOf (value : Value) : Except PieceworkError (Option String) :=
  match nullable value "items" with
  | none => .ok none
  | some v =>
    (okOr (.invalidField "items" "a string naming the artifact field holding the batch")
      v.asStr).map some

def fromValue (value : Value) : Except PieceworkError Piecework := do
  if value.asObject.isNone then throw .notAnObject
  let unitPrice ← unitPriceOf value
  let units ← unitsOf value
  let key ← keyOf value
  let items ← itemsOf value
  let piecework : Piecework := { unitPrice, units, key, items }
  piecework.validate
  return piecework

/-- What makes a unit new: its digest, or the digest of its key fields. -/
def noveltyKey [Sha256] (p : Piecework) (unit : Value) : Option String :=
  match p.key with
  | none => some ("piece:" ++ unit.digest)
  | some (.field name) =>
    (unit.get name).map fun v => "piece:" ++ name ++ ":" ++ v.digest
  | some (.fields names) => do
      let values ← names.mapM fun name => (unit.get name).map fun v => (name, v)
      some ("piece:" ++ ",".intercalate names ++ ":" ++ (Value.object values).digest)

/-- The units of an artifact, before their keys are taken. -/
def unitsIn (p : Piecework) (artifact : Value) : List Value :=
  match p.items with
  | none => [artifact]
  | some items => ((artifact.get items).bind Value.asArray).getD []

/-- The keys of an artifact's units, each once, in order. -/
def unitKeys [Sha256] (p : Piecework) (artifact : Value) : List String :=
  ((p.unitsIn artifact).filterMap p.noveltyKey).foldl
    (fun out key => if key ∈ out then out else out ++ [key]) []

/-- What `novel` new units pay out of what is left. -/
def payoutFor (p : Piecework) (novel : Nat) (remaining : UInt64) : UInt64 :=
  let owed := min (p.unitPrice.toNat * novel) remaining.toNat
  if owed < UInt64.size then UInt64.ofNat owed else remaining

/-- `2^32`, the space jobs are sliced over. -/
def SPACE : Nat := 2 ^ 32

/-- The units a slice of the space covers: two floors, so that slices tile. -/
def unitRange (p : Piecework) (slice : UInt64 × UInt64) : Option (Nat × Nat) :=
  p.units.map fun units =>
    if slice.2 < slice.1 ∨ slice.2.toNat > SPACE then (0, 0)
    else
      (slice.1.toNat * units.toNat / SPACE % UInt64.size,
        slice.2.toNat * units.toNat / SPACE % UInt64.size)

theorem payoutFor_le (p : Piecework) (novel : Nat) (remaining : UInt64) :
    (p.payoutFor novel remaining).toNat ≤ remaining.toNat := by
  have hrem := remaining.toNat_lt
  unfold payoutFor
  simp only
  split_ifs with hfits
  · rw [UInt64.toNat_ofNat_of_lt' (by simpa [UInt64.size] using hfits)]
    exact Nat.min_le_right _ _
  · exact le_rfl

end Piecework

end Cairn.Ports
