import Cairn.Ports.Frontier

/-!
# Verdicts, verifier kinds and tiers

`Status`, `Verdict` and `Kind` of `src/verifiers/mod.rs`, and `src/tier.rs`.
What a verifier answers is outside the model: operations that run one take a
`Registry`, so two calls may meet different answers.
-/

namespace Cairn.Ports

open Cairn.Verified
open Cairn.Ports.Canonical

inductive Status where
  | accept
  | reject
  | unavailable
  | invalidSpec
deriving DecidableEq

def Status.asStr : Status → String
  | .accept => "accept"
  | .reject => "reject"
  | .unavailable => "unavailable"
  | .invalidSpec => "invalid_spec"

def Status.fromWire (text : String) : Option Status :=
  if text = "accept" then some .accept
  else if text = "reject" then some .reject
  else if text = "unavailable" then some .unavailable
  else if text = "invalid_spec" then some .invalidSpec
  else none

@[simp] theorem Status.fromWire_asStr (s : Status) : Status.fromWire s.asStr = some s := by
  cases s <;> rfl

/-- Only a real verdict may move value. -/
def Status.settles : Status → Bool
  | .accept => true
  | .reject => true
  | _ => false

structure Verdict where
  status : Status
  detail : String
  evidence : Value

namespace Verdict

def accepted (v : Verdict) : Bool := v.status = .accept

/-- The integer score, when the verifier produced one. -/
def score (v : Verdict) : Option Int64 :=
  ((v.evidence.get "score").bind Value.asI128).bind Ratchet.toInt64

def toValue (v : Verdict) : Value :=
  .object [("status", .string v.status.asStr), ("detail", .string v.detail),
    ("evidence", v.evidence)]

def fromValue (value : Value) : Option Verdict := do
  let text ← (value.get "status").bind Value.asStr
  let status ← Status.fromWire text
  let detail := ((value.get "detail").bind Value.asStr).getD ""
  let evidence :=
    match value.get "evidence" with
    | some v => if v.asObject.isSome then v else .object []
    | none => .object []
  some { status, detail, evidence }

end Verdict

/-! ## Verifier kinds -/

inductive Kind where
  | certificate
  | evaluator
  | lean
  | replay
  | statistical
deriving DecidableEq

def Kind.all : List Kind := [.certificate, .evaluator, .lean, .replay, .statistical]

def Kind.asStr : Kind → String
  | .certificate => "certificate"
  | .evaluator => "evaluator"
  | .lean => "lean"
  | .replay => "replay"
  | .statistical => "statistical"

def Kind.parse (text : String) : Option Kind := Kind.all.find? fun kind => kind.asStr = text

/-- `VerifierRegistry`: running a verifier on an artifact, and a pinned
entrypoint on a value. -/
structure Registry where
  run : Value → Value → Verdict
  transform : (code sha256 entrypoint : String) → Value → (timeout : UInt64) →
    Except Verdict Value

/-- `VerifierRegistry::supports`. -/
def Registry.supports (kind : String) : Bool := (Kind.parse kind).isSome

/-! ## Tiers -/

/-- Where units were earned: everywhere, or under one kind of verifier. -/
inductive Tier where
  | universal
  | earned (kind : Kind)
deriving DecidableEq

/-- `tier::Ledger`: what an identity holds and has committed in each tier. A
tier that is in neither map counts as zero in both. -/
structure TierLedger where
  held : Tier → Nat
  committed : Tier → Nat

namespace TierLedger

def empty : TierLedger := { held := fun _ => 0, committed := fun _ => 0 }

def credit (l : TierLedger) (tier : Tier) (units : Nat) : TierLedger :=
  { l with held := Function.update l.held tier (l.held tier + units) }

def commit (l : TierLedger) (tier : Tier) (units : Nat) : TierLedger :=
  { l with committed := Function.update l.committed tier (l.committed tier + units) }

/-- What a tier has committed beyond what it holds. -/
def deficit (l : TierLedger) (tier : Tier) : Nat :=
  if tier = .universal then 0 else l.committed tier - l.held tier

/-- What the earned tiers draw from the universal one. -/
def universalDrawn (l : TierLedger) : Nat :=
  l.committed .universal + (Kind.all.map fun kind => l.deficit (.earned kind)).sum

def spendableIn (l : TierLedger) (tier : Tier) : Nat :=
  let universalLeft := l.held .universal - l.universalDrawn
  if tier = .universal then universalLeft
  else (l.held tier - l.committed tier) + universalLeft

end TierLedger

end Cairn.Ports
