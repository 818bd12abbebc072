import Cairn.Ports.Node.Admission

/-!
# The audit of sealed commitments

`audit_sealed` of `src/node.rs`: the rules of a sealed commitment restated over a
log that may have come from anywhere.
-/

namespace Cairn.Ports

open Cairn.Verified
open Cairn.Ports.Canonical

/-- A line of an audit: a text, the error it quotes, and the text behind it. -/
structure Problem where
  text : String
  error : Option RuleViolation := none
  rest : String := ""

/-- A line that is a text. -/
def Problem.plain (text : String) : Problem := { text }

namespace Log

variable [World]

/-- The loop of `audit_sealed`; `exposure` is what every epoch has sealed. -/
def auditSealedFrom (log : List Entry) : BTreeMap Nat Nat → List Entry → List Problem
  | _, [] => []
  | exposure, e :: rest =>
    match toOk (Commitment.fromValue e.payload) with
    | none => auditSealedFrom log exposure rest
    | some commitment =>
      match commitment.envelope, epochOfTs commitment.createdAt with
      | some envelope, some epoch =>
        let size := committeeSizeAt log epoch log.length
        let threshold := thresholdFor size
        let seats := (Envelopes.shareIndices envelope).length
        let shape :=
          if seats ≠ size.toNat ∨ Envelopes.threshold envelope ≠ threshold then
            [.plain (s!"entry {e.seq}: sealed to {seats} seats at threshold " ++
              s!"{Envelopes.threshold envelope}, but epoch {epoch} draws {size} seats at " ++
              s!"threshold {threshold}")] else []
        if !declaresSupply log then shape ++ auditSealedFrom log exposure rest
        else
          let reward := (((objectives log).get? commitment.objectiveId).map fun objective =>
            objective.reward.toNat).getD 0
          let slot := exposure.amount epoch.toNat + reward
          let guarded := custodyGuard log epoch size log.length
          shape ++
          (if slot > guarded then
            [.plain (s!"entry {e.seq}: epoch {epoch} now seals {slot} units behind {size} " ++
              s!"seats that put only {guarded} at risk; the cheapest members of that " ++
              "committee are better off opening it early")]
          else []) ++ auditSealedFrom log (exposure.insert epoch.toNat slot) rest
      | _, _ => auditSealedFrom log exposure rest

def auditSealed (log : List Entry) : List Problem :=
  auditSealedFrom log .empty (ofKind log .commitment)

end Log

end Cairn.Ports
