import Cairn.Ports.Node.Dispute

/-!
# The node and its drain

`Node` of `src/node.rs`: a log and the memoised index of paid units. `append`
always succeeds here; what a failing disk does to a log is the subject of
`Cairn.Ports.Ledger.File`.

`settle_due` drains every epoch that has cleared the finality delay. Within an
epoch the accepted claims settle in an order drawn from the epoch's anchor,
each under the rule of its objective: one payment, a ratchet, or piecework.
-/

namespace Cairn.Ports

open Cairn.Verified
open Cairn.Ports.Canonical

/-- `PaidUnitIndex`: the units a job has paid, and how far it was scanned. -/
structure PaidUnitIndex where
  scanned : Nat
  claims : BTreeMap String (List String)
  paid : List String

def PaidUnitIndex.empty : PaidUnitIndex := { scanned := 0, claims := .empty, paid := [] }

/-- What one piecework settlement counted: the local `novel` of `settle_unit`,
with the job it was counted under. -/
structure Counted where
  claimId : String
  objective : Objective
  keys : List String

/-- One call of `settle_due`: how long the log was, and the epoch it drained
up to. -/
structure DrainCall where
  length : Nat
  now : UInt64

/-- A node. `counted` and `drains` are history variables: what every piecework
settlement counted and every call of `settle_due`. Nothing reads them. -/
structure Node where
  ledger : Ledger
  pieceworkIndex : BTreeMap String PaidUnitIndex
  counted : List Counted
  drains : List DrainCall

/-- What settling a claim did. -/
structure Outcome where
  claimId : String
  verdict : Verdict
  settled : Bool
  reward : UInt64
  pendingEpoch : Option UInt64
  note : String

def Outcome.unsettled (claimId : String) (verdict : Verdict) (note : String) : Outcome :=
  { claimId, verdict, settled := false, reward := 0, pendingEpoch := none, note }

/-- A claim that was paid. -/
def Outcome.paid (claimId : String) (verdict : Verdict) (reward : UInt64) (note : String) :
    Outcome :=
  { claimId, verdict, settled := true, reward := reward, pendingEpoch := none, note }

def Outcome.pending [Clock] (claimId : String) (verdict : Verdict) (epoch : UInt64) : Outcome :=
  { claimId, verdict, settled := false, reward := 0, pendingEpoch := some epoch
    note := "accepted; settles once epoch " ++ toString epoch.toNat ++ " closes and clears the " ++
      toString (Clock.finalityEpochs).toNat ++ "-epoch finality delay" }

/-- The payload of a settlement. -/
def settlementValue (objectiveId claimId submitter : String) (reward : UInt64) : Value :=
  .object [("objective_id", .string objectiveId), ("claim_id", .string claimId),
    ("submitter", .string submitter), ("reward", u64Value reward)]

/-- The payload of a batch. -/
def batchValue (epoch : UInt64) (anchor : String) (order : List String) : Value :=
  .object [("epoch", u64Value epoch), ("anchor", .string anchor),
    ("claims", .array (order.map .string))]

/-- The previous frontier score in a note. -/
def renderPrevious : Option Int64 → String
  | some score => toString score.toInt
  | none => "none"

/-- The text of a stall. -/
def Stall.display : Stall → String
  | .regressed previous score =>
    "score " ++ toString score.toInt ++ " does not improve on " ++ renderPrevious previous
  | .belowMinImprovement gained minImprovement =>
    "better than the frontier, but gains only " ++ toString gained ++ " of the " ++
      toString minImprovement ++ " progress a settling move needs"
  | .clampedByTarget gained minImprovement target =>
    "better than the frontier, but progress stops at the target " ++ toString target.toInt ++
      ", so this gains " ++ toString gained ++ " of the " ++ toString minImprovement ++
      " a settling move needs; no larger improvement gains more"
  | .targetReached target =>
    "the frontier has reached the target " ++ toString target.toInt ++
      "; no claim can move this objective again"

section Display

variable [World]

/-- A text as `{:?}` prints it. -/
def quoted (text : String) : String := debugString World.printable text

def RatchetError.display : RatchetError → String
  | .notAnObject record => record ++ ": record must be an object"
  | .missingField record field => record ++ ": missing required field " ++ quoted field
  | .invalidField record field expected =>
    record ++ ": field " ++ quoted field ++ " must be " ++ expected
  | .outOfRange field value =>
    field ++ " " ++ toString value.val ++ " is outside the range this implementation represents"
  | .rewardOutOfRange reward =>
    "reward " ++ toString reward.val ++
      " must be non-negative and at most 18446744073709551615 units"
  | .unknownDirection direction =>
    "direction must be maximize or minimize, not " ++ quoted direction
  | .minImprovementTooSmall => "min_improvement must be at least 1"
  | .targetNotAboveBaseline baseline target =>
    "target must exceed baseline when maximizing (baseline " ++ toString baseline.toInt ++
      ", target " ++ toString target.toInt ++ ")"
  | .targetNotBelowBaseline baseline target =>
    "target must be below baseline when minimizing (baseline " ++ toString baseline.toInt ++
      ", target " ++ toString target.toInt ++ ")"
  | .degenerateSpan => "ratchet span is zero; there is no distance to pay for"
  | .overflow what => what ++ " overflowed; refusing to wrap on a money path"

def PieceworkError.display : PieceworkError → String
  | .notAnObject => "piecework must be an object"
  | .missingField field => "piecework needs " ++ quoted field
  | .invalidField field expected => "piecework field " ++ quoted field ++ " must be " ++ expected
  | .zeroUnitPrice => "piecework unit_price must be at least 1"
  | .zeroUnits => "piecework units must be at least 1"
  | .emptyKey => "piecework key must name an artifact field"
  | .keyFieldWithComma => "a piecework key field may not contain a comma"
  | .emptyItems => "piecework items must name the artifact field holding the batch"
  | .outOfRange field value =>
    "piecework field " ++ quoted field ++ " is out of range: " ++ toString value.val

/-- Why a score moves nothing. -/
def stallNote (ratchet : Ratchet) (previous : Option Int64) (score : Int64) : Stall → String
  | .regressed _ _ =>
    "score " ++ toString score.toInt ++ " does not improve on " ++ renderPrevious previous ++
      " by at least " ++ toString ratchet.minImprovement.toNat
  | stall => "score " ++ toString score.toInt ++ ": " ++ stall.display

def improvedNote (ratchet : Ratchet) (score : Int64) : String :=
  if ratchet.progress score ≥ ratchet.span then
    "frontier advanced; target reached, pool exhausted"
  else "frontier advanced"

/-- Why an artifact has no units. -/
def noUnitsNote (piecework : Piecework) : String :=
  match piecework.items, piecework.key with
  | some items, _ =>
    "artifact carries no units under " ++ quoted items ++
      ", so it names no unit of this objective"
  | none, some (.field field) =>
    "artifact has no " ++ quoted field ++ " field, so it names no unit of this objective"
  | none, some (.fields fields) =>
    "artifact lacks one of " ++ quoted (",".intercalate fields) ++
      ", so it names no unit of this objective"
  | none, none => "artifact names no unit of this objective"

def duplicateUnitsNote (piecework : Piecework) : String :=
  if piecework.items.isSome then
    "every unit in the batch was already paid; duplicate units mint nothing"
  else "duplicate unit mints nothing"

def unitsPaidNote (piecework : Piecework) (novel keys : List String) (exhausted : Bool) : String :=
  (if piecework.items.isSome then toString novel.length ++ " novel unit(s) paid"
    else "unit paid") ++
  (if novel.length < keys.length then
    "; " ++ toString (keys.length - novel.length) ++ " duplicate(s) in the batch earned nothing"
    else "") ++
  (if exhausted then "; pool exhausted" else "")

end Display

namespace Node

/-- A node on an empty index. -/
def new (ledger : Ledger) : Node :=
  { ledger, pieceworkIndex := .empty, counted := [], drains := [] }

def log (n : Node) : List Entry := n.ledger.entries

section Drain

variable [World]

/-- Append an entry to the log. -/
def append (n : Node) (kind : EntryKind) (payload : Value) (ts : String) : Node :=
  { n with ledger :=
      { n.ledger with entries := n.log ++ [n.ledger.nextEntry kind.asStr payload ts] } }

/-- Record what a claim earned. -/
def pay (n : Node) (claim : Claim) (reward : UInt64) (ts : String) : Node :=
  n.append .settlement (settlementValue claim.objectiveId claim.id claim.submitter reward) ts

/-- Record the claim that holds the frontier of its objective. -/
def advance (n : Node) (claim : Claim) (score : Int64) (paidCumulative : UInt64) (ts : String) :
    Node :=
  let advanced : FrontierEntry :=
    { objectiveId := claim.objectiveId, claimId := claim.id, holder := claim.submitter
      score, paidCumulative }
  n.append .frontier advanced.toValue ts

/-- Note what a settlement counted. -/
def count (n : Node) (claim : Claim) (objective : Objective) (keys : List String) : Node :=
  { n with counted := n.counted ++ [{ claimId := claim.id, objective, keys }] }

/-! ## The index of paid units -/

/-- Scan one entry into the index of a job. -/
def scanEntry (scope : List String) (piecework : Piecework) (index : PaidUnitIndex) (e : Entry) :
    PaidUnitIndex :=
  if e.kind = EntryKind.claim.asStr then
    match Claim.fromValue e.payload with
    | .ok claim =>
      if claim.objectiveId ∈ scope then
        { index with
          claims := index.claims.insert claim.id (piecework.unitKeys claim.artifact) }
      else index
    | .error _ => index
  else if e.kind = EntryKind.settlement.asStr then
    match (payloadStr e.payload "claim_id").bind index.claims.get? with
    | some keys => { index with paid := index.paid ++ keys }
    | none => index
  else index

/-- The name of a job: its verifier and its block. -/
def jobOf (objective : Objective) (block : Value) : String :=
  objective.verifier.digest ++ "|" ++ block.digest

/-- `paid_unit_keys`: bring the index of a job up to date and read it. -/
def paidUnitKeys (n : Node) (objective : Objective) (piecework : Piecework) :
    Node × List String :=
  match objective.piecework with
  | none => (n, [])
  | some block =>
    let job := jobOf objective block
    let held := (n.pieceworkIndex.get? job).getD .empty
    let start := if held.scanned > n.log.length then .empty else held
    let scanned := (n.log.drop start.scanned).foldl
      (scanEntry (Log.pieceworkScope n.log objective) piecework) start
    let index := { scanned with scanned := n.log.length }
    ({ n with pieceworkIndex := n.pieceworkIndex.insert job index }, index.paid)

/-! ## Settling one claim -/

/-- `settle_unit`: piecework pays for the units nobody was paid for. -/
def settleUnit (n : Node) (claim : Claim) (verdict : Verdict) (objective : Objective)
    (piecework : Piecework) (consumed : List String) (ts : String) :
    Node × Except RuleViolation Outcome :=
  let keys := piecework.unitKeys claim.artifact
  if keys = [] then (n, .ok (.unsettled claim.id verdict (noUnitsNote piecework)))
  else
    let (n, paid) := n.paidUnitKeys objective piecework
    let novel := keys.filter fun key => key ∉ consumed && key ∉ paid
    if novel = [] then (n, .ok (.unsettled claim.id verdict (duplicateUnitsNote piecework)))
    else
      let remaining := (tryUInt64 (objective.reward.toNat -
        Log.paidTotal n.log claim.objectiveId)).getD 0
      let reward := piecework.payoutFor novel.length remaining
      if reward = 0 then
        (n, .ok (.unsettled claim.id verdict
          "pool exhausted; this unit verified and earns nothing here"))
      else
        let n := (n.pay claim reward ts).count claim objective novel
        (n, .ok (.paid claim.id verdict reward
          (unitsPaidNote piecework novel keys (reward = remaining))))

/-- Record a move of the frontier and what it earned, if anything. -/
def recordMove (n : Node) (claim : Claim) (score : Int64) (reward paidCumulative : UInt64)
    (ts : String) : Node :=
  if reward > 0 then (n.advance claim score paidCumulative ts).pay claim reward ts
  else n.advance claim score paidCumulative ts

/-- What a frontier has been paid. -/
def paidBefore (held : Option FrontierEntry) : UInt64 :=
  (held.map FrontierEntry.paidCumulative).getD 0

/-- What it has been paid after a move, if that fits. -/
def paidAfter (held : Option FrontierEntry) (reward : UInt64) : Option UInt64 :=
  tryUInt64 ((paidBefore held).toNat + reward.toNat)

/-- A move that pays `reward`. -/
def settleMove (n : Node) (claim : Claim) (verdict : Verdict) (ratchet : Ratchet)
    (held : Option FrontierEntry) (score : Int64) (reward : UInt64) (ts : String) :
    Node × Except RuleViolation Outcome :=
  match paidAfter held reward with
  | none => (n, .error (.payoutOverflow (paidBefore held) reward))
  | some paidCumulative =>
    (n.recordMove claim score reward paidCumulative ts,
      .ok (.paid claim.id verdict reward (improvedNote ratchet score)))

/-- `settle_improvement`: a ratchet pays for the distance to the new score. -/
def settleImprovement (n : Node) (claim : Claim) (verdict : Verdict) (ratchet : Ratchet)
    (held : Option FrontierEntry) (ts : String) : Node × Except RuleViolation Outcome :=
  match verdict.score with
  | none => (n, .ok (.unsettled claim.id verdict "verifier produced no integer score"))
  | some score =>
    match ratchet.stall (held.map FrontierEntry.score) score with
    | some stall =>
      (n, .ok (.unsettled claim.id verdict
        (stallNote ratchet (held.map FrontierEntry.score) score stall)))
    | none =>
      match ratchet.payout (held.map FrontierEntry.score) score with
      | .error error => (n, .error (.malformedRatchet error))
      | .ok reward => n.settleMove claim verdict ratchet held score reward ts

/-- The verdict a claim settles under. -/
def settlingVerdict (n : Node) (claim : Claim) : Verdict :=
  (Log.recordedVerdict n.log claim.id).getD
    { status := .accept, detail := "recorded acceptance", evidence := .object [] }

/-- An objective without ratchet and piecework pays once. -/
def settleWhole (n : Node) (claim : Claim) (verdict : Verdict) (objective : Objective)
    (epoch : UInt64) (consumed : List String) (ts : String) : Node × Except RuleViolation Outcome :=
  if claim.artifactId ∈ consumed ∨
      claim.artifactId ∈ Log.artifactIdsBefore n.log claim.objectiveId epoch then
    (n, .ok (.unsettled claim.id verdict "duplicate artifact mints nothing"))
  else if (Log.settlementOf n.log claim.objectiveId).isSome then
    (n, .ok (.unsettled claim.id verdict "objective already settled"))
  else
    (n.pay claim objective.reward ts, .ok (.paid claim.id verdict objective.reward "settled"))

/-- `settle_one`: a claim settles under the rule of its objective. -/
def settleOne (n : Node) (claim : Claim) (epoch : UInt64) (consumed : List String) (ts : String) :
    Node × Except RuleViolation Outcome :=
  let verdict := n.settlingVerdict claim
  match (Log.objectives n.log).get? claim.objectiveId with
  | none => (n, .ok (.unsettled claim.id verdict "objective is no longer readable"))
  | some objective =>
    match objective.ratchet, objective.piecework with
    | some block, _ =>
      match Ratchet.fromValue block with
      | .error error => (n, .ok (.unsettled claim.id verdict
          ("objective carries an unusable ratchet: " ++ error.display)))
      | .ok ratchet =>
        match Log.latestFrontier n.log claim.objectiveId with
        | .error error => (n, .ok (.unsettled claim.id verdict
            ("the objective's latest frontier entry cannot be read: " ++ error.display)))
        | .ok held => n.settleImprovement claim verdict ratchet held ts
    | none, some block =>
      match Piecework.fromValue block with
      | .error error => (n, .ok (.unsettled claim.id verdict
          ("objective carries an unusable piecework block: " ++ error.display)))
      | .ok piecework => n.settleUnit claim verdict objective piecework consumed ts
    | none, none => n.settleWhole claim verdict objective epoch consumed ts

/-! ## The drain -/

/-- What a settled claim adds to the set a batch has consumed. -/
def consume (n : Node) (claim : Claim) (settled : Bool) (consumed : List String) : List String :=
  match Log.unitKeysFor n.log claim with
  | some keys => if settled then consumed ++ keys else consumed
  | none => claim.artifactId :: consumed

/-- The loop over a batch. -/
def settleBatch (epoch : UInt64) (ts : String) :
    Node → List String → List Claim → Node × Except RuleViolation (List Outcome)
  | n, _, [] => (n, .ok [])
  | n, consumed, claim :: rest =>
    match n.settleOne claim epoch consumed ts with
    | (n, .error error) => (n, .error error)
    | (n, .ok outcome) =>
      match settleBatch epoch ts n (n.consume claim outcome.settled consumed) rest with
      | (n, .error error) => (n, .error error)
      | (n, .ok outcomes) => (n, .ok (outcome :: outcomes))

/-- Settle one epoch and record its batch. -/
def settleEpoch (n : Node) (epoch : UInt64) (ts : String) :
    Node × Except RuleViolation (List Outcome) :=
  let anchor := Log.anchorOfEpoch n.log epoch
  let batch := Log.batchOf n.log epoch
  match settleBatch epoch ts n [] batch with
  | (n, .error error) => (n, .error error)
  | (n, .ok outcomes) =>
    (n.append .batch (batchValue epoch anchor (batch.map Claim.id)) ts, .ok outcomes)

/-- The loop over the due epochs. -/
def settleEpochs (ts : String) :
    Node → List UInt64 → Node × Except RuleViolation (List Outcome)
  | n, [] => (n, .ok [])
  | n, epoch :: rest =>
    match n.settleEpoch epoch ts with
    | (n, .error error) => (n, .error error)
    | (n, .ok outcomes) =>
      match settleEpochs ts n rest with
      | (n, .error error) => (n, .error error)
      | (n, .ok more) => (n, .ok (outcomes ++ more))

/-- `settle_due`. -/
def settleDue (n : Node) (nowEpoch : UInt64) (ts : String) :
    Node × Except RuleViolation (List Outcome) :=
  let n := { n with drains := n.drains ++ [{ length := n.log.length, now := nowEpoch }] }
  settleEpochs ts n (Log.dueEpochs n.log nowEpoch)

end Drain

end Node

end Cairn.Ports
