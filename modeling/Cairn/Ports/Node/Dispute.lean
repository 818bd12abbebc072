import Cairn.Ports.Node.Committee

/-!
# Disputes as the log records them

The queries of `src/node.rs` about challenges, moves and attestations. A
dispute is replayed from the moves of the log on every query.
-/

namespace Cairn.Ports

open Cairn.Verified
open Cairn.Ports.Canonical

/-- `committed_trace`: the root and length a claim commits its trace to. -/
def committedTrace (claim : Claim) : Option (String × UInt64) := do
  let root ← payloadStr claim.artifact "trace_root"
  let states ← payloadU64 claim.artifact "trace_states"
  return (root, states)

/-- Where a dispute stands. -/
inductive DisputeState where
  | awaitingEndpoints (challenge : Challenge) (missing : List (Nat × Side))
  | live (challenge : Challenge) (dispute : Dispute)
  | void (challenge : Challenge) (why : DisputeError)

def DisputeState.challenge : DisputeState → Challenge
  | .awaitingEndpoints challenge _ => challenge
  | .live challenge _ => challenge
  | .void challenge _ => challenge

namespace Log

variable [World]

def challenges (log : List Entry) : BTreeMap String Challenge :=
  BTreeMap.ofList ((decoded .challenge Challenge.fromValue log).map fun p => (p.2.id, p.2))

def attestations (log : List Entry) : BTreeMap String Attestation :=
  BTreeMap.ofList ((decoded .attestation Attestation.fromValue log).map fun p => (p.2.id, p.2))

/-- The claim a challenge is about, and its objective. -/
def disputedClaim (log : List Entry) (challenge : Challenge) : Option (Claim × Objective) := do
  let claim ← claimOf log challenge.claimId
  let objective ← (objectives log).get? claim.objectiveId
  return (claim, objective)

def sideOf (log : List Entry) (challenge : Challenge) (mover : String) : Option Side :=
  if mover = challenge.challenger then some .challenger
  else
    match disputedClaim log challenge with
    | some (claim, _) => if claim.submitter = mover then some .defender else none
    | none => none

/-- The signed moves of a challenge, in log order. -/
def movesOf (log : List Entry) (challengeId : String) : List BisectionMove :=
  ((decoded .bisection BisectionMove.fromValue log).map Prod.snd).filter fun record =>
    record.challengeId = challengeId && (toOk record.verifySignature).isSome

/-- The move a record makes in a trace of `states` states. -/
def moveOf (record : BisectionMove) (states : UInt64) : Move :=
  { challenge := record.challengeId, index := record.index.toNat, state := record.state,
    path := { index := record.index.toNat, leaves := states.toNat, siblings := record.path } }

/-- The moves with the side that made them, strangers dropped. -/
def sidedMoves (log : List Entry) (challenge : Challenge) (challengeId : String)
    (states : UInt64) : List (Side × Move) :=
  (movesOf log challengeId).filterMap fun record =>
    (sideOf log challenge record.mover).map fun side => (side, moveOf record states)

/-- The first move of a side at an index. -/
def endpoint (moves : List (Side × Move)) (index : Nat) (side : Side) : Option Move :=
  (moves.find? fun p => p.2.index = index && p.1 = side).map Prod.snd

/-- Play the moves that are no endpoints; a refused one changes nothing. -/
def playAll (dispute : Dispute) (moves : List (Side × Move)) : Dispute :=
  moves.foldl (fun dispute p =>
    match dispute.play p.1 p.2 with
    | .ok dispute => dispute
    | .error _ => dispute) dispute

/-- `dispute`: the state of a challenge, replayed from the log. -/
def dispute (log : List Entry) (challengeId : String) : Option DisputeState := do
  let challenge ← (challenges log).get? challengeId
  let (claim, _) ← disputedClaim log challenge
  let (defenderRoot, states) ← committedTrace claim
  let last := states.toNat - 1
  let moves := sidedMoves log challenge challengeId states
  let need := [(0, Side.defender), (0, .challenger), (last, .defender), (last, .challenger)]
  let missing := need.filter fun key => (endpoint moves key.1 key.2).isNone
  match endpoint moves 0 .defender, endpoint moves 0 .challenger, endpoint moves last .defender,
    endpoint moves last .challenger with
  | some defenderStart, some challengerStart, some defenderFinal, some challengerFinal =>
    match Dispute.openDispute challengeId defenderRoot challenge.root states.toNat
      { defenderStart, challengerStart, defenderFinal, challengerFinal } with
    | .error why => some (.void challenge why)
    | .ok opened =>
      let rest := moves.filter fun p => p.2.index ≠ 0 && p.2.index ≠ last
      some (.live challenge (playAll opened rest))
  | _, _, _, _ => some (.awaitingEndpoints challenge missing)

/-- The recorded outcome of a challenge. -/
def challengeOutcome (log : List Entry) (challengeId : String) : Option Value :=
  ((ofKind log .challengeSettlement).find? fun e =>
    payloadStr e.payload "challenge_id" = some challengeId).map Entry.payload

/-- The sides a dispute waits for, each once, the defender first. -/
def owes : DisputeState → List Side
  | .awaitingEndpoints _ missing =>
    [Side.defender, .challenger].filter fun side => missing.any fun p => p.2 = side
  | .live _ dispute =>
    match dispute.next with
    | .openAt _ waitingOn => waitingOn
    | _ => []
  | .void _ _ => []

/-- `overdue`: the side that let its window pass, if exactly one owes a move,
or the challenger of a challenge nobody has moved in. -/
def overdue (log : List Entry) (challengeId ts : String) :
    Except RuleViolation (Option Side) :=
  match dispute log challengeId with
  | none => .ok none
  | some state =>
    let challenge := state.challenge
    let moves := movesOf log challengeId
    match owes state with
    | [side] => do
        let lastTs := (moves.getLast?.map BisectionMove.createdAt).getD challenge.createdAt
        let last ← epochOfTimestamp "bisection" lastTs
        let now ← epochOfTimestamp "challenge_settlement" ts
        if now.toNat > satAdd last CHALLENGE_WINDOW_EPOCHS then return some side
        else return none
    | sides => do
        if moves.isEmpty ∧ Side.challenger ∈ sides then
          let opened ← epochOfTimestamp "challenge" challenge.createdAt
          let now ← epochOfTimestamp "challenge_settlement" ts
          if now.toNat > satAdd opened CHALLENGE_WINDOW_EPOCHS then return some .challenger
          else return none
        else return none

end Log

end Cairn.Ports
