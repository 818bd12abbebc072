import Cairn.Ports.Records.Stake
import Cairn.Ports.Verdict

/-!
# Disputes

`src/challenge.rs` and `src/challenge/stepper.rs`: two traces of the same
length that start together and end apart are bisected to one step, and that
step is run.
-/

namespace Cairn.Ports

open Cairn.Verified
open Cairn.Ports.Canonical

inductive Side where
  | defender
  | challenger
deriving DecidableEq

def Side.asStr : Side → String
  | .defender => "defender"
  | .challenger => "challenger"

def Side.other : Side → Side
  | .defender => .challenger
  | .challenger => .defender

/-- One opened state of a trace. -/
structure Move where
  challenge : String
  index : Nat
  state : Value
  path : Inclusion

/-- The move opens `root` at its own index. -/
def Move.opens [Sha256] (m : Move) (root : String) : Bool :=
  m.path.index = m.index && m.state.canonicalBytes.size ≤ MAX_STATE_BYTES &&
    m.path.verify m.state.digest root

inductive DisputeOutcome where
  | adjudicated (winner : Side) (step : Nat) (why : String)
  | forfeited (winner waitingOn : Side)

def DisputeOutcome.winner : DisputeOutcome → Side
  | .adjudicated winner _ _ => winner
  | .forfeited winner _ => winner

def DisputeOutcome.display : DisputeOutcome → String
  | .adjudicated winner step why =>
    winner.asStr ++ " wins on the step from state " ++ toString step ++ ": " ++ why
  | .forfeited winner silent => winner.asStr ++ " wins; " ++ silent.asStr ++ " stopped answering"

/-- What a dispute waits for. -/
inductive Next where
  | openAt (index : Nat) (waitingOn : List Side)
  | adjudicate (agreed : Nat)
  | done (outcome : DisputeOutcome)

inductive DisputeError where
  | agreed
  | tooShort (length : Nat)
  | wrongIndex (asked answered : Nat)
  | notUnderRoot (side : Side)
  | alreadyMoved (side : Side) (index : Nat)
  | differentStart
  | sameEnd
  | finished

def DisputeError.display : DisputeError → String
  | .agreed => "both roots are the same; there is nothing to bisect"
  | .tooShort length =>
    "a trace of " ++ toString length ++ " state(s) has no step to disagree about"
  | .wrongIndex asked answered =>
    "the game asked about state " ++ toString asked ++ ", not " ++ toString answered
  | .notUnderRoot side =>
    "the " ++ side.asStr ++ "'s move does not open the root it committed to"
  | .alreadyMoved side index =>
    "the " ++ side.asStr ++ " already opened state " ++ toString index
  | .differentStart =>
    "the two traces start from different states, so they describe different computations"
  | .sameEnd =>
    "the two traces end on the same state, so the challenge contradicts nothing the claim asserts"
  | .finished => "this dispute is already decided"

/-- A dispute in progress. `opened` lists the states shown so far, newest
first. -/
structure Dispute where
  id : String
  defenderRoot : String
  challengerRoot : String
  length : Nat
  lo : Nat
  hi : Nat
  opened : List ((Nat × Side) × Value)
  outcome : Option DisputeOutcome

structure Endpoints where
  defenderStart : Move
  challengerStart : Move
  defenderFinal : Move
  challengerFinal : Move

namespace Dispute

def openedState (d : Dispute) (index : Nat) (side : Side) : Option Value :=
  d.opened.lookup (index, side)

def rootOf (d : Dispute) : Side → String
  | .defender => d.defenderRoot
  | .challenger => d.challengerRoot

section Play

variable [Sha256]

/-- One endpoint is the state it is asked for and lies under its root. -/
def checkEndpoint (side : Side) (root : String) (index : Nat) (m : Move) :
    Except DisputeError Unit :=
  if m.index ≠ index then .error (.wrongIndex index m.index)
  else if !m.opens root then .error (.notUnderRoot side)
  else .ok ()

def openDispute (id defenderRoot challengerRoot : String) (length : Nat) (ends : Endpoints) :
    Except DisputeError Dispute := do
  if defenderRoot = challengerRoot then throw .agreed
  if length < 2 then throw (.tooShort length)
  let last := length - 1
  checkEndpoint .defender defenderRoot 0 ends.defenderStart
  checkEndpoint .challenger challengerRoot 0 ends.challengerStart
  checkEndpoint .defender defenderRoot last ends.defenderFinal
  checkEndpoint .challenger challengerRoot last ends.challengerFinal
  if ends.defenderStart.state ≠ ends.challengerStart.state then throw .differentStart
  if ends.defenderFinal.state = ends.challengerFinal.state then throw .sameEnd
  return {
    id, defenderRoot, challengerRoot, length
    lo := 0
    hi := last
    opened :=
      [((last, .challenger), ends.challengerFinal.state),
        ((last, .defender), ends.defenderFinal.state),
        ((0, .challenger), ends.challengerStart.state),
        ((0, .defender), ends.defenderStart.state)]
    outcome := none }

end Play

/-- The midpoint of the interval still in dispute. -/
def query (d : Dispute) : Nat := d.lo + (d.hi - d.lo) / 2

def next (d : Dispute) : Next :=
  match d.outcome with
  | some outcome => .done outcome
  | none =>
    if d.hi - d.lo ≤ 1 then .adjudicate d.lo
    else
      .openAt d.query ([Side.defender, Side.challenger].filter fun side =>
        (d.openedState d.query side).isNone)

/-- Play a move; a refused move leaves the dispute as it was. -/
def play [Sha256] (d : Dispute) (side : Side) (m : Move) : Except DisputeError Dispute :=
  match d.next with
  | .openAt index _ =>
    if m.index ≠ index then .error (.wrongIndex index m.index)
    else if !m.opens (d.rootOf side) then .error (.notUnderRoot side)
    else if (d.openedState index side).isSome then .error (.alreadyMoved side index)
    else
      let d := { d with opened := ((index, side), m.state) :: d.opened }
      match d.openedState index .defender, d.openedState index .challenger with
      | some theirs, some mine =>
        if theirs = mine then .ok { d with lo := index } else .ok { d with hi := index }
      | _, _ => .ok d
  | _ => .error .finished

def agreedState (d : Dispute) (index : Nat) : Option Value := do
  let defender ← d.openedState index .defender
  let challenger ← d.openedState index .challenger
  if defender = challenger then some defender else none

/-- The loop of `rounds_needed`. -/
def roundsFrom (width : Nat) : Nat :=
  if 1 < width then roundsFrom ((width + 1) / 2) + 1 else 0
termination_by width
decreasing_by omega

/-- How many rounds a trace of this many states takes at most. -/
def roundsNeeded (length : Nat) : Nat := roundsFrom (length - 1)

end Dispute

/-! ## Adjudication -/

inductive StepError where
  | notBisectable (why : String)
  | failed (verdict : Verdict)

def StepError.display : StepError → String
  | .notBisectable why => "objective is not bisectable: " ++ why
  | .failed verdict => verdict.status.asStr ++ ": " ++ verdict.detail

inductive AdjudicationError where
  | notNarrowed (lo hi : Nat)
  | noAgreedState (index : Nat)
  | unopened (side : Side) (index : Nat)
  | stepper (why : StepError)

def AdjudicationError.display : AdjudicationError → String
  | .notNarrowed lo hi =>
    "the dispute still spans states " ++ toString lo ++ ".." ++ toString hi ++
      "; bisect before adjudicating"
  | .noAgreedState index =>
    "no state both sides opened at " ++ toString index ++ " to step from"
  | .unopened side index => "the " ++ side.asStr ++ " never opened state " ++ toString index
  | .stepper why => "the stepper settles nothing: " ++ why.display

/-- A pinned step function. -/
structure Stepper where
  code : String
  sha256 : String
  entrypoint : String
  timeout : UInt64

namespace Stepper

def declared (spec : Value) : Bool := (spec.get "stepper").isSome

def fieldOf (block : Value) (name : String) : Except StepError String :=
  okOr (.notBisectable ("stepper has no '" ++ name ++ "'")) ((block.get name).bind Value.asStr)

def timeoutOf (block : Value) : Except StepError UInt64 :=
  match block.get "timeout_seconds" with
  | none => .ok 10
  | some v =>
    match v.asU64 with
    | some seconds =>
      if seconds > 0 then .ok seconds
      else .error (.notBisectable "stepper timeout_seconds must be a positive integer")
    | none => .error (.notBisectable "stepper timeout_seconds must be a positive integer")

def fromSpec (spec : Value) : Except StepError Stepper := do
  let block ← okOr (.notBisectable "the spec declares no stepper") (spec.get "stepper")
  let timeout ← timeoutOf block
  let code ← fieldOf block "code"
  let sha256 ← fieldOf block "code_sha256"
  let entrypoint ← fieldOf block "entrypoint"
  return { code, sha256, entrypoint, timeout }

def step (s : Stepper) (registry : Registry) (state : Value) : Except StepError Value :=
  (registry.transform s.code s.sha256 s.entrypoint state s.timeout).mapError .failed

end Stepper

/-- The step in dispute is run; the defender has to be reproduced to win. -/
def Dispute.decideStep (d : Dispute) (registry : Registry) (stepper : Stepper) :
    Except AdjudicationError DisputeOutcome :=
  match d.next with
  | .adjudicate agreed => do
      let start ← okOr (.noAgreedState agreed) (d.agreedState agreed)
      let defender ← okOr (.unopened .defender (agreed + 1)) (d.openedState (agreed + 1) .defender)
      let challenger ←
        okOr (.unopened .challenger (agreed + 1)) (d.openedState (agreed + 1) .challenger)
      let truth ← (stepper.step registry start).mapError .stepper
      if truth = defender then
        return .adjudicated .defender agreed "the step reproduces the defender's state"
      else if truth = challenger then
        return .adjudicated .challenger agreed "the step reproduces the challenger's state"
      else
        return .adjudicated .challenger agreed
          "the step reproduces neither state, so the defence does not reproduce either"
  | _ => .error (.notNarrowed d.lo d.hi)

/-- Decide the dispute once; a decided one keeps its outcome. -/
def Dispute.adjudicate (d : Dispute) (registry : Registry) (stepper : Stepper) :
    Except AdjudicationError (Dispute × DisputeOutcome) :=
  match d.outcome with
  | some outcome => .ok (d, outcome)
  | none =>
    (d.decideStep registry stepper).map fun outcome =>
      ({ d with outcome := some outcome }, outcome)

end Cairn.Ports
