import Cairn.Ports.Ledger.Proof
import Cairn.Ports.Node.Money

/-!
# Peers, committees and availability

The queries of `src/node.rs` about who sits on the committee of an epoch, who
has promised to keep the log, and what answering a sample pays.
-/

namespace Cairn.Ports

open Cairn.Verified
open Cairn.Ports.Canonical

def COMMITTEE_SIZE : UInt8 := 5

def MAX_COMMITTEE_SIZE : UInt8 := 64

/-- `threshold_for`: a majority. -/
def thresholdFor (size : UInt8) : UInt8 := size / 2 + 1

structure CommitteeSeat where
  seat : UInt8
  transport : String
  identity : String
  addr : String

/-- `partition::assign`: a draw from a keyed hash. -/
def assign [World] (nodeId objectiveId epochBeacon : String) (partitions : Nat) :
    Except PartitionError Nat :=
  if partitions = 0 then .error .zeroPartitions
  else
    let tag := (World.hmac epochBeacon (nodeId ++ "|" ++ objectiveId)).toList
    let draw := (tag.take 8).foldl (fun draw byte => draw * 256 + byte.toNat) 0
    .ok (draw % partitions)

/-- One bit of the long multiplication of `mul_div_floor`. -/
def mulDivStep (remainder weight total : Nat) (state : Nat × Nat) (bit : Nat) :
    Option (Nat × Nat) := do
  let (quotient, residue) := state
  guard (quotient * 2 < 2 ^ 128)
  let (quotient, residue) :=
    if residue ≥ total - residue then (quotient * 2 + 1, residue - (total - residue))
    else (quotient * 2, residue * 2)
  guard (quotient < 2 ^ 128)
  let (quotient, residue) :=
    if weight.testBit bit then
      if residue ≥ total - remainder then (quotient + 1, residue - (total - remainder))
      else (quotient, residue + remainder)
    else (quotient, residue)
  guard (quotient < 2 ^ 128)
  return (quotient, residue)

/-- `mul_div_floor`: `value * weight / total` without a wide product. -/
def mulDivFloor (value weight total : Nat) : Option Nat :=
  if total = 0 then some 0
  else if weight > total then none
  else do
    let whole := value / total * weight
    guard (whole < 2 ^ 128)
    let (quotient, _) ←
      (List.range 128).reverse.foldlM (mulDivStep (value % total) weight total) (0, 0)
    guard (whole + quotient < 2 ^ 128)
    return whole + quotient

namespace Log

variable [World]

/-! ## Peers -/

/-- One step of the fold over peer records: a higher sequence supersedes. -/
def peerStep (out : BTreeMap String PeerRecord) (record : PeerRecord) :
    BTreeMap String PeerRecord :=
  match out.get? record.identity with
  | some held => if held.seq > record.seq then out else out.insert record.identity record
  | none => out.insert record.identity record

def peersWithin (log : List Entry) (positions : Nat) : BTreeMap String PeerRecord :=
  (((decoded .peer PeerRecord.fromValue (log.take positions)).map Prod.snd).filter fun record =>
    (toOk record.verifySignature).isSome).foldl peerStep .empty

/-- The position just after the last entry of an earlier epoch. -/
def epochBoundary (log : List Entry) (epoch : UInt64) (positions : Nat) : Nat :=
  ((log.take positions).zipIdx.foldl (fun boundary p =>
    match epochAt EPOCH_SECONDS p.1.ts with
    | some at_ => if at_ < epoch then p.2 + 1 else boundary
    | none => boundary) 0)

/-! ## Committees -/

def commitments (log : List Entry) : List (Entry × Commitment) :=
  decoded .commitment Commitment.fromValue log

/-- What the sealed commitments of an epoch put at stake. -/
def sealedValueIn (log : List Entry) (epoch : UInt64) (positions : Nat) : Nat :=
  ((commitments (within log positions)).filterMap fun p =>
    if p.2.envelope.isSome ∧ epochOfTs p.2.createdAt = some epoch then
      ((objectives log).get? p.2.objectiveId).map fun objective => objective.reward.toNat
    else none).sum

def rankedPeers (log : List Entry) (epoch : UInt64) (positions : Nat) :
    List (String × PeerRecord) :=
  let anchor := anchorAt log epoch positions EPOCH_SECONDS
  ((peersWithin log positions).values.map fun peer =>
    (settlementRank epoch anchor peer.transport, peer)).insertionSort fun a b =>
      a.1 < b.1 ∨ (a.1 = b.1 ∧ a.2.transport ≤ b.2.transport)

def committeeOfSize (log : List Entry) (epoch : UInt64) (size : UInt8) (positions : Nat) :
    Except RuleViolation (List CommitteeSeat) :=
  let ranked := rankedPeers log epoch positions
  if ranked.length < size.toNat then
    .error (.committeeTooSmall epoch ranked.length size.toNat)
  else
    .ok ((ranked.take size.toNat).zipIdx.map fun p =>
      { seat := UInt8.ofNat (p.2 + 1), transport := p.1.2.transport, identity := p.1.2.identity,
        addr := p.1.2.addr })

/-- What the cheapest majority of a committee stands to lose, halved. -/
def custodyGuard (log : List Entry) (epoch : UInt64) (size : UInt8) (positions : Nat) : Nat :=
  match committeeOfSize log epoch size positions with
  | .error _ => 0
  | .ok seats =>
    let boundary := epochBoundary log epoch positions
    let stakes := (seats.map fun seat =>
      spendableWithin log seat.identity boundary).insertionSort (· ≤ ·)
    (stakes.take (thresholdFor size).toNat).sum / 2

/-- The loop of `committee_size_at`: the first size whose guard covers what is
carried, or the ceiling. -/
def growCommittee (log : List Entry) (epoch : UInt64) (positions carried : Nat) :
    Nat → UInt8 → UInt8
  | 0, size => size
  | fuel + 1, size =>
    if custodyGuard log epoch size positions ≥ carried then size
    else growCommittee log epoch positions carried fuel (size + 1)

def committeeSizeAt (log : List Entry) (epoch : UInt64) (positions : Nat) : UInt8 :=
  let boundary := epochBoundary log epoch positions
  let peers := (peersWithin log boundary).entries.length
  if peers ≤ COMMITTEE_SIZE.toNat then COMMITTEE_SIZE
  else
    let carried := sealedValueIn log (UInt64.ofNat (epoch.toNat - 1)) boundary
    if carried = 0 then COMMITTEE_SIZE
    else
      let ceiling := min MAX_COMMITTEE_SIZE.toNat (min peers 255)
      growCommittee log epoch positions carried (ceiling - COMMITTEE_SIZE.toNat) COMMITTEE_SIZE

def committeeFor (log : List Entry) (epoch : UInt64) (positions : Nat) :
    Except RuleViolation (List CommitteeSeat) :=
  committeeOfSize log epoch (committeeSizeAt log epoch positions) positions

/-- The first commitment with this id, and where it stands. -/
def commitmentEntry (log : List Entry) (commitmentId : String) :
    Except RuleViolation (Nat × Commitment) :=
  okOr (.unknownCommitment commitmentId)
    (((commitments log).find? fun p => p.2.id = commitmentId).map fun p => (p.1.seq.toNat, p.2))

def checkCommitteeShare (log : List Entry) (record : CommitteeShare) (positions : Nat) :
    Except RuleViolation Unit := do
  let (at_, commitment) ← commitmentEntry log record.commitment
  if commitment.envelope.isNone then .error (.commitmentNotSealed record.commitment)
  else if positions ≤ at_ then .error (.shareBeforeCommitment record.commitment)
  else
    let commitEpoch ← epochOfTimestamp "commitment" commitment.createdAt
    let shareEpoch ← epochOfTimestamp "committee_share" record.createdAt
    let embargo := (((objectives log).get? commitment.objectiveId).map Objective.embargo).getD 0
    let opensAt := satAdd commitEpoch embargo
    if shareEpoch.toNat ≤ opensAt then .error (.shareBeforeEpoch opensAt shareEpoch)
    else
      let committee ← committeeFor log commitEpoch at_
      let seat ← okOr (.unknownSeat record.commitment record.seat)
        (committee.find? fun seat => seat.seat = record.seat)
      if seat.identity ≠ record.identity then
        .error (.seatImpostor record.commitment record.seat record.identity)
      else .ok ()

/-- Keep the first share of every seat. -/
def firstSeats : List UInt8 → List CommitteeShare → List CommitteeShare
  | _, [] => []
  | seen, record :: rest =>
    if record.seat ∈ seen then firstSeats seen rest
    else record :: firstSeats (record.seat :: seen) rest

def committeeSharesFor (log : List Entry) (commitmentId : String) : List CommitteeShare :=
  firstSeats [] (((decoded .committeeShare CommitteeShare.fromValue log).filter fun p =>
    p.2.commitment = commitmentId && (toOk p.2.validate).isSome &&
      (toOk p.2.verifySignature).isSome &&
      (toOk (checkCommitteeShare log p.2 p.1.seq.toNat)).isSome).map Prod.snd)

/-! ## Undertakings and their answers -/

/-- The root of the first `height` entries, if the log is that long. -/
def rootAt (log : List Entry) (height : Nat) : Option String :=
  if log.length < height then none else merkleRoot ((log.take height).map Entry.hash)

def undertakingsWithin (log : List Entry) (positions : Nat) : List Undertaking :=
  ((decoded .undertaking Undertaking.fromValue (within log positions)).filter fun p =>
    p.2.height = p.1.seq && (toOk p.2.verifySignature).isSome &&
      p.2.bond.toNat ≤ spendableWithin log p.2.identity p.1.seq.toNat &&
      rootAt log p.2.height.toNat = some p.2.root).map Prod.snd

/-- The entry an undertaking has to produce in an epoch. -/
def sampledIndex (log : List Entry) (undertaking : Undertaking) (epoch : UInt64)
    (positions : Nat) : Except PartitionError Nat :=
  if undertaking.height.toNat ≥ 2 ^ 32 then .error .unrepresentable
  else
    assign undertaking.identity undertaking.id
      (beacon epoch (anchorAt log epoch positions EPOCH_SECONDS)) undertaking.height.toNat

def checkAvailability (log : List Entry) (record : Availability) (positions : Nat) :
    Except RuleViolation Unit := do
  let undertaking ← okOr (.unknownUndertaking record.undertaking)
    ((undertakingsWithin log positions).find? fun u => u.id = record.undertaking)
  if undertaking.identity ≠ record.identity then
    .error (.availabilityImpostor record.undertaking record.identity)
  else
    let index ← (sampledIndex log undertaking record.epoch positions).mapError
      (.unsamplable record.undertaking)
    let entry ← (Entry.parse record.entry "entry").mapError fun _ =>
      .availabilityDoesNotCheck record.undertaking record.epoch index
    let proof : Proof :=
      { entry, inclusion := { index, leaves := undertaking.height.toNat, siblings := record.path } }
    (proof.check undertaking.root).mapError fun _ =>
      .availabilityDoesNotCheck record.undertaking record.epoch index

/-- Keep the first answer of every undertaking and epoch. -/
def firstAnswers : List (String × UInt64) → List Availability → List Availability
  | _, [] => []
  | seen, record :: rest =>
    if (record.undertaking, record.epoch) ∈ seen then firstAnswers seen rest
    else record :: firstAnswers ((record.undertaking, record.epoch) :: seen) rest

def availabilityAnswersWithin (log : List Entry) (positions : Nat) : List Availability :=
  firstAnswers [] (((decoded .availability Availability.fromValue (within log positions)).filter
    fun p => (toOk p.2.verifySignature).isSome &&
      (toOk (checkAvailability log p.2 p.1.seq.toNat)).isSome).map Prod.snd)

/-! ## Availability settlement -/

structure AvailabilityOutcome where
  epoch : UInt64
  answered : Nat
  silent : Nat
  paid : Nat
  unpaid : Nat

/-- A sum that has to fit `u128`. -/
def checkedU128 (n : Nat) : Except RuleViolation Nat :=
  if n < 2 ^ 128 then .ok n else .error .availabilityArithmeticOverflow

/-- A natural number as an `i128` value. -/
def checkedInt (n : Nat) : Except RuleViolation Value :=
  (okOr .availabilityArithmeticOverflow (I128.ofInt? n)).map .int

/-- The shares of an offer, by weight. -/
def awards (offered total : Nat) : List (String × Nat) →
    Except RuleViolation (List (String × UInt64 × Nat))
  | [] => .ok []
  | (identity, weight) :: rest => do
      let share ← okOr .availabilityArithmeticOverflow (mulDivFloor offered weight total)
      let share ← okOr .availabilityArithmeticOverflow (tryUInt64 share)
      let tail ← awards offered total rest
      return (identity, share, weight) :: tail

/-- The rows a settlement records for its awards. -/
def awardRows : List (String × UInt64 × Nat) → Except RuleViolation (List Value)
  | [] => .ok []
  | (identity, reward, weight) :: rest => do
      let weight ← checkedInt weight
      let tail ← awardRows rest
      return .object [("identity", .string identity), ("reward", u64Value reward),
        ("weight", weight)] :: tail

/-- Where the entries of an epoch begin. -/
def availabilityBoundary (log : List Entry) (epoch : UInt64) (positions : Nat) : Nat :=
  (log.take positions).findIdx fun e =>
    match epochAt EPOCH_SECONDS e.ts with
    | some at_ => at_ ≥ epoch
    | none => true

def availabilitySettlementAt (log : List Entry) (epoch : UInt64) (positions : Nat) :
    Except RuleViolation (Option (Value × AvailabilityOutcome)) := do
  let boundary := availabilityBoundary log epoch positions
  let promises := undertakingsWithin log boundary
  let answered := BTreeMap.ofList (((availabilityAnswersWithin log positions).filter fun answer =>
    answer.epoch = epoch).map fun answer => (answer.undertaking, answer.identity))
  let weight := BTreeMap.tally (promises.filterMap fun promise =>
    (answered.get? promise.id).map fun identity => (identity, promise.bond.toNat))
  let silent := (promises.filter fun promise => (answered.get? promise.id).isNone).map
    Undertaking.id
  if promises = [] then return none
  let offered ← checkedU128 (availabilityOfferedWithin log epoch boundary)
  let total ← checkedU128 weight.total
  let shares ← awards offered total weight.entries
  let spent ← checkedU128 ((shares.map fun row => row.2.1.toNat).sum)
  let unpaid ← if spent ≤ offered then pure (offered - spent)
    else .error .availabilityArithmeticOverflow
  let rows ← awardRows shares
  let unpaidValue ← checkedInt unpaid
  let record := Value.object [("epoch", u64Value epoch),
    ("anchor", .string (anchorOfEpochWithin log epoch positions (some epoch))),
    ("paid", .array rows), ("silent", .array (silent.map .string)), ("unpaid", unpaidValue)]
  return some (record,
    { epoch, answered := shares.length, silent := silent.length, paid := spent, unpaid })

end Log

end Cairn.Ports
