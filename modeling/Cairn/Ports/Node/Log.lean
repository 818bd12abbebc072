import Cairn.Ports.Challenge
import Cairn.Ports.Checkpoint
import Cairn.Ports.Epoch
import Cairn.Ports.Ledger.File
import Cairn.Ports.Piecework
import Cairn.Ports.Records.Objective
import Cairn.Verified.Tally
import Mathlib.Data.List.Dedup
import Mathlib.Data.List.Sort

/-!
# What a node reads from its log

The queries of `src/node.rs` that settlement rests on: objectives, claims,
verdicts, batches, beacons, settlements and frontiers. A node keeps no other
state than its log and an index it can rebuild, so each query is a function of
the list of entries.
-/

namespace Cairn.Ports

open Cairn.Verified
open Cairn.Ports.Canonical

/-- The kinds of entries a node writes. -/
inductive EntryKind where
  | objective
  | commitment
  | claim
  | verdict
  | settlement
  | frontier
  | batch
  | beacon
  | peer
  | undertaking
  | availability
  | availabilityPool
  | availabilitySettlement
  | committeeShare
  | issuance
  | challenge
  | bisection
  | challengeSettlement
  | attestation
  | verificationSlash
deriving DecidableEq

def EntryKind.asStr : EntryKind → String
  | .objective => "objective"
  | .commitment => "commitment"
  | .claim => "claim"
  | .verdict => "verdict"
  | .settlement => "settlement"
  | .frontier => "frontier"
  | .batch => "batch"
  | .beacon => "beacon"
  | .peer => "peer"
  | .undertaking => "undertaking"
  | .availability => "availability"
  | .availabilityPool => "availability_pool"
  | .availabilitySettlement => "availability_settlement"
  | .committeeShare => "committee_share"
  | .issuance => "issuance"
  | .challenge => "challenge"
  | .bisection => "bisection"
  | .challengeSettlement => "challenge_settlement"
  | .attestation => "attestation"
  | .verificationSlash => "verification_slash"

/-- The kind with this name. -/
def EntryKind.ofStr (text : String) : Option EntryKind :=
  [objective, commitment, claim, verdict, settlement, frontier, batch, beacon, peer, undertaking,
    availability, availabilityPool, availabilitySettlement, committeeShare, issuance, challenge,
    bisection, challengeSettlement, attestation, verificationSlash].find? fun k => k.asStr = text

theorem EntryKind.ofStr_asStr (k : EntryKind) : EntryKind.ofStr k.asStr = some k := by
  cases k <;> rfl

@[simp] theorem EntryKind.asStr_inj {k k' : EntryKind} : k.asStr = k'.asStr ↔ k = k' := by
  constructor
  · intro h
    have hread := congrArg EntryKind.ofStr h
    rw [EntryKind.ofStr_asStr, EntryKind.ofStr_asStr] at hread
    exact Option.some.inj hread
  · exact congrArg EntryKind.asStr

/-- Why the drand check refuses a value. -/
inductive VerifyError where
  | notSignatureShaped
  | notACurvePoint
  | doesNotVerify
  | pinnedKeyUnusable
deriving DecidableEq

/-- What the node takes from outside the model: SHA-256, the process
environment, signatures, sealed envelopes, HMAC-SHA-256, the checks of the two
kinds of beacon, and which characters `{:?}` prints as they are. -/
class World extends Sha256, Clock, Signatures, Envelopes where
  hmac : (key message : String) → Vector UInt8 32
  vdfVerify : (seed : List UInt8) → (difficulty : UInt64) → (output witness : List UInt8) → Bool
  drandVerify : (round : UInt64) → (signature : String) → Except VerifyError Unit
  printable : Char → Bool

inductive Referrer where
  | commitment
  | claim
deriving DecidableEq

inductive PartitionError where
  | zeroPartitions
  | unrepresentable
deriving DecidableEq

/-- Why the node refuses an operation. -/
inductive RuleViolation where
  | unfundedInTier (funder : String) (tier : Tier) (reward spendable : Nat)
  | sealedValueExceedsCustody (epoch : UInt64) (exposure guarded : Nat) (seats : UInt8)
  | duplicateAttestation (claimId attestor : String)
  | unknownAttestation (attestationId : String)
  | slashUnavailable (attestationId detail : String)
  | attestationWindowShut (attestationId : String) (opened now : UInt64)
  | attestationStands (attestationId status : String)
  | unknownClaim (claimId : String)
  | unknownChallenge (challengeId : String)
  | challengeOfUnacceptedClaim (claimId : String)
  | objectiveNotBisectable (objectiveId : String)
  | noTraceCommitment (claimId : String)
  | traceLengthMismatch (claimed challenged : UInt64)
  | challengeAgrees (claimId : String)
  | challengeWindowClosed (claimId : String) (closedAt : Nat) (openedAt : UInt64)
  | duplicateChallenge (claimId challenger : String)
  | notAParty (challengeId mover : String)
  | challengeDecided (challengeId : String)
  | moveNotUnderRoot (challengeId : String) (index : UInt64)
  | moveOutOfTurn (challengeId : String) (index : UInt64)
  | challengeStillOpen (challengeId : String)
  | adjudicationUnavailable (challengeId detail : String)
  | unknownVerifierKind (kind : String)
  | duplicateObjective (objectiveId : String)
  | ratchetNeedsEvaluator (kind : String)
  | ratchetRewardMismatch (ratchet objective : UInt64)
  | unknownObjective (referrer : Referrer) (objectiveId : String)
  | alreadySettled (objectiveId : String)
  | noMatchingCommitment
  | unknownCitation (claimId : String)
  | unknownRelationTarget (claimId : String)
  | missingFrontierCitation (claimId : String)
  | payoutOverflow (paidCumulative reward : UInt64)
  | availabilityArithmeticOverflow
  | malformedRatchet (error : RatchetError)
  | malformedPiecework (error : PieceworkError)
  | pieceworkPriceExceedsPool (unitPrice pool : UInt64)
  | malformedFrontier (error : RatchetError)
  | malformedTimestamp (record value : String)
  | commitmentEpochMismatch (declared admitted : UInt64)
  | claimEpochMismatch (declared admitted : UInt64)
  | recordEpochMismatch (record : String) (declared admitted : UInt64)
  | unsignedIdentity (error : SignatureError)
  | stalePeerRecord (identity : String) (seq held : UInt64)
  | sampleAlreadyAnswered (undertaking : String) (epoch : UInt64)
  | unknownUndertaking (undertaking : String)
  | availabilityImpostor (undertaking answeredBy : String)
  | unsamplable (undertaking : String) (source : PartitionError)
  | availabilityDoesNotCheck (undertaking : String) (epoch : UInt64) (index : Nat)
  | unfundedBond (identity : String) (bond : UInt64) (spendable : Nat)
  | unfundedReward (funder : String) (reward spendable : Nat)
  | mintedAfterGenesis (holder : String) (units : UInt64) (seq : Nat)
  | beaconDoesNotVerify (epoch : UInt64)
  | partialUndertaking (promised : UInt64) (log : Nat)
  | unknownUndertakingRoot (root : String) (height : UInt64)
  | beaconOutOfEpoch (orders drawnIn : UInt64)
  | duplicateBeacon (epoch : UInt64)
  | beaconRoundMismatch (orders block expected : UInt64)
  | beaconSignatureInvalid (orders round : UInt64) (why : VerifyError)
  | inadmissibleRecord (error : RecordError)
  | signedSubmitterRequired (objectiveId submitter : String)
  | epochAlreadySettled (epoch : UInt64)
  | revealBeforeEpoch (commitEpoch revealEpoch : UInt64)
  | unknownCommitment (commitment : String)
  | commitmentNotSealed (commitment : String)
  | committeeTooSmall (epoch : UInt64) (have_ need : Nat)
  | shareBeforeEpoch (commitEpoch : Nat) (shareEpoch : UInt64)
  | shareBeforeCommitment (commitment : String)
  | unknownSeat (commitment : String) (seat : UInt8)
  | seatImpostor (commitment : String) (seat : UInt8) (publishedBy : String)
  | seatAlreadyPublished (commitment : String) (seat : UInt8)
  | notEnoughShares (commitment : String) (have_ need : Nat)
  | wrongCommitteeShape (threshold : UInt8) (seats : Nat) (wantThreshold : UInt8)
      (wantSeats : Nat)
  | sealedOpenFailed (commitment : String) (tried : Nat)

/-- `u64::saturating_add`, as a number. -/
def satAdd (a b : UInt64) : Nat := min (a.toNat + b.toNat) (UInt64.size - 1)

def payloadStr (payload : Value) (key : String) : Option String :=
  (payload.get key).bind Value.asStr

def payloadU64 (payload : Value) (key : String) : Option UInt64 :=
  (payload.get key).bind Value.asU64

/-- The epoch a timestamp falls in under an epoch length. -/
def epochAt (epochSeconds : UInt64) (ts : String) : Option UInt64 :=
  match parseRfc3339 ts with
  | some seconds =>
    if 0 ≤ seconds then some (epochOf (UInt64.ofNat seconds.toNat) epochSeconds) else none
  | none => none

/-- `partition::EPOCH_SECONDS`. -/
def EPOCH_SECONDS : UInt64 := 600

section Time

variable [Clock]

/-- The epoch of a timestamp under the process's epoch length. -/
def epochOfTs (ts : String) : Option UInt64 := epochAt Clock.epochSeconds ts

def epochOfTimestamp (record ts : String) : Except RuleViolation UInt64 :=
  okOr (.malformedTimestamp record ts) (epochOfTs ts)

/-- A record declares the epoch it is admitted in. -/
def ensureRecordAdmissionEpoch (record declaredTs admittedTs : String) :
    Except RuleViolation UInt64 := do
  let declared ← epochOfTimestamp record declaredTs
  let admitted ← epochOfTimestamp "ledger admission" admittedTs
  if declared ≠ admitted then .error (.recordEpochMismatch record declared admitted)
  else .ok admitted

end Time

namespace Log

def ofKind (log : List Entry) (kind : EntryKind) : List Entry :=
  log.filter fun e => e.kind = kind.asStr

/-- The entries numbered below a position. -/
def within (log : List Entry) (positions : Nat) : List Entry :=
  log.filter fun e => e.seq.toNat < positions

/-- The entries of a kind that decode, with what they decode to. -/
def decoded {α ε : Type} (kind : EntryKind) (decode : Value → Except ε α) (log : List Entry) :
    List (Entry × α) :=
  (ofKind log kind).filterMap fun e => (toOk (decode e.payload)).map fun a => (e, a)

def drainedEpochs (log : List Entry) : List UInt64 :=
  (ofKind log .batch).filterMap fun e => payloadU64 e.payload "epoch"

def epochIsDrained (log : List Entry) (epoch : UInt64) : Bool := epoch ∈ drainedEpochs log

/-- `settlement_of`: the first settlement recorded for an objective. -/
def settlementOf (log : List Entry) (objectiveId : String) : Option Value :=
  ((ofKind log .settlement).find? fun e => payloadStr e.payload "objective_id" = some objectiveId).map
    Entry.payload

/-- What the settlements of an objective add up to. -/
def paidTotal (log : List Entry) (objectiveId : String) : Nat :=
  (((ofKind log .settlement).filter fun e =>
    payloadStr e.payload "objective_id" = some objectiveId).map fun e =>
      ((payloadU64 e.payload "reward").getD 0).toNat).sum

/-- `latest_frontier`; its error is reported as `malformedFrontier`. -/
def latestFrontier (log : List Entry) (objectiveId : String) :
    Except RatchetError (Option FrontierEntry) :=
  match ((ofKind log .frontier).filter fun e =>
    payloadStr e.payload "objective_id" = some objectiveId).getLast? with
  | none => .ok none
  | some e => (FrontierEntry.fromValue e.payload).map some

/-- A verdict entry records an acceptance. -/
def isAccept (e : Entry) : Bool :=
  match (e.payload.get "verdict").bind Verdict.fromValue with
  | some verdict => verdict.accepted
  | none => false

/-- One step of the fold over verdicts: the last one about a claim counts. -/
def acceptStep (accepted : List String) (e : Entry) : List String :=
  match payloadStr e.payload "claim_id" with
  | none => accepted
  | some claimId =>
    if isAccept e then accepted.insert claimId else accepted.filter fun id => id ≠ claimId

def acceptedClaimIds (log : List Entry) : List String :=
  (ofKind log .verdict).foldl acceptStep []

/-- The last verdict recorded for a claim. -/
def recordedVerdict (log : List Entry) (claimId : String) : Option Verdict :=
  ((ofKind log .verdict).filter fun e =>
    payloadStr e.payload "claim_id" = some claimId).getLast?.bind fun e =>
      (e.payload.get "verdict").bind Verdict.fromValue

/-- `max` over the epochs of the batches, zero without any. -/
def settledEpochWithin (log : List Entry) (positions : Nat) : UInt64 :=
  (((ofKind (within log positions) .batch).filterMap fun e =>
    (e.payload.get "epoch").bind Value.asI128).filterMap fun i =>
      if 0 ≤ i.val then some (UInt64.ofNat i.val.toNat) else none).foldl
    (fun a b => if a < b then b else a) 0

section Claims

variable [Sha256]

def objectives (log : List Entry) : BTreeMap String Objective :=
  BTreeMap.ofList ((decoded .objective Objective.fromValue log).map fun p => (p.2.id, p.2))

/-- `is_posted`: an entry has this digest, or decodes to an objective that
does. -/
def isPosted (log : List Entry) (objectiveId : String) : Bool :=
  (ofKind log .objective).any fun e =>
    e.payload.digest = objectiveId ||
      match Objective.fromValue e.payload with
      | .ok existing => existing.id = objectiveId
      | .error _ => false

/-- Every claim of the log that decodes, with its entry. -/
def claims (log : List Entry) : List (Entry × Claim) := decoded .claim Claim.fromValue log

def claimIds (log : List Entry) : List String := (claims log).map fun p => p.2.id

/-- The entry of the first claim with this id. -/
def claimEntry (log : List Entry) (claimId : String) : Option Entry :=
  ((claims log).find? fun p => p.2.id = claimId).map Prod.fst

/-- The first claim with this id. -/
def claimOf (log : List Entry) (claimId : String) : Option Claim :=
  ((claims log).find? fun p => p.2.id = claimId).map Prod.snd

/-- `accepted_claims` as a set of ids: accepted, and decodable. -/
def isAcceptedClaim (log : List Entry) (claimId : String) : Bool :=
  claimId ∈ claimIds log && claimId ∈ acceptedClaimIds log

/-- The first entry of every accepted claim. `seen` is what the loop has met. -/
def firstAccepted (accepted : List String) : List String → List (Entry × Claim) →
    List (Entry × Claim)
  | _, [] => []
  | seen, (e, claim) :: rest =>
    if claim.id ∉ accepted ∨ claim.id ∈ seen then firstAccepted accepted seen rest
    else (e, claim) :: firstAccepted accepted (claim.id :: seen) rest

/-- The hash a claim opens, as the log records it. -/
def matchingCommitmentEntry (log : List Entry) (claim : Claim) : Option Entry :=
  (ofKind log .commitment).find? fun e =>
    payloadStr e.payload "objective_id" = some claim.objectiveId &&
    payloadStr e.payload "submitter" = some claim.submitter &&
    payloadStr e.payload "hash" = some claim.commitmentHash

/-- The objectives that share a piecework job. -/
def pieceworkScope (log : List Entry) (objective : Objective) : List String :=
  ((objectives log).entries.filter fun p =>
    p.2.piecework.isSome && p.2.piecework = objective.piecework &&
      p.2.verifier = objective.verifier).map Prod.fst

/-- The unit keys of a claim, if its objective is piecework. -/
def unitKeysFor (log : List Entry) (claim : Claim) : Option (List String) := do
  let objective ← (objectives log).get? claim.objectiveId
  let block ← objective.piecework
  let piecework ← toOk (Piecework.fromValue block)
  return piecework.unitKeys claim.artifact

/-- The last entry hash of an earlier epoch. -/
def anchorAt (log : List Entry) (epoch : UInt64) (positions : Nat) (secondsPerEpoch : UInt64) :
    String :=
  (((log.take positions).filter fun e =>
    match epochAt secondsPerEpoch e.ts with
    | some at_ => at_ < epoch
    | none => false).getLast?.map Entry.hash).getD ""

end Claims

section Epochs

variable [Sha256] [Clock]

/-- The accepted claims, each with the epoch of its first entry. -/
def acceptedClaimsByEpoch (log : List Entry) : List (UInt64 × Claim) :=
  (firstAccepted (acceptedClaimIds log) [] (claims log)).filterMap fun p =>
    (epochOfTs p.1.ts).map fun epoch => (epoch, p.2)

/-- `accepted_in_epoch`. -/
def acceptedInEpoch (log : List Entry) (epoch : UInt64) : List Claim :=
  ((acceptedClaimsByEpoch log).filter fun p => p.1 = epoch).map Prod.snd

/-- `accepted_in_epoch_within`: claims and verdicts are both bounded. -/
def acceptedInEpochWithin (log : List Entry) (epoch : UInt64) (positions : Nat) : List Claim :=
  acceptedInEpoch (log.take positions) epoch

/-- The epochs a drain settles, in increasing order. -/
def dueEpochs (log : List Entry) (nowEpoch : UInt64) : List UInt64 :=
  let drained := drainedEpochs log
  let due := ((acceptedClaimsByEpoch log).map Prod.fst).filter fun epoch =>
    epoch ∉ drained && satAdd epoch Clock.finalityEpochs < nowEpoch.toNat &&
      drained.all fun settled => settled < epoch
  due.dedup.insertionSort (· ≤ ·)

/-- `artifact_ids_before`: the artifacts of an objective's claims of earlier
epochs. -/
def artifactIdsBefore (log : List Entry) (objectiveId : String) (epoch : UInt64) : List String :=
  ((claims log).filter fun p =>
    (match epochOfTs p.1.ts with
      | some at_ => at_ < epoch
      | none => false) && p.2.objectiveId = objectiveId).map fun p => p.2.artifactId

/-! ## Beacons and anchors -/

/-- `epoch_beacon_within`: the first beacon drawn in the epoch it orders. -/
def epochBeaconWithin (log : List Entry) (epoch : UInt64) (positions : Nat) : Option String :=
  (((ofKind (within log positions) .beacon).filter fun e =>
    payloadU64 e.payload "orders" = some epoch).filter fun e =>
      epochOfTs e.ts = some epoch).findSome? fun e => payloadStr e.payload "value"

structure EpochLink where
  epoch : UInt64
  claims : List String
  previous : String
  link : String

/-- The claims a batch lists, sorted. -/
def batchClaims (payload : Value) : List String :=
  (((payload.get "claims").bind Value.asArray).getD []).filterMap Value.asStr |>.insertionSort
    (· ≤ ·)

/-- The next link of the chain of batches. -/
def nextLink (head : String) (epoch : UInt64) (sorted : List String) : String :=
  (Value.object [("prev", .string head), ("epoch", u64Value epoch),
    ("claims", .array (sorted.map .string))]).digest

/-- The chain of batches, stopping at the batch of an epoch. -/
def linksFrom (stopAt : Option UInt64) : String → List Entry → List EpochLink
  | _, [] => []
  | head, e :: rest =>
    if e.kind ≠ EntryKind.batch.asStr then linksFrom stopAt head rest
    else
      match payloadU64 e.payload "epoch" with
      | none => linksFrom stopAt head rest
      | some epoch =>
        if stopAt = some epoch then []
        else
          let claims := batchClaims e.payload
          let link := nextLink head epoch claims
          { epoch, claims, previous := head, link } :: linksFrom stopAt link rest

def epochLinksBefore (log : List Entry) (positions : Nat) (stopAt : Option UInt64) :
    List EpochLink :=
  linksFrom stopAt "" (log.take positions)

def epochChainHeadBefore (log : List Entry) (positions : Nat) (stopAt : Option UInt64) : String :=
  (((epochLinksBefore log positions stopAt).getLast?).map EpochLink.link).getD ""

/-- The beacon of an epoch if one was drawn in time, else the head of the
chain of batches. -/
def anchorOfEpochWithin (log : List Entry) (epoch : UInt64) (positions : Nat)
    (stopAt : Option UInt64) : String :=
  match epochBeaconWithin log epoch positions with
  | some value => value
  | none => epochChainHeadBefore log positions stopAt

def anchorOfEpoch (log : List Entry) (epoch : UInt64) : String :=
  anchorOfEpochWithin log epoch log.length (some epoch)

/-- Where a claim falls in the order of its batch. -/
def settlesBefore (epoch : UInt64) (anchor : String) (a b : Claim) : Prop :=
  settlementRank epoch anchor a.commitmentHash < settlementRank epoch anchor b.commitmentHash ∨
    (settlementRank epoch anchor a.commitmentHash =
        settlementRank epoch anchor b.commitmentHash ∧ a.id ≤ b.id)

instance (epoch : UInt64) (anchor : String) : DecidableRel (settlesBefore epoch anchor) :=
  fun _ _ => inferInstanceAs (Decidable (_ ∨ _))

/-- The accepted claims of an epoch in the order they settle in. -/
def batchOf (log : List Entry) (epoch : UInt64) : List Claim :=
  (acceptedInEpoch log epoch).insertionSort (settlesBefore epoch (anchorOfEpoch log epoch))

end Epochs

/-! ## Queries of an extended log -/

@[simp] theorem ofKind_append (xs ys : List Entry) (kind : EntryKind) :
    ofKind (xs ++ ys) kind = ofKind xs kind ++ ofKind ys kind := List.filter_append ..

variable {log : List Entry} {kind : EntryKind}

theorem ofKind_eq_nil (h : ∀ e ∈ log, e.kind ≠ kind.asStr) :
    ofKind log kind = [] := by
  simpa [ofKind] using h

theorem ofKind_of_kind {e : Entry} (h : e.kind = kind.asStr) :
    ofKind [e] kind = [e] := by
  simp [ofKind, h]

theorem mem_ofKind {e : Entry} :
    e ∈ ofKind log kind ↔ e ∈ log ∧ e.kind = kind.asStr := by
  simp [ofKind]

@[simp] theorem decoded_append {α ε : Type} (kind : EntryKind) (decode : Value → Except ε α)
    (xs ys : List Entry) :
    decoded kind decode (xs ++ ys) = decoded kind decode xs ++ decoded kind decode ys := by
  simp [decoded]

theorem mem_decoded {α ε : Type} {decode : Value → Except ε α}
    {p : Entry × α} :
    p ∈ decoded kind decode log ↔
      p.1 ∈ log ∧ p.1.kind = kind.asStr ∧ decode p.1.payload = .ok p.2 := by
  unfold decoded
  rw [List.mem_filterMap]
  constructor
  · rintro ⟨e, he, hp⟩
    rw [Option.map_eq_some_iff] at hp
    obtain ⟨a, ha, rfl⟩ := hp
    rw [mem_ofKind] at he
    exact ⟨he.1, he.2, toOk_eq_some ha⟩
  · rintro ⟨hmem, hkind, hdecode⟩
    exact ⟨p.1, mem_ofKind.mpr ⟨hmem, hkind⟩, by rw [hdecode]; rfl⟩

/-- A query over every position reads the whole log. -/
theorem within_of_le {positions : Nat}
    (h : ∀ e ∈ log, e.seq.toNat < positions) : within log positions = log := by
  simpa [within] using h

end Log

end Cairn.Ports
