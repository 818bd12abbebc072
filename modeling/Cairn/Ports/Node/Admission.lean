import Cairn.Ports.Node.Settle
import Cairn.Verified.Checks

/-!
# Admission

What the methods of `src/node.rs` check before they write to the log: one
chain of checks per kind of record, each a function of the log. `commit` and
`reveal` check twice, before they drain and after. What a verifier answers is
an argument, so a run may meet any verdicts.
-/

namespace Cairn.Ports

open Cairn.Verified
open Cairn.Ports.Canonical

namespace Log

section Checks

variable [World]

/-! ## Objectives -/

/-- The kind of a verifier for an error text. -/
def describeKind (verifier : Value) : String :=
  match verifier.get "kind" with
  | some kind =>
    match kind.asStr with
    | some text => quoted text
    | none => kind.canonicalString
  | none => "(absent)"

/-- The verifier's kind, if a registry has it. -/
def supportedKind (objective : Objective) : Except RuleViolation String :=
  match objective.verifierKind with
  | some kind =>
    if Registry.supports kind then .ok kind
    else .error (.unknownVerifierKind (describeKind objective.verifier))
  | none => .error (.unknownVerifierKind (describeKind objective.verifier))

/-- A ratchet pays an evaluator's scores out of the whole reward. -/
def checkRatchet (objective : Objective) (kind : String) : Except RuleViolation Unit :=
  match objective.ratchet with
  | none => .ok ()
  | some block => do
      let ratchet ← (Ratchet.fromValue block).mapError .malformedRatchet
      ensure (kind = Kind.evaluator.asStr) (.ratchetNeedsEvaluator kind)
      ensure (ratchet.reward = objective.reward)
        (.ratchetRewardMismatch ratchet.reward objective.reward)

/-- A unit costs no more than the pool. -/
def checkPiecework (objective : Objective) : Except RuleViolation Unit :=
  match objective.piecework with
  | none => .ok ()
  | some block => do
      let piecework ← (Piecework.fromValue block).mapError .malformedPiecework
      ensure (piecework.unitPrice ≤ objective.reward)
        (.pieceworkPriceExceedsPool piecework.unitPrice objective.reward)

/-- What `post_objective` checks. It does not call `Objective::validate`. -/
def checkObjective (log : List Entry) (objective : Objective) : Except RuleViolation Unit := do
  let kind ← supportedKind objective
  ensure (isPosted log objective.id = false) (.duplicateObjective objective.id)
  checkRatchet objective kind
  checkPiecework objective
  objective.verifyFundingSignature.mapError .unsignedIdentity
  ensure (declaresSupply log → (signedSubmitter objective.funder).isSome)
    (.unsignedIdentity (.invalid "objective funding" objective.funder))
  afford log objective.funder objective.reward.toNat
  affordIn log objective.funder objective.reward.toNat (tierOf objective)

/-! ## Stakes and pools -/

def checkPool (log : List Entry) (pool : AvailabilityPool) : Except RuleViolation Unit := do
  pool.validate.mapError .inadmissibleRecord
  afford log pool.funder pool.ceiling

/-- Only the records before everything else mint. -/
def checkIssuance (log : List Entry) (record : Issuance) : Except RuleViolation Unit := do
  record.validate.mapError .inadmissibleRecord
  ensure (genesisPrefix log = log.length)
    (.mintedAfterGenesis record.holder record.units log.length)

def checkPeer (log : List Entry) (record : PeerRecord) : Except RuleViolation Unit := do
  record.validate.mapError .inadmissibleRecord
  record.verifySignature.mapError .unsignedIdentity
  match (peersWithin log log.length).get? record.identity with
  | none => .ok ()
  | some held =>
    ensure (held.seq < record.seq) (.stalePeerRecord record.identity record.seq held.seq)

/-- An undertaking promises the whole log and stakes units on it, on every
log: the bond is not waived where no supply is declared. -/
def checkUndertaking (log : List Entry) (record : Undertaking) : Except RuleViolation Unit := do
  record.validate.mapError .inadmissibleRecord
  record.verifySignature.mapError .unsignedIdentity
  ensure (record.height.toNat = log.length) (.partialUndertaking record.height log.length)
  ensure (rootAt log record.height.toNat = some record.root)
    (.unknownUndertakingRoot record.root record.height)
  let spendable := spendableWithin log record.identity log.length
  ensure (record.bond.toNat ≤ spendable) (.unfundedBond record.identity record.bond spendable)

def checkAnswer (log : List Entry) (record : Availability) : Except RuleViolation Unit := do
  record.validate.mapError .inadmissibleRecord
  record.verifySignature.mapError .unsignedIdentity
  checkAvailability log record log.length
  ensure ((availabilityAnswersWithin log log.length).all fun held =>
      !(held.undertaking = record.undertaking && held.epoch = record.epoch))
    (.sampleAlreadyAnswered record.undertaking record.epoch)

def checkShare (log : List Entry) (record : CommitteeShare) (ts : String) :
    Except RuleViolation Unit := do
  record.validate.mapError .inadmissibleRecord
  record.verifySignature.mapError .unsignedIdentity
  let _ ← ensureRecordAdmissionEpoch "committee_share" record.createdAt ts
  checkCommitteeShare log record log.length
  ensure ((committeeSharesFor log record.commitment).all fun held => held.seat ≠ record.seat)
    (.seatAlreadyPublished record.commitment record.seat)

/-! ## Disputes -/

def checkChallenge (log : List Entry) (challenge : Challenge) (ts : String) :
    Except RuleViolation Unit := do
  challenge.validate.mapError .inadmissibleRecord
  challenge.verifySignature.mapError .unsignedIdentity
  let openedAt ← ensureRecordAdmissionEpoch "challenge" challenge.createdAt ts
  let (claim, objective) ← okOr (.unknownClaim challenge.claimId) (disputedClaim log challenge)
  ensure (challenge.claimId ∈ acceptedClaimIds log) (.challengeOfUnacceptedClaim challenge.claimId)
  ensure (Stepper.declared objective.verifier) (.objectiveNotBisectable claim.objectiveId)
  let (root, states) ← okOr (.noTraceCommitment challenge.claimId) (committedTrace claim)
  ensure (states = challenge.states) (.traceLengthMismatch states challenge.states)
  ensure (root ≠ challenge.root) (.challengeAgrees challenge.claimId)
  let entry ← okOr (.unknownClaim challenge.claimId) (claimEntry log challenge.claimId)
  let claimEpoch ← epochOfTimestamp "claim admission" entry.ts
  let closes := satAdd claimEpoch CHALLENGE_WINDOW_EPOCHS
  ensure (openedAt.toNat ≤ closes) (.challengeWindowClosed challenge.claimId closes openedAt)
  ensure ((challenges log).values.all fun existing =>
      !(existing.claimId = challenge.claimId && existing.challenger = challenge.challenger))
    (.duplicateChallenge challenge.claimId challenge.challenger)
  afford log challenge.challenger challenge.bond.toNat

/-- A move is one the dispute waits for. -/
def checkTurn (log : List Entry) (record : BisectionMove) (side : Side) (states : UInt64) :
    Except RuleViolation Unit :=
  let index := record.index.toNat
  let last := states.toNat - 1
  let outOfTurn := RuleViolation.moveOutOfTurn record.challengeId record.index
  match dispute log record.challengeId with
  | some (.awaitingEndpoints _ missing) => do
      ensure ((index, side) ∈ missing) outOfTurn
      ensure (index = 0 ∨ index = last) outOfTurn
  | some (.live _ dispute) =>
    match dispute.next with
    | .openAt asked waitingOn => ensure (index = asked ∧ side ∈ waitingOn) outOfTurn
    | _ => .error outOfTurn
  | _ => .error (.challengeDecided record.challengeId)

def checkBisection (log : List Entry) (record : BisectionMove) (ts : String) :
    Except RuleViolation Unit := do
  record.validate.mapError .inadmissibleRecord
  record.verifySignature.mapError .unsignedIdentity
  let _ ← ensureRecordAdmissionEpoch "bisection" record.createdAt ts
  let challenge ← okOr (.unknownChallenge record.challengeId)
    ((challenges log).get? record.challengeId)
  let side ← okOr (.notAParty record.challengeId record.mover) (sideOf log challenge record.mover)
  ensure ((challengeOutcome log record.challengeId).isNone) (.challengeDecided record.challengeId)
  let (claim, _) ← okOr (.unknownClaim challenge.claimId) (disputedClaim log challenge)
  let (defenderRoot, states) ← okOr (.noTraceCommitment challenge.claimId) (committedTrace claim)
  let root := match side with
    | .defender => defenderRoot
    | .challenger => challenge.root
  ensure ((moveOf record states).opens root) (.moveNotUnderRoot record.challengeId record.index)
  checkTurn log record side states

/-- Who wins a dispute that can be settled now, and why. -/
def decideChallenge (log : List Entry) (registry : Registry) (challengeId ts : String) :
    DisputeState → Except RuleViolation (Side × String)
  | .void _ why => .ok (.defender, "the challenge was never well founded: " ++ why.display)
  | .awaitingEndpoints _ missing => do
      let side ← (overdue log challengeId ts).bind (okOr (.challengeStillOpen challengeId))
      ensure (missing.any fun p => p.2 = side) (.challengeStillOpen challengeId)
      return (side.other, side.asStr ++ " did not open its endpoints in time")
  | .live challenge dispute =>
    match dispute.next with
    | .adjudicate _ => do
        let (_, objective) ← okOr (.unknownClaim challenge.claimId) (disputedClaim log challenge)
        let stepper ← (Stepper.fromSpec objective.verifier).mapError fun why =>
          .adjudicationUnavailable challengeId why.display
        let outcome ← (dispute.decideStep registry stepper).mapError fun why =>
          .adjudicationUnavailable challengeId why.display
        return (outcome.winner, outcome.display)
    | .openAt _ waitingOn => do
        let side ← (overdue log challengeId ts).bind (okOr (.challengeStillOpen challengeId))
        ensure (side ∈ waitingOn) (.challengeStillOpen challengeId)
        return (side.other, side.asStr ++ " stopped answering")
    | .done outcome => .ok (outcome.winner, outcome.display)

/-- The record of a decided dispute. -/
def challengeSettlementValue (challengeId claimId why loser winner : String) (units : UInt64)
    (side : Side) : Value :=
  .object [("challenge_id", .string challengeId), ("claim_id", .string claimId),
    ("detail", .string why), ("loser", .string loser), ("units", u64Value units),
    ("winner", .string winner), ("winning_side", .string side.asStr)]

/-- What a decided dispute moves: the challenger's bond, or of the submitter's
balance as much as the objective pays. -/
def challengeSettlement (log : List Entry) (registry : Registry) (challengeId ts : String) :
    Except RuleViolation Value := do
  let state ← okOr (.unknownChallenge challengeId) (dispute log challengeId)
  let challenge := state.challenge
  let (winner, why) ← decideChallenge log registry challengeId ts state
  let (claim, objective) ← okOr (.unknownClaim challenge.claimId) (disputedClaim log challenge)
  match winner with
  | .defender =>
    return challengeSettlementValue challengeId challenge.claimId why challenge.challenger
      claim.submitter challenge.bond .defender
  | .challenger =>
    let held := spendableWithin log claim.submitter log.length
    return challengeSettlementValue challengeId challenge.claimId why claim.submitter
      challenge.challenger (.ofNat (min held objective.reward.toNat)) .challenger

/-! ## Attestations -/

def checkAttestation (log : List Entry) (record : Attestation) (ts : String) :
    Except RuleViolation Unit := do
  record.validate.mapError .inadmissibleRecord
  record.verifySignature.mapError .unsignedIdentity
  let _ ← ensureRecordAdmissionEpoch "attestation" record.createdAt ts
  ensure (record.claimId ∈ claimIds log) (.unknownClaim record.claimId)
  ensure ((attestations log).values.all fun existing =>
      !(existing.claimId = record.claimId && existing.attestor = record.attestor))
    (.duplicateAttestation record.claimId record.attestor)
  afford log record.attestor VERIFICATION_BOND.toNat

/-- The recorded slash of an attestation. -/
def slashOf (log : List Entry) (attestationId : String) : Option Value :=
  ((ofKind log .verificationSlash).find? fun e =>
    payloadStr e.payload "attestation_id" = some attestationId).map Entry.payload

/-- A shut window is reported with the epoch it opened in. -/
def checkAttestationWindow (attestationId : String) (record : Attestation) (now : UInt64) :
    Except RuleViolation Unit :=
  if attestationWindowOpen record now then .ok ()
  else do
    let opened ← epochOfTimestamp "attestation" record.createdAt
    .error (.attestationWindowShut attestationId opened now)

/-- The record of a slash: the verifier disagrees with the attestation. -/
def attestationSlash (log : List Entry) (registry : Registry) (attestationId catcher : String) :
    Except RuleViolation Value := do
  let record ← okOr (.unknownAttestation attestationId) ((attestations log).get? attestationId)
  let claim ← okOr (.unknownClaim record.claimId) (claimOf log record.claimId)
  let objective ← okOr (.unknownObjective .claim claim.objectiveId)
    ((objectives log).get? claim.objectiveId)
  checkAttestationWindow attestationId record (settledEpochWithin log log.length)
  let truth := registry.run objective.verifier claim.artifact
  ensure truth.status.settles (.slashUnavailable attestationId truth.detail)
  ensure (truth.status.asStr ≠ record.status) (.attestationStands attestationId record.status)
  return .object [("attestation_id", .string attestationId), ("attestor", .string record.attestor),
    ("catcher", .string catcher), ("claim_id", .string record.claimId),
    ("detail", .string ("attested " ++ record.status ++ " where the verifier returns " ++
      truth.status.asStr ++ ": " ++ truth.detail)),
    ("units", u64Value VERIFICATION_BOND)]

/-! ## Commitments -/

/-- What `commit` checks before it drains: the epoch of the commitment. -/
def commitEpoch (commitment : Commitment) (ts : String) : Except RuleViolation UInt64 := do
  (validateCommitmentSubmitter commitment.submitter).mapError .inadmissibleRecord
  commitment.verifySignature.mapError .unsignedIdentity
  let declared ← epochOfTimestamp "commitment" commitment.createdAt
  let admitted ← epochOfTimestamp "commit" ts
  ensure (declared = admitted) (.commitmentEpochMismatch declared admitted)
  return admitted

/-- The value a sealed commitment puts at stake is covered by its committee. -/
def checkCustody (log : List Entry) (objective : Objective) (epoch : UInt64) (size : UInt8) :
    Except RuleViolation Unit :=
  let exposure := sealedValueIn log epoch log.length + objective.reward.toNat
  let guarded := custodyGuard log epoch size log.length
  ensure (declaresSupply log → exposure ≤ guarded)
    (.sealedValueExceedsCustody epoch exposure guarded size)

/-- A sealed commitment is sealed to the committee of its epoch. -/
def checkEnvelope (log : List Entry) (commitment : Commitment) (objective : Objective) :
    Except RuleViolation Unit :=
  match commitment.envelope with
  | none => .ok ()
  | some envelope => do
      let epoch ← epochOfTimestamp "commitment" commitment.createdAt
      let size := committeeSizeAt log epoch log.length
      let shares := Envelopes.shareIndices envelope
      let wrongShape := RuleViolation.wrongCommitteeShape (Envelopes.threshold envelope)
        shares.length (thresholdFor size) size.toNat
      ensure (shares.length = size.toNat ∧ Envelopes.threshold envelope = thresholdFor size)
        wrongShape
      ensure (shares.insertionSort (· ≤ ·) =
        (List.range size.toNat).map fun i => UInt8.ofNat (i + 1)) wrongShape
      let _ ← committeeFor log epoch log.length
      checkCustody log objective epoch size

/-- What `commit` checks once it has drained. -/
def checkCommit (log : List Entry) (commitment : Commitment) : Except RuleViolation Unit := do
  let objective ← okOr (.unknownObjective .commitment commitment.objectiveId)
    ((objectives log).get? commitment.objectiveId)
  ensure (objective.requireSignedSubmitter → (signedSubmitter commitment.submitter).isSome)
    (.signedSubmitterRequired commitment.objectiveId commitment.submitter)
  ensure (¬(objective.ratchet.isNone ∧ objective.piecework.isNone ∧
      (settlementOf log commitment.objectiveId).isSome))
    (.alreadySettled commitment.objectiveId)
  checkEnvelope log commitment objective

/-! ## Claims -/

/-- The commitment a claim opens is sealed. -/
def isSealed (entry : Option Entry) : Bool :=
  match entry.bind fun e => toOk (Commitment.fromValue e.payload) with
  | some commitment => commitment.envelope.isSome
  | none => false

/-- What `reveal` checks before it drains: the epoch of the claim. A sealed
commitment is opened by others, so its claim may name another epoch. -/
def revealEpoch (log : List Entry) (claim : Claim) (ts : String) :
    Except RuleViolation UInt64 := do
  (validateCommitmentSubmitter claim.submitter).mapError .inadmissibleRecord
  claim.verifySignature.mapError .unsignedIdentity
  let admitted ← epochOfTimestamp "reveal" ts
  let declared ← epochOfTimestamp "claim" claim.createdAt
  ensure (declared = admitted ∨ isSealed (matchingCommitmentEntry log claim))
    (.claimEpochMismatch declared admitted)
  return admitted

/-- Every id is known, or the first that is not is reported. -/
def checkKnown (known : String → Bool) (unknown : String → RuleViolation) (ids : List String) :
    Except RuleViolation Unit :=
  match ids.find? fun id => !known id with
  | some id => .error (unknown id)
  | none => .ok ()

/-- A claim on a ratchet cites the frontier it starts from. -/
def checkFrontierCitation (log : List Entry) (objective : Objective) (claim : Claim) :
    Except RuleViolation Unit :=
  if objective.ratchet.isNone then .ok ()
  else do
    match ← (latestFrontier log claim.objectiveId).mapError .malformedFrontier with
    | none => .ok ()
    | some frontier =>
      ensure (frontier.claimId ∈ claim.cites) (.missingFrontierCitation frontier.claimId)

/-- The commitment was admitted in the epoch it declares, before the reveal. -/
def checkOpens (commitment : Entry) (revealEpoch : UInt64) : Except RuleViolation Unit := do
  let declared ← epochOfTimestamp "commitment"
    ((payloadStr commitment.payload "created_at").getD "")
  let commitEpoch ← epochOfTimestamp "commitment admission" commitment.ts
  ensure (declared = commitEpoch) (.commitmentEpochMismatch declared commitEpoch)
  ensure (commitEpoch < revealEpoch) (.revealBeforeEpoch commitEpoch revealEpoch)

/-- What `reveal` checks once it has drained. -/
def checkReveal (log : List Entry) (claim : Claim) (revealEpoch : UInt64)
    (commitment : Option Entry) : Except RuleViolation Objective := do
  let objective ← okOr (.unknownObjective .claim claim.objectiveId)
    ((objectives log).get? claim.objectiveId)
  ensure (objective.requireSignedSubmitter → (signedSubmitter claim.submitter).isSome)
    (.signedSubmitterRequired claim.objectiveId claim.submitter)
  let entry ← okOr .noMatchingCommitment commitment
  checkOpens entry revealEpoch
  ensure (epochIsDrained log revealEpoch = false) (.epochAlreadySettled revealEpoch)
  checkKnown (isAcceptedClaim log) .unknownCitation claim.cites
  checkKnown (fun id => id ∈ claimIds log) .unknownRelationTarget
    (claim.relations.map ClaimRelation.target)
  checkFrontierCitation log objective claim
  return objective

/-- The claim a sealed commitment opens to. -/
def openedClaim (log : List Entry) (commitmentId ts : String) : Except RuleViolation Claim := do
  let (_, commitment) ← commitmentEntry log commitmentId
  let envelope ← okOr (.commitmentNotSealed commitmentId) commitment.envelope
  let published := committeeSharesFor log commitmentId
  let threshold := (Envelopes.threshold envelope).toNat
  ensure (threshold ≤ published.length)
    (.notEnoughShares commitmentId published.length threshold)
  let epoch ← epochOfTimestamp "commitment" commitment.createdAt
  let shares ← (published.mapM CommitteeShare.toShare).mapError .inadmissibleRecord
  let opened ← okOr (.sealedOpenFailed commitmentId published.length)
    (openWithAnySubset commitment envelope epoch shares threshold)
  (opened.toClaim commitment.objectiveId commitment.submitter ts).mapError .inadmissibleRecord

/-! ## Beacons -/

/-- The value of a hexadecimal digit of either case. -/
def radixDigit (b : UInt8) : Option UInt8 :=
  if 48 ≤ b ∧ b ≤ 57 then some (b - 48)
  else if 97 ≤ b ∧ b ≤ 102 then some (b - 87)
  else if 65 ≤ b ∧ b ≤ 70 then some (b - 55)
  else none

/-- `u8::from_str_radix` on two bytes; a leading `+` is allowed. -/
def radixPair (a b : UInt8) : Option UInt8 := do
  let low ← radixDigit b
  if a = 43 then some low
  else do
    let high ← radixDigit a
    return high * 16 + low

/-- `decode_hex` of `src/node.rs`. -/
def decodeRadix : List UInt8 → Option (List UInt8)
  | [] => some []
  | [_] => none
  | a :: b :: rest => do
      let byte ← radixPair a b
      let bytes ← decodeRadix rest
      return byte :: bytes

def vdfSeed (log : List Entry) (epoch : UInt64) (positions : Nat) : List UInt8 :=
  "proofwork/vdf/seed".toUTF8.toList ++
    ((List.range 8).reverse.map fun i => UInt8.ofNat (epoch.toNat / 256 ^ i)) ++
    ((rootAt log positions).getD "").toUTF8.toList

def checkVdfBeacon (log : List Entry) (payload : Value) (positions : Nat) :
    Except RuleViolation Unit := do
  let epoch ← okOr (.beaconDoesNotVerify 0) (payloadU64 payload "orders")
  let fail := RuleViolation.beaconDoesNotVerify epoch
  let difficulty ← okOr fail (payloadU64 payload "difficulty")
  let value ← okOr fail (payloadStr payload "value")
  let output ← okOr fail (decodeRadix value.toUTF8.toList)
  let text ← okOr fail (payloadStr payload "witness")
  let witness ← okOr fail (decodeRadix text.toUTF8.toList)
  ensure (World.vdfVerify (vdfSeed log epoch positions) difficulty output witness) fail

def GENESIS_TIME : Nat := 1692803367

def PERIOD_SECONDS : Nat := 3

/-- `drand::round_for_epoch`: the first round after an epoch begins. -/
def roundForEpoch (epoch epochSeconds : UInt64) : UInt64 :=
  let boundary := min (epoch.toNat * epochSeconds.toNat) (UInt64.size - 1)
  if boundary ≤ GENESIS_TIME then 1
  else .ofNat ((boundary - GENESIS_TIME + (PERIOD_SECONDS - 1)) / PERIOD_SECONDS + 1)

def beaconValue (orders : UInt64) (source : String) (block : UInt64) (value : String)
    (proof : Option (UInt64 × String)) : Value :=
  .object ([("orders", u64Value orders), ("source", .string source), ("block", u64Value block),
    ("value", .string value)] ++
    match proof with
    | some (difficulty, witness) =>
      [("difficulty", u64Value difficulty), ("witness", .string witness)]
    | none => [])

/-- A beacon orders the epoch it is drawn in, and only the first counts. -/
def checkBeacon (log : List Entry) (orders : UInt64) (source : String) (block : UInt64)
    (value : String) (proof : Option (UInt64 × String)) (ts : String) :
    Except RuleViolation Unit := do
  let drawnIn ← epochOfTimestamp "beacon" ts
  ensure (drawnIn = orders) (.beaconOutOfEpoch orders drawnIn)
  ensure ((epochBeaconWithin log orders log.length).isNone) (.duplicateBeacon orders)
  if source = "vdf" then checkVdfBeacon log (beaconValue orders source block value proof) log.length
  else .ok ()
  if source = "drand" then do
    let expected := roundForEpoch orders Clock.epochSeconds
    ensure (block = expected) (.beaconRoundMismatch orders block expected)
    (World.drandVerify expected value).mapError (.beaconSignatureInvalid orders expected)
  else .ok ()

/-! ## What the checks establish -/

omit [World] in
theorem checkKnown_ok {known : String → Bool} {unknown : String → RuleViolation}
    {ids : List String} (h : checkKnown known unknown ids = .ok ()) : ∀ id ∈ ids, known id = true := by
  unfold checkKnown at h
  split at h
  · exact absurd h (by simp)
  · rename_i hnone
    simpa using hnone

/-- What `post_objective` knows once it has checked an objective. -/
structure Posted (log : List Entry) (o : Objective) : Prop where
  fresh : isPosted log o.id = false
  ratchet : ∀ block, o.ratchet = some block →
    ∃ ratchet, Ratchet.fromValue block = .ok ratchet ∧ ratchet.reward = o.reward
  piecework : ∀ block, o.piecework = some block →
    ∃ piecework, Piecework.fromValue block = .ok piecework
  affords : afford log o.funder o.reward.toNat = .ok ()

variable {o : Objective} {log : List Entry}

omit [World] in
theorem checkRatchet_ok {kind : String} (h : checkRatchet o kind = .ok ())
    {block : Value} (hblock : o.ratchet = some block) :
    ∃ ratchet, Ratchet.fromValue block = .ok ratchet ∧ ratchet.reward = o.reward := by
  unfold checkRatchet at h
  rw [hblock] at h
  simp only [bind_eq_ok, mapError_eq_ok, ensure_eq_ok] at h
  obtain ⟨ratchet, hparse, _, -, hreward⟩ := h
  exact ⟨ratchet, hparse, hreward⟩

omit [World] in
theorem checkPiecework_ok (h : checkPiecework o = .ok ()) {block : Value}
    (hblock : o.piecework = some block) :
    ∃ piecework, Piecework.fromValue block = .ok piecework := by
  unfold checkPiecework at h
  rw [hblock] at h
  simp only [bind_eq_ok, mapError_eq_ok] at h
  obtain ⟨piecework, hparse, -⟩ := h
  exact ⟨piecework, hparse⟩

theorem checkObjective_ok
    (h : checkObjective log o = .ok ()) : Posted log o := by
  unfold checkObjective at h
  simp only [bind_eq_ok, mapError_eq_ok, ensure_eq_ok] at h
  obtain ⟨kind, -, _, hfresh, _, hratchet, _, hpiecework, _, -, _, -, _, hafford, -⟩ := h
  exact {
    fresh := hfresh
    ratchet := fun block => checkRatchet_ok hratchet
    piecework := fun block => checkPiecework_ok hpiecework
    affords := hafford }

/-- What `reveal` knows once it has checked a claim. -/
structure Revealed (log : List Entry) (claim : Claim) (epoch : UInt64) (commitment : Option Entry)
    (objective : Objective) : Prop where
  known : (objectives log).get? claim.objectiveId = some objective
  opens : ∃ entry, commitment = some entry ∧ checkOpens entry epoch = .ok ()
  undrained : epochIsDrained log epoch = false
  cites : ∀ cited ∈ claim.cites, isAcceptedClaim log cited = true
  frontier : objective.ratchet.isSome → ∀ frontier,
    latestFrontier log claim.objectiveId = .ok (some frontier) → frontier.claimId ∈ claim.cites

omit [World] in
theorem checkFrontierCitation_ok {objective : Objective} {claim : Claim}
    (h : checkFrontierCitation log objective claim = .ok ()) (hratchet : objective.ratchet.isSome)
    {frontier : FrontierEntry}
    (hfrontier : latestFrontier log claim.objectiveId = .ok (some frontier)) :
    frontier.claimId ∈ claim.cites := by
  have hnot : objective.ratchet.isNone = false := by
    rw [Option.isNone_eq_false_iff]
    exact hratchet
  unfold checkFrontierCitation at h
  rw [hnot, hfrontier] at h
  simpa [Except.mapError, bind, Except.bind] using h

theorem checkReveal_ok {claim : Claim} {epoch : UInt64}
    {commitment : Option Entry} {objective : Objective}
    (h : checkReveal log claim epoch commitment = .ok objective) :
    Revealed log claim epoch commitment objective := by
  unfold checkReveal at h
  simp only [bind_eq_ok, okOr_eq_ok, ensure_eq_ok, exists_and_left] at h
  obtain ⟨o, hknown, -, -, entry, hentry, _, hopens, hundrained, -, _, hcites, _, -, _, hfrontier,
    hret⟩ := h
  cases hret
  exact {
    known := hknown
    opens := ⟨entry, hentry, hopens⟩
    undrained := hundrained
    cites := checkKnown_ok hcites
    frontier := fun hratchet frontier hlatest =>
      checkFrontierCitation_ok hfrontier hratchet hlatest }

end Checks

end Log

end Cairn.Ports
