import Cairn.Ports.Node.Admission
import Cairn.Ports.Node.Drain

/-!
# Operations and runs

Every method of `src/node.rs` that writes to the log, and runs of them. An
operation is refused by a check and then writes nothing of its own; `commit`
and `reveal` have drained by then.
-/

namespace Cairn.Ports

open Cairn.Verified
open Cairn.Ports.Canonical

/-- The payload of a verdict. -/
def verdictValue [Sha256] (claim : Claim) (verdict : Verdict) : Value :=
  .object [("claim_id", .string claim.id), ("objective_id", .string claim.objectiveId),
    ("verdict", verdict.toValue)]

namespace Node

section Operations

variable [World]

/-- A checked append. -/
def post {α : Type} (n : Node) (check : Except RuleViolation Unit) (kind : EntryKind)
    (payload : Value) (ts : String) (result : α) : Node × Except RuleViolation α :=
  match check with
  | .error error => (n, .error error)
  | .ok _ => (n.append kind payload ts, .ok result)

def postObjective (n : Node) (objective : Objective) (ts : String) :
    Node × Except RuleViolation String :=
  n.post (Log.checkObjective n.log objective) .objective objective.toValue ts objective.id

def postAvailabilityPool (n : Node) (pool : AvailabilityPool) (ts : String) :
    Node × Except RuleViolation String :=
  n.post (Log.checkPool n.log pool) .availabilityPool pool.toValue ts pool.id

def postIssuance (n : Node) (record : Issuance) (ts : String) :
    Node × Except RuleViolation String :=
  n.post (Log.checkIssuance n.log record) .issuance record.toValue ts record.id

def postPeer (n : Node) (record : PeerRecord) (ts : String) : Node × Except RuleViolation String :=
  n.post (Log.checkPeer n.log record) .peer record.toValue ts record.id

def postUndertaking (n : Node) (record : Undertaking) (ts : String) :
    Node × Except RuleViolation String :=
  n.post (Log.checkUndertaking n.log record) .undertaking record.toValue ts record.id

def postAvailability (n : Node) (record : Availability) (ts : String) :
    Node × Except RuleViolation String :=
  n.post (Log.checkAnswer n.log record) .availability record.toValue ts record.id

def postCommitteeShare (n : Node) (record : CommitteeShare) (ts : String) :
    Node × Except RuleViolation String :=
  n.post (Log.checkShare n.log record ts) .committeeShare record.toValue ts record.id

def postChallenge (n : Node) (challenge : Challenge) (ts : String) :
    Node × Except RuleViolation String :=
  n.post (Log.checkChallenge n.log challenge ts) .challenge challenge.toValue ts challenge.id

def postBisection (n : Node) (record : BisectionMove) (ts : String) :
    Node × Except RuleViolation Unit :=
  n.post (Log.checkBisection n.log record ts) .bisection record.toValue ts ()

/-- A dispute that was settled before returns what was recorded. -/
def settleChallenge (n : Node) (registry : Registry) (challengeId ts : String) :
    Node × Except RuleViolation Value :=
  match Log.challengeOutcome n.log challengeId with
  | some existing => (n, .ok existing)
  | none =>
    match Log.challengeSettlement n.log registry challengeId ts with
    | .error error => (n, .error error)
    | .ok record => (n.append .challengeSettlement record ts, .ok record)

def postAttestation (n : Node) (record : Attestation) (ts : String) :
    Node × Except RuleViolation String :=
  n.post (Log.checkAttestation n.log record ts) .attestation record.toValue ts record.id

/-- An attestation that was slashed before returns what was recorded. -/
def slashAttestation (n : Node) (registry : Registry) (attestationId catcher ts : String) :
    Node × Except RuleViolation Value :=
  match Log.slashOf n.log attestationId with
  | some existing => (n, .ok existing)
  | none =>
    match Log.attestationSlash n.log registry attestationId catcher with
    | .error error => (n, .error error)
    | .ok record => (n.append .verificationSlash record ts, .ok record)

def commit (n : Node) (commitment : Commitment) (ts : String) :
    Node × Except RuleViolation String :=
  match Log.commitEpoch commitment ts with
  | .error error => (n, .error error)
  | .ok epoch =>
    match n.settleDue epoch ts with
    | (n, .error error) => (n, .error error)
    | (n, .ok _) =>
      n.post (Log.checkCommit n.log commitment) .commitment commitment.toValue ts commitment.id

/-- What `reveal` reports for a verdict. -/
def revealOutcome (claim : Claim) (verdict : Verdict) (epoch : UInt64) : Outcome :=
  if !verdict.status.settles then .unsettled claim.id verdict "verdict does not settle"
  else if !verdict.accepted then .unsettled claim.id verdict "rejected"
  else .pending claim.id verdict epoch

/-- `reveal`: the commitment is looked up before the drain and checked after. -/
def reveal (n : Node) (registry : Registry) (claim : Claim) (ts : String) :
    Node × Except RuleViolation Outcome :=
  match Log.revealEpoch n.log claim ts with
  | .error error => (n, .error error)
  | .ok epoch =>
    let commitment := Log.matchingCommitmentEntry n.log claim
    match n.settleDue epoch ts with
    | (n, .error error) => (n, .error error)
    | (n, .ok _) =>
      match Log.checkReveal n.log claim epoch commitment with
      | .error error => (n, .error error)
      | .ok objective =>
        let verdict := registry.run objective.verifier claim.artifact
        ((n.append .claim claim.toValue ts).append .verdict (verdictValue claim verdict) ts,
          .ok (revealOutcome claim verdict epoch))

def openSealed (n : Node) (registry : Registry) (commitmentId ts : String) :
    Node × Except RuleViolation Outcome :=
  match Log.openedClaim n.log commitmentId ts with
  | .error error => (n, .error error)
  | .ok claim => n.reveal registry claim ts

/-- An epoch settles its availability once. -/
def settleAvailability (n : Node) (epoch : UInt64) (ts : String) :
    Node × Except RuleViolation (Option Log.AvailabilityOutcome) :=
  if (Log.ofKind n.log .availabilitySettlement).any fun e =>
      payloadU64 e.payload "epoch" = some epoch then (n, .ok none)
  else
    match Log.availabilitySettlementAt n.log epoch n.log.length with
    | .error error => (n, .error error)
    | .ok none => (n, .ok none)
    | .ok (some (record, outcome)) =>
      (n.append .availabilitySettlement record ts, .ok (some outcome))

/-- `settle_at`: drain up to the epoch of a timestamp. -/
def settleAt (n : Node) (ts : String) : Node × Except RuleViolation (List Outcome) :=
  match epochOfTimestamp "settle" ts with
  | .error error => (n, .error error)
  | .ok now => n.settleDue now ts

def recordBeaconWith (n : Node) (orders : UInt64) (source : String) (block : UInt64)
    (value : String) (proof : Option (UInt64 × String)) (ts : String) :
    Node × Except RuleViolation Unit :=
  n.post (Log.checkBeacon n.log orders source block value proof ts) .beacon
    (Log.beaconValue orders source block value proof) ts ()

def recordBeacon (n : Node) (orders : UInt64) (source : String) (block : UInt64)
    (value ts : String) : Node × Except RuleViolation Unit :=
  n.recordBeaconWith orders source block value none ts

end Operations

end Node

/-! ## Runs -/

/-- A call of one method with its arguments. -/
inductive Op [World] where
  | postObjective (objective : Objective) (ts : String)
  | postAvailabilityPool (pool : AvailabilityPool) (ts : String)
  | postIssuance (record : Issuance) (ts : String)
  | postPeer (record : PeerRecord) (ts : String)
  | postUndertaking (record : Undertaking) (ts : String)
  | postAvailability (record : Availability) (ts : String)
  | postCommitteeShare (record : CommitteeShare) (ts : String)
  | postChallenge (challenge : Challenge) (ts : String)
  | postBisection (record : BisectionMove) (ts : String)
  | settleChallenge (registry : Registry) (challengeId ts : String)
  | postAttestation (record : Attestation) (ts : String)
  | slashAttestation (registry : Registry) (attestationId catcher ts : String)
  | commit (commitment : Commitment) (ts : String)
  | reveal (registry : Registry) (claim : Claim) (ts : String)
  | openSealed (registry : Registry) (commitmentId ts : String)
  | settleDue (nowEpoch : UInt64) (ts : String)
  | settleAt (ts : String)
  | settleAvailability (epoch : UInt64) (ts : String)
  | recordBeaconWith (orders : UInt64) (source : String) (block : UInt64) (value : String)
      (proof : Option (UInt64 × String)) (ts : String)

namespace Node

variable [World]

/-- The node after a call, whatever the call returned. -/
def step (n : Node) : Op → Node
  | .postObjective objective ts => (n.postObjective objective ts).1
  | .postAvailabilityPool pool ts => (n.postAvailabilityPool pool ts).1
  | .postIssuance record ts => (n.postIssuance record ts).1
  | .postPeer record ts => (n.postPeer record ts).1
  | .postUndertaking record ts => (n.postUndertaking record ts).1
  | .postAvailability record ts => (n.postAvailability record ts).1
  | .postCommitteeShare record ts => (n.postCommitteeShare record ts).1
  | .postChallenge challenge ts => (n.postChallenge challenge ts).1
  | .postBisection record ts => (n.postBisection record ts).1
  | .settleChallenge registry challengeId ts => (n.settleChallenge registry challengeId ts).1
  | .postAttestation record ts => (n.postAttestation record ts).1
  | .slashAttestation registry attestationId catcher ts =>
    (n.slashAttestation registry attestationId catcher ts).1
  | .commit commitment ts => (n.commit commitment ts).1
  | .reveal registry claim ts => (n.reveal registry claim ts).1
  | .openSealed registry commitmentId ts => (n.openSealed registry commitmentId ts).1
  | .settleDue nowEpoch ts => (n.settleDue nowEpoch ts).1
  | .settleAt ts => (n.settleAt ts).1
  | .settleAvailability epoch ts => (n.settleAvailability epoch ts).1
  | .recordBeaconWith orders source block value proof ts =>
    (n.recordBeaconWith orders source block value proof ts).1

def run (n : Node) (ops : List Op) : Node := ops.foldl step n

theorem run_nil (n : Node) : n.run [] = n := rfl

theorem run_cons (n : Node) (op : Op) (ops : List Op) : n.run (op :: ops) = (n.step op).run ops :=
  rfl

theorem run_append (n : Node) (ops ops' : List Op) : n.run (ops ++ ops') = (n.run ops).run ops' :=
  List.foldl_append

/-! ## What a run writes -/

/-- What a write finds when it is admitted: the check it passed, on the log it
extends. Settlements, frontiers and batches are written by drains. -/
inductive Admits (log : List Entry) : EntryKind → Value → String → Prop where
  | objective {objective : Objective} {ts : String}
      (check : Log.checkObjective log objective = .ok ()) :
      Admits log .objective objective.toValue ts
  | availabilityPool {pool : AvailabilityPool} {ts : String}
      (check : Log.checkPool log pool = .ok ()) : Admits log .availabilityPool pool.toValue ts
  | issuance {record : Issuance} {ts : String} (check : Log.checkIssuance log record = .ok ()) :
      Admits log .issuance record.toValue ts
  | peer {record : PeerRecord} {ts : String} (check : Log.checkPeer log record = .ok ()) :
      Admits log .peer record.toValue ts
  | undertaking {record : Undertaking} {ts : String}
      (check : Log.checkUndertaking log record = .ok ()) :
      Admits log .undertaking record.toValue ts
  | availability {record : Availability} {ts : String}
      (check : Log.checkAnswer log record = .ok ()) : Admits log .availability record.toValue ts
  | committeeShare {record : CommitteeShare} {ts : String}
      (check : Log.checkShare log record ts = .ok ()) :
      Admits log .committeeShare record.toValue ts
  | challenge {challenge : Challenge} {ts : String}
      (check : Log.checkChallenge log challenge ts = .ok ()) :
      Admits log .challenge challenge.toValue ts
  | bisection {record : BisectionMove} {ts : String}
      (check : Log.checkBisection log record ts = .ok ()) :
      Admits log .bisection record.toValue ts
  | challengeSettlement {registry : Registry} {challengeId ts : String} {record : Value}
      (fresh : Log.challengeOutcome log challengeId = none)
      (check : Log.challengeSettlement log registry challengeId ts = .ok record) :
      Admits log .challengeSettlement record ts
  | attestation {record : Attestation} {ts : String}
      (check : Log.checkAttestation log record ts = .ok ()) :
      Admits log .attestation record.toValue ts
  | verificationSlash {registry : Registry} {attestationId catcher ts : String} {record : Value}
      (fresh : Log.slashOf log attestationId = none)
      (check : Log.attestationSlash log registry attestationId catcher = .ok record) :
      Admits log .verificationSlash record ts
  | commitment {commitment : Commitment} {epoch : UInt64} {ts : String}
      (declared : Log.commitEpoch commitment ts = .ok epoch)
      (check : Log.checkCommit log commitment = .ok ()) :
      Admits log .commitment commitment.toValue ts
  | claim {claim : Claim} {before : List Entry} {epoch : UInt64} {objective : Objective}
      {ts : String} (earlier : before <+: log)
      (admitted : Log.revealEpoch before claim ts = .ok epoch)
      (check : Log.checkReveal log claim epoch (Log.matchingCommitmentEntry before claim) =
        .ok objective) : Admits log .claim claim.toValue ts
  | verdict {claim : Claim} {objective : Objective} {registry : Registry} {before : List Entry}
      {e : Entry} {ts : String} (last : log = before ++ [e])
      (kind : e.kind = EntryKind.claim.asStr) (payload : e.payload = claim.toValue)
      (known : (Log.objectives before).get? claim.objectiveId = some objective) :
      Admits log .verdict
        (verdictValue claim (registry.run objective.verifier claim.artifact)) ts
  | availabilitySettlement {epoch : UInt64} {ts : String} {record : Value}
      {outcome : Log.AvailabilityOutcome}
      (fresh : ∀ e ∈ Log.ofKind log .availabilitySettlement,
        payloadU64 e.payload "epoch" ≠ some epoch)
      (check : Log.availabilitySettlementAt log epoch log.length = .ok (some (record, outcome))) :
      Admits log .availabilitySettlement record ts
  | beacon {orders : UInt64} {source : String} {block : UInt64} {value : String}
      {proof : Option (UInt64 × String)} {ts : String}
      (check : Log.checkBeacon log orders source block value proof ts = .ok ()) :
      Admits log .beacon (Log.beaconValue orders source block value proof) ts

/-- Payouts are written by drains only. -/
theorem Admits.not_payout {log : List Entry} {kind : EntryKind} {payload : Value} {ts : String}
    (h : Admits log kind payload ts) :
    kind ≠ .settlement ∧ kind ≠ .frontier ∧ kind ≠ .batch := by
  cases h <;> decide

/-- A chain of admitted writes and drains. -/
inductive Reaches (n : Node) : Node → Prop where
  | refl : Reaches n n
  | write {m : Node} {kind : EntryKind} {payload : Value} {ts : String} (before : Reaches n m)
      (admitted : Admits m.log kind payload ts) : Reaches n (m.append kind payload ts)
  | drain {m : Node} {now : UInt64} {ts : String} (before : Reaches n m) :
      Reaches n (m.settleDue now ts).1

variable {n m : Node}

theorem Reaches.post {α : Type} (h : Reaches n m)
    {check : Except RuleViolation Unit} {kind : EntryKind} {payload : Value} {ts : String}
    {result : α} (admits : check = .ok () → Admits m.log kind payload ts) :
    Reaches n (m.post check kind payload ts result).1 := by
  cases check with
  | error error => exact h
  | ok u => exact h.write (admits rfl)

theorem commit_reaches (n : Node) (commitment : Commitment) (ts : String) :
    Reaches n (n.commit commitment ts).1 := by
  unfold commit
  cases hepoch : Log.commitEpoch commitment ts with
  | error error => exact .refl
  | ok epoch =>
    have hdrained : Reaches n (n.settleDue epoch ts).1 := .drain .refl
    dsimp only
    cases hres : n.settleDue epoch ts with
    | mk m result =>
      rw [hres] at hdrained
      cases result with
      | error error => exact hdrained
      | ok outcomes => exact hdrained.post fun check => .commitment hepoch check

theorem reveal_reaches (n : Node) (registry : Registry) (claim : Claim) (ts : String) :
    Reaches n (n.reveal registry claim ts).1 := by
  unfold reveal
  cases hepoch : Log.revealEpoch n.log claim ts with
  | error error => exact .refl
  | ok epoch =>
    have hdrained : Reaches n (n.settleDue epoch ts).1 := .drain .refl
    have hextends := n.settleDue_log epoch ts
    dsimp only
    cases hres : n.settleDue epoch ts with
    | mk m result =>
      rw [hres] at hdrained hextends
      cases result with
      | error error => exact hdrained
      | ok outcomes =>
        dsimp only
        cases hcheck : Log.checkReveal m.log claim epoch
            (Log.matchingCommitmentEntry n.log claim) with
        | error error => exact hdrained
        | ok objective =>
          have hclaim := hdrained.write (Admits.claim hextends.isPrefix hepoch hcheck)
          exact hclaim.write (.verdict (log_append _ _ _ _) rfl rfl
            (Log.checkReveal_ok hcheck).known)

theorem settleChallenge_reaches (n : Node) (registry : Registry) (challengeId ts : String) :
    Reaches n (n.settleChallenge registry challengeId ts).1 := by
  unfold settleChallenge
  cases hfresh : Log.challengeOutcome n.log challengeId with
  | some existing => exact .refl
  | none =>
    dsimp only
    cases hcheck : Log.challengeSettlement n.log registry challengeId ts with
    | error error => exact .refl
    | ok record => exact .write .refl (.challengeSettlement hfresh hcheck)

theorem slashAttestation_reaches (n : Node) (registry : Registry)
    (attestationId catcher ts : String) :
    Reaches n (n.slashAttestation registry attestationId catcher ts).1 := by
  unfold slashAttestation
  cases hfresh : Log.slashOf n.log attestationId with
  | some existing => exact .refl
  | none =>
    dsimp only
    cases hcheck : Log.attestationSlash n.log registry attestationId catcher with
    | error error => exact .refl
    | ok record => exact .write .refl (.verificationSlash hfresh hcheck)

theorem settleAvailability_reaches (n : Node) (epoch : UInt64) (ts : String) :
    Reaches n (n.settleAvailability epoch ts).1 := by
  unfold settleAvailability
  by_cases hdone : (Log.ofKind n.log .availabilitySettlement).any fun e =>
      payloadU64 e.payload "epoch" = some epoch
  · rw [if_pos hdone]
    exact .refl
  rw [if_neg hdone]
  have hfresh : ∀ e ∈ Log.ofKind n.log .availabilitySettlement,
      payloadU64 e.payload "epoch" ≠ some epoch := by
    simpa using hdone
  cases hcheck : Log.availabilitySettlementAt n.log epoch n.log.length with
  | error error => exact .refl
  | ok found =>
    cases found with
    | none => exact .refl
    | some p => exact .write .refl (.availabilitySettlement hfresh hcheck)

theorem openSealed_reaches (n : Node) (registry : Registry) (commitmentId ts : String) :
    Reaches n (n.openSealed registry commitmentId ts).1 := by
  unfold openSealed
  cases Log.openedClaim n.log commitmentId ts with
  | error error => exact .refl
  | ok claim => exact n.reveal_reaches registry claim ts

theorem settleAt_reaches (n : Node) (ts : String) : Reaches n (n.settleAt ts).1 := by
  unfold settleAt
  cases epochOfTimestamp "settle" ts with
  | error error => exact .refl
  | ok now => exact .drain .refl

/-- A call is a chain of admitted writes and drains. -/
theorem step_reaches (n : Node) (op : Op) : Reaches n (n.step op) := by
  cases op with
  | postObjective objective ts => exact Reaches.refl.post .objective
  | postAvailabilityPool pool ts => exact Reaches.refl.post .availabilityPool
  | postIssuance record ts => exact Reaches.refl.post .issuance
  | postPeer record ts => exact Reaches.refl.post .peer
  | postUndertaking record ts => exact Reaches.refl.post .undertaking
  | postAvailability record ts => exact Reaches.refl.post .availability
  | postCommitteeShare record ts => exact Reaches.refl.post .committeeShare
  | postChallenge challenge ts => exact Reaches.refl.post .challenge
  | postBisection record ts => exact Reaches.refl.post .bisection
  | settleChallenge registry challengeId ts => exact n.settleChallenge_reaches registry _ ts
  | postAttestation record ts => exact Reaches.refl.post .attestation
  | slashAttestation registry attestationId catcher ts =>
    exact n.slashAttestation_reaches registry _ _ ts
  | commit commitment ts => exact n.commit_reaches commitment ts
  | reveal registry claim ts => exact n.reveal_reaches registry claim ts
  | openSealed registry commitmentId ts => exact n.openSealed_reaches registry _ ts
  | settleDue nowEpoch ts => exact .drain .refl
  | settleAt ts => exact n.settleAt_reaches ts
  | settleAvailability epoch ts => exact n.settleAvailability_reaches epoch ts
  | recordBeaconWith orders source block value proof ts => exact Reaches.refl.post .beacon

theorem Reaches.trans {n m k : Node} (h : Reaches n m) (h' : Reaches m k) : Reaches n k := by
  induction h' with
  | refl => exact h
  | write _ admitted ih => exact ih.write admitted
  | drain _ ih => exact ih.drain

theorem run_reaches (n : Node) (ops : List Op) : Reaches n (n.run ops) := by
  induction ops generalizing n with
  | nil => exact .refl
  | cons op ops ih => exact (n.step_reaches op).trans (ih (n.step op))

/-- The log only grows. -/
theorem Reaches.prefix_log (h : Reaches n m) : n.log <+: m.log := by
  induction h with
  | refl => exact List.prefix_rfl
  | write _ _ ih => exact ih.trans (List.prefix_append _ _)
  | @drain m now ts _ ih => exact ih.trans (m.settleDue_log now ts).isPrefix

/-- A property of logs that every append keeps, a run keeps. -/
theorem Reaches.log_induction {P : List Entry → Prop}
    (append : ∀ (m : Node) kind payload ts, P m.log → P (m.append kind payload ts).log)
    (h : Reaches n m) (hn : P n.log) : P m.log := by
  induction h with
  | refl => exact hn
  | @write m kind payload ts _ _ ih => exact append m kind payload ts ih
  | @drain m now ts _ ih => exact settleDue_log_induction append now ts ih

/-- Every new entry was written by a drain, or admitted on the log before it. -/
theorem Reaches.admitted_new (h : Reaches n m) {before after : List Entry}
    {e : Entry} (hlog : m.log = before ++ e :: after) (hnew : n.log.length ≤ before.length) :
    IsPayout e ∨ ∃ kind : EntryKind, e.kind = kind.asStr ∧ Admits before kind e.payload e.ts := by
  induction h generalizing before after with
  | refl =>
    have hlen := congrArg List.length hlog
    rw [List.length_append, List.length_cons] at hlen
    omega
  | @write m kind payload ts _ admitted ih =>
    rw [log_append] at hlog
    obtain ⟨mid, hm⟩ | ⟨rfl, rfl⟩ := AppendOnly.split_concat hlog
    · exact ih hm hnew
    · exact .inr ⟨kind, rfl, admitted⟩
  | @drain m now ts _ ih =>
    obtain ⟨new, hgrown, hpayout⟩ := m.settleDue_log now ts
    rw [hgrown] at hlog
    obtain ⟨mid, hm, -⟩ | ⟨mid, -, hin⟩ := AppendOnly.split_append hlog
    · exact ih hm hnew
    · exact .inl (hpayout e (by rw [hin]; simp))

/-- On a run from an empty log every entry is new. -/
theorem Reaches.admitted (hempty : n.log = []) (h : Reaches n m)
    {before after : List Entry} {e : Entry} (hlog : m.log = before ++ e :: after) :
    IsPayout e ∨ ∃ kind : EntryKind, e.kind = kind.asStr ∧ Admits before kind e.payload e.ts := by
  apply h.admitted_new hlog
  rw [hempty]
  exact Nat.zero_le _

/-! ## What one call writes -/

end Node

/-- The kind of record a call writes besides payouts and verdicts. -/
def Op.kind [World] : Op → EntryKind
  | .postObjective _ _ => .objective
  | .postAvailabilityPool _ _ => .availabilityPool
  | .postIssuance _ _ => .issuance
  | .postPeer _ _ => .peer
  | .postUndertaking _ _ => .undertaking
  | .postAvailability _ _ => .availability
  | .postCommitteeShare _ _ => .committeeShare
  | .postChallenge _ _ => .challenge
  | .postBisection _ _ => .bisection
  | .settleChallenge _ _ _ => .challengeSettlement
  | .postAttestation _ _ => .attestation
  | .slashAttestation _ _ _ _ => .verificationSlash
  | .commit _ _ => .commitment
  | .reveal _ _ _ => .claim
  | .openSealed _ _ _ => .claim
  | .settleDue _ _ => .batch
  | .settleAt _ => .batch
  | .settleAvailability _ _ => .availabilitySettlement
  | .recordBeaconWith _ _ _ _ _ _ => .beacon

namespace Node

variable [World]

/-- An entry of this kind, a payout or a verdict. -/
def IsWrite (kind : EntryKind) (e : Entry) : Prop :=
  IsPayout e ∨ e.kind = EntryKind.verdict.asStr ∨ e.kind = kind.asStr

theorem append_write (n : Node) (kind : EntryKind) (payload : Value) (ts : String) :
    AppendOnly.ExtendsBy (IsWrite kind) n.log (n.append kind payload ts).log :=
  (AppendOnly.ExtendsBy.refl _).concat (.inr (.inr rfl))

theorem post_write {α : Type} (n : Node) (check : Except RuleViolation Unit) (kind : EntryKind)
    (payload : Value) (ts : String) (result : α) :
    AppendOnly.ExtendsBy (IsWrite kind) n.log (n.post check kind payload ts result).1.log := by
  cases check with
  | error error => exact .refl _
  | ok u => exact n.append_write kind payload ts

theorem settleDue_write (kind : EntryKind) (n : Node) (now : UInt64) (ts : String) :
    AppendOnly.ExtendsBy (IsWrite kind) n.log (n.settleDue now ts).1.log :=
  (n.settleDue_log now ts).mono fun _ he => .inl he

theorem commit_write (n : Node) (commitment : Commitment) (ts : String) :
    AppendOnly.ExtendsBy (IsWrite .commitment) n.log (n.commit commitment ts).1.log := by
  unfold commit
  cases Log.commitEpoch commitment ts with
  | error error => exact .refl _
  | ok epoch =>
    have hdrained := settleDue_write .commitment n epoch ts
    dsimp only
    generalize n.settleDue epoch ts = res at hdrained
    obtain ⟨m, result⟩ := res
    cases result with
    | error error => exact hdrained
    | ok outcomes => exact hdrained.trans (m.post_write _ _ _ _ _)

theorem reveal_write (n : Node) (registry : Registry) (claim : Claim) (ts : String) :
    AppendOnly.ExtendsBy (IsWrite .claim) n.log (n.reveal registry claim ts).1.log := by
  unfold reveal
  cases Log.revealEpoch n.log claim ts with
  | error error => exact .refl _
  | ok epoch =>
    have hdrained := settleDue_write .claim n epoch ts
    dsimp only
    generalize n.settleDue epoch ts = res at hdrained
    obtain ⟨m, result⟩ := res
    cases result with
    | error error => exact hdrained
    | ok outcomes =>
      dsimp only
      cases Log.checkReveal m.log claim epoch (Log.matchingCommitmentEntry n.log claim) with
      | error error => exact hdrained
      | ok objective =>
        have hclaim := hdrained.trans (m.append_write .claim claim.toValue ts)
        exact hclaim.concat (.inr (.inl rfl))

/-- A call writes one kind of record. -/
theorem step_write (n : Node) (op : Op) :
    AppendOnly.ExtendsBy (IsWrite op.kind) n.log (n.step op).log := by
  cases op with
  | settleChallenge registry challengeId ts =>
    show AppendOnly.ExtendsBy _ n.log (n.settleChallenge registry challengeId ts).1.log
    unfold settleChallenge
    cases Log.challengeOutcome n.log challengeId with
    | some existing => exact .refl _
    | none =>
      dsimp only
      cases Log.challengeSettlement n.log registry challengeId ts with
      | error error => exact .refl _
      | ok record => exact n.append_write _ _ _
  | slashAttestation registry attestationId catcher ts =>
    show AppendOnly.ExtendsBy _ n.log (n.slashAttestation registry attestationId catcher ts).1.log
    unfold slashAttestation
    cases Log.slashOf n.log attestationId with
    | some existing => exact .refl _
    | none =>
      dsimp only
      cases Log.attestationSlash n.log registry attestationId catcher with
      | error error => exact .refl _
      | ok record => exact n.append_write _ _ _
  | commit commitment ts => exact n.commit_write commitment ts
  | reveal registry claim ts => exact n.reveal_write registry claim ts
  | openSealed registry commitmentId ts =>
    show AppendOnly.ExtendsBy _ n.log (n.openSealed registry commitmentId ts).1.log
    unfold openSealed
    cases Log.openedClaim n.log commitmentId ts with
    | error error => exact .refl _
    | ok claim => exact n.reveal_write registry claim ts
  | settleDue nowEpoch ts => exact n.settleDue_write _ nowEpoch ts
  | settleAt ts =>
    show AppendOnly.ExtendsBy _ n.log (n.settleAt ts).1.log
    unfold settleAt
    cases epochOfTimestamp "settle" ts with
    | error error => exact .refl _
    | ok now => exact n.settleDue_write _ now ts
  | settleAvailability epoch ts =>
    show AppendOnly.ExtendsBy _ n.log (n.settleAvailability epoch ts).1.log
    unfold settleAvailability
    split
    · exact .refl _
    · cases Log.availabilitySettlementAt n.log epoch n.log.length with
      | error error => exact .refl _
      | ok found =>
        cases found with
        | none => exact .refl _
        | some p => exact n.append_write _ _ _
  | _ => exact n.post_write _ _ _ _ _

end Node

end Cairn.Ports
