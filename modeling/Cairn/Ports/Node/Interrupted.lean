import Cairn.Ports.Node.Jobs

/-!
# A drain on a disk that fails

`settle_due` where `Ledger::append` fails once the log holds `room` entries.
Such a drain stops at the entry that is refused: what was appended stays, and
the call returns the failure.
-/

namespace Cairn.Ports

open Cairn.Verified
open Cairn.Verified.AppendOnly
open Cairn.Ports.Canonical

/-- Why a drain ends early: a rule, or an append that fails. -/
inductive DrainError where
  | rule (violation : RuleViolation)
  | ledger

namespace Node

variable [World]

/-! ## The drain -/

/-- `Ledger::append` on a disk with room for `room` entries. -/
def tryAppend (room : Nat) (n : Node) (kind : EntryKind) (payload : Value) (ts : String) :
    Node × Except DrainError Unit :=
  if n.log.length < room then (n.append kind payload ts, .ok ()) else (n, .error .ledger)

def payOn (room : Nat) (n : Node) (claim : Claim) (reward : UInt64) (ts : String) :
    Node × Except DrainError Unit :=
  n.tryAppend room .settlement
    (settlementValue claim.objectiveId claim.id claim.submitter reward) ts

def advanceOn (room : Nat) (n : Node) (claim : Claim) (score : Int64) (paidCumulative : UInt64)
    (ts : String) : Node × Except DrainError Unit :=
  let advanced : FrontierEntry :=
    { objectiveId := claim.objectiveId, claimId := claim.id, holder := claim.submitter
      score, paidCumulative }
  n.tryAppend room .frontier advanced.toValue ts

def settleUnitOn (room : Nat) (n : Node) (claim : Claim) (verdict : Verdict)
    (objective : Objective) (piecework : Piecework) (consumed : List String) (ts : String) :
    Node × Except DrainError Outcome :=
  let keys := piecework.unitKeys claim.artifact
  if keys = [] then (n, .ok (.unsettled claim.id verdict (noUnitsNote piecework)))
  else
    let (n, paid) := n.paidUnitKeys objective piecework
    let novel := keys.filter fun key => key ∉ consumed && key ∉ paid
    if novel = [] then (n, .ok (.unsettled claim.id verdict (duplicateUnitsNote piecework)))
    else
      let remaining := (tryUInt64 (objective.reward.toNat -
        Log.paidTotal n.log claim.objectiveId)).getD 0
      let reward := piecework.payoutFor novel.length remaining
      if reward = 0 then
        (n, .ok (.unsettled claim.id verdict
          "pool exhausted; this unit verified and earns nothing here"))
      else
        match n.payOn room claim reward ts with
        | (n, .error error) => (n, .error error)
        | (n, .ok ()) =>
          (n.count claim objective novel, .ok (.paid claim.id verdict reward
            (unitsPaidNote piecework novel keys (reward = remaining))))

/-- The frontier first, and then what the move earned. -/
def recordMoveOn (room : Nat) (n : Node) (claim : Claim) (score : Int64)
    (reward paidCumulative : UInt64) (ts : String) : Node × Except DrainError Unit :=
  match n.advanceOn room claim score paidCumulative ts with
  | (n, .error error) => (n, .error error)
  | (n, .ok ()) => if reward > 0 then n.payOn room claim reward ts else (n, .ok ())

def settleMoveOn (room : Nat) (n : Node) (claim : Claim) (verdict : Verdict) (ratchet : Ratchet)
    (held : Option FrontierEntry) (score : Int64) (reward : UInt64) (ts : String) :
    Node × Except DrainError Outcome :=
  match paidAfter held reward with
  | none => (n, .error (.rule (.payoutOverflow (paidBefore held) reward)))
  | some paidCumulative =>
    match n.recordMoveOn room claim score reward paidCumulative ts with
    | (n, .error error) => (n, .error error)
    | (n, .ok ()) => (n, .ok (.paid claim.id verdict reward (improvedNote ratchet score)))

def settleImprovementOn (room : Nat) (n : Node) (claim : Claim) (verdict : Verdict)
    (ratchet : Ratchet) (held : Option FrontierEntry) (ts : String) :
    Node × Except DrainError Outcome :=
  match verdict.score with
  | none => (n, .ok (.unsettled claim.id verdict "verifier produced no integer score"))
  | some score =>
    match ratchet.stall (held.map FrontierEntry.score) score with
    | some stall =>
      (n, .ok (.unsettled claim.id verdict
        (stallNote ratchet (held.map FrontierEntry.score) score stall)))
    | none =>
      match ratchet.payout (held.map FrontierEntry.score) score with
      | .error error => (n, .error (.rule (.malformedRatchet error)))
      | .ok reward => n.settleMoveOn room claim verdict ratchet held score reward ts

def settleWholeOn (room : Nat) (n : Node) (claim : Claim) (verdict : Verdict)
    (objective : Objective) (epoch : UInt64) (consumed : List String) (ts : String) :
    Node × Except DrainError Outcome :=
  if claim.artifactId ∈ consumed ∨
      claim.artifactId ∈ Log.artifactIdsBefore n.log claim.objectiveId epoch then
    (n, .ok (.unsettled claim.id verdict "duplicate artifact mints nothing"))
  else if (Log.settlementOf n.log claim.objectiveId).isSome then
    (n, .ok (.unsettled claim.id verdict "objective already settled"))
  else
    match n.payOn room claim objective.reward ts with
    | (n, .error error) => (n, .error error)
    | (n, .ok ()) => (n, .ok (.paid claim.id verdict objective.reward "settled"))

def settleOneOn (room : Nat) (n : Node) (claim : Claim) (epoch : UInt64) (consumed : List String)
    (ts : String) : Node × Except DrainError Outcome :=
  let verdict := n.settlingVerdict claim
  match (Log.objectives n.log).get? claim.objectiveId with
  | none => (n, .ok (.unsettled claim.id verdict "objective is no longer readable"))
  | some objective =>
    match objective.ratchet, objective.piecework with
    | some block, _ =>
      match Ratchet.fromValue block with
      | .error error => (n, .ok (.unsettled claim.id verdict
          ("objective carries an unusable ratchet: " ++ error.display)))
      | .ok ratchet =>
        match Log.latestFrontier n.log claim.objectiveId with
        | .error error => (n, .ok (.unsettled claim.id verdict
            ("the objective's latest frontier entry cannot be read: " ++ error.display)))
        | .ok held => n.settleImprovementOn room claim verdict ratchet held ts
    | none, some block =>
      match Piecework.fromValue block with
      | .error error => (n, .ok (.unsettled claim.id verdict
          ("objective carries an unusable piecework block: " ++ error.display)))
      | .ok piecework => n.settleUnitOn room claim verdict objective piecework consumed ts
    | none, none => n.settleWholeOn room claim verdict objective epoch consumed ts

def settleBatchOn (room : Nat) (epoch : UInt64) (ts : String) :
    Node → List String → List Claim → Node × Except DrainError (List Outcome)
  | n, _, [] => (n, .ok [])
  | n, consumed, claim :: rest =>
    match n.settleOneOn room claim epoch consumed ts with
    | (n, .error error) => (n, .error error)
    | (n, .ok outcome) =>
      match settleBatchOn room epoch ts n (n.consume claim outcome.settled consumed) rest with
      | (n, .error error) => (n, .error error)
      | (n, .ok outcomes) => (n, .ok (outcome :: outcomes))

def settleEpochOn (room : Nat) (n : Node) (epoch : UInt64) (ts : String) :
    Node × Except DrainError (List Outcome) :=
  let anchor := Log.anchorOfEpoch n.log epoch
  let batch := Log.batchOf n.log epoch
  match settleBatchOn room epoch ts n [] batch with
  | (n, .error error) => (n, .error error)
  | (n, .ok outcomes) =>
    match n.tryAppend room .batch (batchValue epoch anchor (batch.map Claim.id)) ts with
    | (n, .error error) => (n, .error error)
    | (n, .ok ()) => (n, .ok outcomes)

def settleEpochsOn (room : Nat) (ts : String) :
    Node → List UInt64 → Node × Except DrainError (List Outcome)
  | n, [] => (n, .ok [])
  | n, epoch :: rest =>
    match n.settleEpochOn room epoch ts with
    | (n, .error error) => (n, .error error)
    | (n, .ok outcomes) =>
      match settleEpochsOn room ts n rest with
      | (n, .error error) => (n, .error error)
      | (n, .ok more) => (n, .ok (outcomes ++ more))

/-- `settle_due` on a disk with room for `room` entries. -/
def settleDueOn (room : Nat) (n : Node) (nowEpoch : UInt64) (ts : String) :
    Node × Except DrainError (List Outcome) :=
  let n := { n with drains := n.drains ++ [{ length := n.log.length, now := nowEpoch }] }
  settleEpochsOn room ts n (Log.dueEpochs n.log nowEpoch)

/-! ## Where it stops -/

/-- A call on this disk does what it does on a working one, or its append
fails at one of the nodes where it can. -/
def OnDisk {α : Type} (full : Node × Except RuleViolation α) (Stops : Node → Prop)
    (part : Node × Except DrainError α) : Prop :=
  part = (full.1, full.2.mapError .rule) ∨ part.2 = .error .ledger ∧ Stops part.1

/-- Where settling a claim stops: before its first append, with the index of
its job up to date or not, or between a frontier and what the move earned. -/
inductive Stopped (n : Node) (claim : Claim) (epoch : UInt64) (consumed : List String)
    (ts : String) : Node → Prop
  | before : Stopped n claim epoch consumed ts n
  | scanned {objective : Objective} {block : Value} {piecework : Piecework}
      (known : (Log.objectives n.log).get? claim.objectiveId = some objective)
      (isJob : objective.piecework = some block)
      (parses : Piecework.fromValue block = .ok piecework) :
      Stopped n claim epoch consumed ts (n.paidUnitKeys objective piecework).1
  | moved {objective : Objective} {block : Value} {ratchet : Ratchet}
      {held : Option FrontierEntry} {score : Int64} {reward paidCumulative : UInt64}
      (known : (Log.objectives n.log).get? claim.objectiveId = some objective)
      (isRatchet : objective.ratchet = some block) (parses : Ratchet.fromValue block = .ok ratchet)
      (frontier : Log.latestFrontier n.log claim.objectiveId = .ok held)
      (scores : (n.settlingVerdict claim).score = some score)
      (adds : paidAfter held reward = some paidCumulative) (pays : 0 < reward)
      (full : (n.settleOne claim epoch consumed ts).1 =
        (n.advance claim score paidCumulative ts).pay claim reward ts) :
      Stopped n claim epoch consumed ts (n.advance claim score paidCumulative ts)

/-- Where a batch stops: at one of its claims, or at the record of the batch. -/
inductive StoppedIn (epoch : UInt64) (ts : String) :
    Node → List String → List Claim → Node → Prop
  | atRecord {n : Node} {consumed : List String} : StoppedIn epoch ts n consumed [] n
  | atClaim {n m : Node} {consumed : List String} {claim : Claim} {rest : List Claim}
      (stops : Stopped n claim epoch consumed ts m) :
      StoppedIn epoch ts n consumed (claim :: rest) m
  | later {n m : Node} {consumed : List String} {claim : Claim} {rest : List Claim}
      {outcome : Outcome} (settles : (n.settleOne claim epoch consumed ts).2 = .ok outcome)
      (stops : StoppedIn epoch ts (n.settleOne claim epoch consumed ts).1
        ((n.settleOne claim epoch consumed ts).1.consume claim outcome.settled consumed) rest m) :
      StoppedIn epoch ts n consumed (claim :: rest) m

/-- Where a drain stops: in the batch of an epoch, the epochs before it done. -/
inductive StoppedAt (ts : String) : Node → List UInt64 → Node → Prop
  | inEpoch {n m : Node} {epoch : UInt64} {rest : List UInt64}
      (stops : StoppedIn epoch ts n [] (Log.batchOf n.log epoch) m) :
      StoppedAt ts n (epoch :: rest) m
  | later {n m : Node} {epoch : UInt64} {rest : List UInt64} {outcomes : List Outcome}
      (settles : (n.settleEpoch epoch ts).2 = .ok outcomes)
      (stops : StoppedAt ts (n.settleEpoch epoch ts).1 rest m) : StoppedAt ts n (epoch :: rest) m

theorem tryAppend_cases (room : Nat) (n : Node) (kind : EntryKind) (payload : Value) (ts : String) :
    n.tryAppend room kind payload ts = (n.append kind payload ts, .ok ()) ∨
      n.tryAppend room kind payload ts = (n, .error .ledger) := by
  unfold tryAppend
  split_ifs
  · exact .inl rfl
  · exact .inr rfl

theorem settleUnitOn_cases (room : Nat) {n : Node} {claim : Claim} (verdict : Verdict)
    {objective : Objective} {block : Value} {piecework : Piecework} (epoch : UInt64)
    (consumed : List String) (ts : String)
    (known : (Log.objectives n.log).get? claim.objectiveId = some objective)
    (isJob : objective.piecework = some block)
    (parses : Piecework.fromValue block = .ok piecework) :
    OnDisk (n.settleUnit claim verdict objective piecework consumed ts)
      (Stopped n claim epoch consumed ts)
      (n.settleUnitOn room claim verdict objective piecework consumed ts) := by
  unfold settleUnit settleUnitOn
  by_cases hkeys : piecework.unitKeys claim.artifact = []
  · rw [if_pos hkeys, if_pos hkeys]
    exact .inl rfl
  rw [if_neg hkeys, if_neg hkeys]
  dsimp only
  generalize hnovel : ((piecework.unitKeys claim.artifact).filter fun key =>
    key ∉ consumed && key ∉ (n.paidUnitKeys objective piecework).2) = novel
  by_cases hempty : novel = []
  · rw [if_pos hempty, if_pos hempty]
    exact .inl rfl
  rw [if_neg hempty, if_neg hempty]
  generalize piecework.payoutFor novel.length _ = reward
  by_cases hzero : reward = 0
  · rw [if_pos hzero, if_pos hzero]
    exact .inl rfl
  rw [if_neg hzero, if_neg hzero]
  unfold payOn
  obtain happend | hfails := tryAppend_cases room (n.paidUnitKeys objective piecework).1
    .settlement (settlementValue claim.objectiveId claim.id claim.submitter reward) ts
  · rw [happend]
    exact .inl rfl
  · rw [hfails]
    exact .inr ⟨rfl, .scanned known isJob parses⟩

theorem settleWholeOn_cases (room : Nat) (n : Node) (claim : Claim) (verdict : Verdict)
    (objective : Objective) (epoch : UInt64) (consumed : List String) (ts : String) :
    OnDisk (n.settleWhole claim verdict objective epoch consumed ts)
      (Stopped n claim epoch consumed ts)
      (n.settleWholeOn room claim verdict objective epoch consumed ts) := by
  unfold settleWhole settleWholeOn
  split_ifs
  · exact .inl rfl
  · exact .inl rfl
  · unfold payOn
    obtain happend | hfails := tryAppend_cases room n .settlement
      (settlementValue claim.objectiveId claim.id claim.submitter objective.reward) ts
    · rw [happend]
      exact .inl rfl
    · rw [hfails]
      exact .inr ⟨rfl, .before⟩

/-- A move on a disk that fails: the frontier may be there without its
payment. -/
theorem recordMoveOn_cases (room : Nat) (n : Node) (claim : Claim) (score : Int64)
    (reward paidCumulative : UInt64) (ts : String) :
    n.recordMoveOn room claim score reward paidCumulative ts =
        (n.recordMove claim score reward paidCumulative ts, .ok ()) ∨
      n.recordMoveOn room claim score reward paidCumulative ts = (n, .error .ledger) ∨
      0 < reward ∧ n.recordMoveOn room claim score reward paidCumulative ts =
        (n.advance claim score paidCumulative ts, .error .ledger) := by
  unfold recordMoveOn recordMove advanceOn
  obtain happend | hfails := tryAppend_cases room n .frontier (FrontierEntry.toValue
    ⟨claim.objectiveId, claim.id, claim.submitter, score, paidCumulative⟩) ts
  · rw [happend]
    dsimp only
    split_ifs with hreward
    · unfold payOn
      obtain hpaid | hunpaid := tryAppend_cases room (n.append .frontier (FrontierEntry.toValue
        ⟨claim.objectiveId, claim.id, claim.submitter, score, paidCumulative⟩) ts) .settlement
        (settlementValue claim.objectiveId claim.id claim.submitter reward) ts
      · exact .inl hpaid
      · exact .inr (.inr ⟨hreward, hunpaid⟩)
    · exact .inl rfl
  · rw [hfails]
    exact .inr (.inl rfl)

/-! ## A claim, by its objective -/

section Rules

variable {n : Node} {claim : Claim} {objective : Objective} {block : Value}
  (known : (Log.objectives n.log).get? claim.objectiveId = some objective)

include known

theorem settleOne_ratchet {ratchet : Ratchet} {held : Option FrontierEntry}
    (isRatchet : objective.ratchet = some block) (parses : Ratchet.fromValue block = .ok ratchet)
    (frontier : Log.latestFrontier n.log claim.objectiveId = .ok held) (epoch : UInt64)
    (consumed : List String) (ts : String) :
    n.settleOne claim epoch consumed ts =
      n.settleImprovement claim (n.settlingVerdict claim) ratchet held ts := by
  unfold settleOne
  simp only [known, isRatchet, parses, frontier]

theorem settleOne_unit {piecework : Piecework} (noRatchet : objective.ratchet = none)
    (isJob : objective.piecework = some block) (parses : Piecework.fromValue block = .ok piecework)
    (epoch : UInt64) (consumed : List String) (ts : String) :
    n.settleOne claim epoch consumed ts =
      n.settleUnit claim (n.settlingVerdict claim) objective piecework consumed ts := by
  unfold settleOne
  simp only [known, noRatchet, isJob, parses]

theorem settleOne_whole (noRatchet : objective.ratchet = none)
    (noPiecework : objective.piecework = none) (epoch : UInt64) (consumed : List String)
    (ts : String) :
    n.settleOne claim epoch consumed ts =
      n.settleWhole claim (n.settlingVerdict claim) objective epoch consumed ts := by
  unfold settleOne
  simp only [known, noRatchet, noPiecework]

end Rules

theorem settleImprovementOn_cases (room : Nat) {n : Node} {claim : Claim} {objective : Objective}
    {block : Value} {ratchet : Ratchet} {held : Option FrontierEntry} (epoch : UInt64)
    (consumed : List String) (ts : String)
    (known : (Log.objectives n.log).get? claim.objectiveId = some objective)
    (isRatchet : objective.ratchet = some block) (parses : Ratchet.fromValue block = .ok ratchet)
    (frontier : Log.latestFrontier n.log claim.objectiveId = .ok held) :
    OnDisk (n.settleOne claim epoch consumed ts) (Stopped n claim epoch consumed ts)
      (n.settleImprovementOn room claim (n.settlingVerdict claim) ratchet held ts) := by
  have hone := settleOne_ratchet known isRatchet parses frontier epoch consumed ts
  unfold settleImprovement at hone
  unfold settleImprovementOn
  cases hscores : (n.settlingVerdict claim).score with
  | none =>
    rw [hscores] at hone
    rw [hone]
    exact .inl rfl
  | some score =>
    rw [hscores] at hone
    dsimp only at hone ⊢
    generalize ratchet.stall (held.map FrontierEntry.score) score = stalls at hone ⊢
    generalize ratchet.payout (held.map FrontierEntry.score) score = pays at hone ⊢
    cases stalls with
    | some stall =>
      rw [hone]
      exact .inl rfl
    | none =>
      cases pays with
      | error error =>
        rw [hone]
        exact .inl rfl
      | ok reward =>
        dsimp only at hone ⊢
        unfold settleMove at hone
        unfold settleMoveOn
        cases hadds : paidAfter held reward with
        | none =>
          rw [hadds] at hone
          rw [hone]
          exact .inl rfl
        | some paidCumulative =>
          rw [hadds] at hone
          dsimp only at hone ⊢
          obtain hmove | hfails | ⟨hreward, hhalf⟩ :=
            recordMoveOn_cases room n claim score reward paidCumulative ts
          · rw [hmove, hone]
            exact .inl rfl
          · rw [hfails]
            exact .inr ⟨rfl, .before⟩
          · rw [hhalf]
            refine .inr ⟨rfl, .moved known isRatchet parses frontier hscores hadds hreward ?_⟩
            rw [hone]
            exact if_pos hreward

theorem settleOneOn_cases (room : Nat) (n : Node) (claim : Claim) (epoch : UInt64)
    (consumed : List String) (ts : String) :
    OnDisk (n.settleOne claim epoch consumed ts) (Stopped n claim epoch consumed ts)
      (n.settleOneOn room claim epoch consumed ts) := by
  cases hknown : (Log.objectives n.log).get? claim.objectiveId with
  | none =>
    left
    unfold settleOne settleOneOn
    simp only [hknown, Except.mapError]
  | some objective =>
    cases hratchet : objective.ratchet with
    | some block =>
      cases hparses : Ratchet.fromValue block with
      | error error =>
        left
        unfold settleOne settleOneOn
        simp only [hknown, hratchet, hparses, Except.mapError]
      | ok ratchet =>
        cases hheld : Log.latestFrontier n.log claim.objectiveId with
        | error error =>
          left
          unfold settleOne settleOneOn
          simp only [hknown, hratchet, hparses, hheld, Except.mapError]
        | ok held =>
          unfold settleOneOn
          simp only [hknown, hratchet, hparses, hheld]
          exact settleImprovementOn_cases room epoch consumed ts hknown hratchet hparses
            hheld
    | none =>
      cases hpiecework : objective.piecework with
      | some block =>
        cases hparses : Piecework.fromValue block with
        | error error =>
          left
          unfold settleOne settleOneOn
          simp only [hknown, hratchet, hpiecework, hparses, Except.mapError]
        | ok piecework =>
          rw [settleOne_unit hknown hratchet hpiecework hparses]
          unfold settleOneOn
          simp only [hknown, hratchet, hpiecework, hparses]
          exact settleUnitOn_cases room _ epoch consumed ts hknown hpiecework hparses
      | none =>
        rw [settleOne_whole hknown hratchet hpiecework]
        unfold settleOneOn
        simp only [hknown, hratchet, hpiecework]
        exact settleWholeOn_cases room n claim _ objective epoch consumed ts

theorem settleBatchOn_cases (room : Nat) (epoch : UInt64) (ts : String) :
    ∀ (batch : List Claim) (n : Node) (consumed : List String),
      OnDisk (settleBatch epoch ts n consumed batch) (StoppedIn epoch ts n consumed batch)
        (settleBatchOn room epoch ts n consumed batch) := by
  intro batch
  induction batch with
  | nil =>
    intro n consumed
    exact .inl rfl
  | cons claim rest ih =>
    intro n consumed
    have hone := settleOneOn_cases room n claim epoch consumed ts
    have hlater := @StoppedIn.later _ epoch ts n
    unfold settleBatch settleBatchOn
    obtain heq | ⟨hfails, hstops⟩ := hone
    · rw [heq]
      cases hresult : n.settleOne claim epoch consumed ts with
      | mk n' result =>
        have hlater' := fun m outcome (hok : result = .ok outcome) =>
          @hlater m consumed claim rest outcome (by rw [hresult]; exact hok)
        rw [hresult] at hlater'
        cases result with
        | error error => exact .inl rfl
        | ok outcome =>
          dsimp only [Except.mapError]
          have hrest := ih n' (n'.consume claim outcome.settled consumed)
          obtain heq' | ⟨hfails', hstops'⟩ := hrest
          · rw [heq']
            cases settleBatch epoch ts n' (n'.consume claim outcome.settled consumed) rest with
            | mk n'' result' => cases result' <;> exact .inl rfl
          · right
            cases hpart : settleBatchOn room epoch ts n'
                (n'.consume claim outcome.settled consumed) rest with
            | mk m part =>
              rw [hpart] at hfails' hstops'
              dsimp only at hfails' hstops'
              subst hfails'
              exact ⟨rfl, hlater' m outcome rfl hstops'⟩
    · right
      cases hpart : n.settleOneOn room claim epoch consumed ts with
      | mk m part =>
        rw [hpart] at hfails hstops
        dsimp only at hfails hstops
        subst hfails
        exact ⟨rfl, .atClaim hstops⟩

/-- A batch whose record is refused stops after its last claim. -/
theorem stoppedIn_record {epoch : UInt64} {ts : String} (batch : List Claim) :
    ∀ (n : Node) (consumed : List String) (outcomes : List Outcome),
      (settleBatch epoch ts n consumed batch).2 = .ok outcomes →
      StoppedIn epoch ts n consumed batch (settleBatch epoch ts n consumed batch).1 := by
  induction batch with
  | nil =>
    intro n consumed _ _
    exact .atRecord
  | cons claim rest ih =>
    intro n consumed outcomes hok
    cases hone : (n.settleOne claim epoch consumed ts).2 with
    | error error =>
      rw [settleBatch] at hok
      generalize n.settleOne claim epoch consumed ts = res at hone hok
      obtain ⟨n', result⟩ := res
      subst hone
      cases hok
    | ok outcome =>
      obtain ⟨more, hmore⟩ : ∃ more, (settleBatch epoch ts (n.settleOne claim epoch consumed ts).1
          ((n.settleOne claim epoch consumed ts).1.consume claim outcome.settled consumed)
          rest).2 = .ok more := by
        rw [settleBatch] at hok
        generalize n.settleOne claim epoch consumed ts = res at hone hok ⊢
        obtain ⟨n', result⟩ := res
        subst hone
        dsimp only at hok ⊢
        generalize settleBatch epoch ts n' (n'.consume claim outcome.settled consumed) rest =
          res' at hok ⊢
        obtain ⟨n'', result'⟩ := res'
        cases result' with
        | error error => cases hok
        | ok more => exact ⟨more, rfl⟩
      rw [settleBatch_cons rest hone]
      exact .later hone (ih _ _ more hmore)

theorem settleEpochOn_cases (room : Nat) (n : Node) (epoch : UInt64) (ts : String) :
    OnDisk (n.settleEpoch epoch ts) (StoppedIn epoch ts n [] (Log.batchOf n.log epoch))
      (n.settleEpochOn room epoch ts) := by
  have hbatch := settleBatchOn_cases room epoch ts (Log.batchOf n.log epoch) n []
  have hrecord : ∀ outcomes, (settleBatch epoch ts n [] (Log.batchOf n.log epoch)).2 = .ok outcomes →
      StoppedIn epoch ts n [] (Log.batchOf n.log epoch)
        (settleBatch epoch ts n [] (Log.batchOf n.log epoch)).1 :=
    stoppedIn_record (Log.batchOf n.log epoch) n []
  unfold settleEpoch settleEpochOn
  dsimp only
  obtain heq | ⟨hfails, hstops⟩ := hbatch
  · rw [heq]
    cases hres : settleBatch epoch ts n [] (Log.batchOf n.log epoch) with
    | mk m result =>
      rw [hres] at hrecord
      cases result with
      | error error => exact .inl rfl
      | ok outcomes =>
        dsimp only [Except.mapError]
        obtain happend | hrefused := tryAppend_cases room m .batch (batchValue epoch
          (Log.anchorOfEpoch n.log epoch) ((Log.batchOf n.log epoch).map Claim.id)) ts
        · rw [happend]
          exact .inl rfl
        · rw [hrefused]
          exact .inr ⟨rfl, hrecord outcomes rfl⟩
  · right
    cases hpart : settleBatchOn room epoch ts n [] (Log.batchOf n.log epoch) with
    | mk m part =>
      rw [hpart] at hfails hstops
      dsimp only at hfails hstops
      subst hfails
      exact ⟨rfl, hstops⟩

theorem settleEpochsOn_cases (room : Nat) (ts : String) :
    ∀ (epochs : List UInt64) (n : Node),
      OnDisk (settleEpochs ts n epochs) (StoppedAt ts n epochs)
        (settleEpochsOn room ts n epochs) := by
  intro epochs
  induction epochs with
  | nil =>
    intro n
    exact .inl rfl
  | cons epoch rest ih =>
    intro n
    have hone := settleEpochOn_cases room n epoch ts
    have hlater := @StoppedAt.later _ ts n
    unfold settleEpochs settleEpochsOn
    obtain heq | ⟨hfails, hstops⟩ := hone
    · rw [heq]
      cases hresult : n.settleEpoch epoch ts with
      | mk n' result =>
        have hlater' := fun m outcomes (hok : result = .ok outcomes) =>
          @hlater m epoch rest outcomes (by rw [hresult]; exact hok)
        rw [hresult] at hlater'
        cases result with
        | error error => exact .inl rfl
        | ok outcomes =>
          dsimp only [Except.mapError]
          obtain heq' | ⟨hfails', hstops'⟩ := ih n'
          · rw [heq']
            cases settleEpochs ts n' rest with
            | mk n'' result' => cases result' <;> exact .inl rfl
          · right
            cases hpart : settleEpochsOn room ts n' rest with
            | mk m part =>
              rw [hpart] at hfails' hstops'
              dsimp only at hfails' hstops'
              subst hfails'
              exact ⟨rfl, hlater' m outcomes rfl hstops'⟩
    · right
      cases hpart : n.settleEpochOn room epoch ts with
      | mk m part =>
        rw [hpart] at hfails hstops
        dsimp only at hfails hstops
        subst hfails
        exact ⟨rfl, .inEpoch hstops⟩

/-- A drain on a disk that fails is the drain, or it stops in a batch. -/
theorem settleDueOn_cases (room : Nat) (n : Node) (now : UInt64) (ts : String) :
    OnDisk (n.settleDue now ts)
      (StoppedAt ts { n with drains := n.drains ++ [⟨n.log.length, now⟩] }
        (Log.dueEpochs n.log now)) (n.settleDueOn room now ts) :=
  settleEpochsOn_cases room ts _ _

end Node

end Cairn.Ports
