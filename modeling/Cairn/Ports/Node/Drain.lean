import Cairn.Ports.Node.Settle
import Cairn.Verified.AppendOnly

/-!
# What a drain does

One case per thing settling a claim can do, with everything it found; the
rules of the drain's loops are stated over these cases.
-/

namespace Cairn.Ports

open Cairn.Verified
open Cairn.Verified.AppendOnly
open Cairn.Ports.Canonical

namespace Node

variable [World]

@[simp] theorem log_append (n : Node) (kind : EntryKind) (payload : Value) (ts : String) :
    (n.append kind payload ts).log = n.log ++ [n.ledger.nextEntry kind.asStr payload ts] := rfl

@[simp] theorem counted_append (n : Node) (kind : EntryKind) (payload : Value) (ts : String) :
    (n.append kind payload ts).counted = n.counted := rfl

@[simp] theorem drains_append (n : Node) (kind : EntryKind) (payload : Value) (ts : String) :
    (n.append kind payload ts).drains = n.drains := rfl

@[simp] theorem pieceworkIndex_append (n : Node) (kind : EntryKind) (payload : Value)
    (ts : String) : (n.append kind payload ts).pieceworkIndex = n.pieceworkIndex := rfl

@[simp] theorem kind_nextEntry (l : Ledger) (kind : String) (payload : Value) (ts : String) :
    (l.nextEntry kind payload ts).kind = kind := rfl

@[simp] theorem payload_nextEntry (l : Ledger) (kind : String) (payload : Value) (ts : String) :
    (l.nextEntry kind payload ts).payload = payload := rfl

@[simp] theorem ts_nextEntry (l : Ledger) (kind : String) (payload : Value) (ts : String) :
    (l.nextEntry kind payload ts).ts = ts := rfl

@[simp] theorem seq_nextEntry (l : Ledger) (kind : String) (payload : Value) (ts : String) :
    (l.nextEntry kind payload ts).seq = UInt64.ofNat l.entries.length := rfl

/-- Looking units up writes nothing. -/
theorem paidUnitKeys_frame (n : Node) (objective : Objective) (piecework : Piecework) :
    ∃ index, (n.paidUnitKeys objective piecework).1 = { n with pieceworkIndex := index } := by
  unfold paidUnitKeys
  cases objective.piecework with
  | none => exact ⟨n.pieceworkIndex, rfl⟩
  | some block => exact ⟨_, rfl⟩

@[simp] theorem log_paidUnitKeys (n : Node) (objective : Objective) (piecework : Piecework) :
    (n.paidUnitKeys objective piecework).1.log = n.log := by
  obtain ⟨index, h⟩ := n.paidUnitKeys_frame objective piecework
  rw [h]
  rfl

/-! ## The cases of settling a claim -/

/-- What settling a claim can do. -/
inductive Settled (n : Node) (claim : Claim) (epoch : UInt64) (consumed : List String)
    (ts : String) : Node × Except RuleViolation Outcome → Prop where
  /-- The claim earns nothing. -/
  | unpaid {outcome : Outcome} (unsettled : outcome.settled = false) :
      Settled n claim epoch consumed ts (n, .ok outcome)
  /-- The claim earns nothing, which the index of its job was asked for. -/
  | unpaidUnit {objective : Objective} {block : Value} {piecework : Piecework} {outcome : Outcome}
      (known : (Log.objectives n.log).get? claim.objectiveId = some objective)
      (isJob : objective.piecework = some block) (parses : Piecework.fromValue block = .ok piecework)
      (unsettled : outcome.settled = false) :
      Settled n claim epoch consumed ts ((n.paidUnitKeys objective piecework).1, .ok outcome)
  /-- The first settlement of an objective that pays once. -/
  | whole {objective : Objective} {outcome : Outcome}
      (known : (Log.objectives n.log).get? claim.objectiveId = some objective)
      (noRatchet : objective.ratchet = none) (noPiecework : objective.piecework = none)
      (notConsumed : claim.artifactId ∉ consumed)
      (notEarlier : claim.artifactId ∉ Log.artifactIdsBefore n.log claim.objectiveId epoch)
      (fresh : Log.settlementOf n.log claim.objectiveId = none) (settled : outcome.settled = true) :
      Settled n claim epoch consumed ts (n.pay claim objective.reward ts, .ok outcome)
  /-- A score that moves the frontier. -/
  | improved {objective : Objective} {block : Value} {ratchet : Ratchet}
      {held : Option FrontierEntry} {score : Int64} {reward paidCumulative : UInt64}
      {outcome : Outcome}
      (known : (Log.objectives n.log).get? claim.objectiveId = some objective)
      (isRatchet : objective.ratchet = some block) (parses : Ratchet.fromValue block = .ok ratchet)
      (frontier : Log.latestFrontier n.log claim.objectiveId = .ok held)
      (improves : ratchet.improves (held.map FrontierEntry.score) score = true)
      (pays : ratchet.payout (held.map FrontierEntry.score) score = .ok reward)
      (adds : paidAfter held reward = some paidCumulative)
      (settled : outcome.settled = true) :
      Settled n claim epoch consumed ts
        (n.recordMove claim score reward paidCumulative ts, .ok outcome)
  /-- The payout of a move cannot be computed. -/
  | overflowed {objective : Objective} {block : Value} {ratchet : Ratchet}
      {held : Option FrontierEntry} {score : Int64} {error : RuleViolation}
      (known : (Log.objectives n.log).get? claim.objectiveId = some objective)
      (isRatchet : objective.ratchet = some block) (parses : Ratchet.fromValue block = .ok ratchet)
      (frontier : Log.latestFrontier n.log claim.objectiveId = .ok held)
      (improves : ratchet.improves (held.map FrontierEntry.score) score = true)
      (fails : ∀ reward, ratchet.payout (held.map FrontierEntry.score) score = .ok reward →
        paidAfter held reward = none) :
      Settled n claim epoch consumed ts (n, .error error)
  /-- Units nobody was paid for. -/
  | unit {objective : Objective} {block : Value} {piecework : Piecework} {novel : List String}
      {reward : UInt64} {outcome : Outcome}
      (known : (Log.objectives n.log).get? claim.objectiveId = some objective)
      (noRatchet : objective.ratchet = none)
      (isJob : objective.piecework = some block) (parses : Piecework.fromValue block = .ok piecework)
      (counts : novel = (piecework.unitKeys claim.artifact).filter fun key =>
        key ∉ consumed && key ∉ (n.paidUnitKeys objective piecework).2)
      (pays : reward = piecework.payoutFor novel.length
        ((tryUInt64 (objective.reward.toNat - Log.paidTotal n.log claim.objectiveId)).getD 0))
      (settled : outcome.settled = true) :
      Settled n claim epoch consumed ts
        (((n.paidUnitKeys objective piecework).1.pay claim reward ts).count claim objective novel,
          .ok outcome)

omit [World] in
theorem stall_eq_none {r : Ratchet} {old : Option Int64} {new : Int64} (h : r.stall old new = none) :
    r.improves old new = true := by
  by_cases himproves : r.improves old new = true
  · exact himproves
  unfold Ratchet.stall at h
  rw [if_neg himproves] at h
  dsimp only at h
  split_ifs at h

theorem settleImprovement_settled {n : Node} {claim : Claim} {objective : Objective}
    {block : Value} {ratchet : Ratchet} {held : Option FrontierEntry} (verdict : Verdict)
    (epoch : UInt64) (consumed : List String) (ts : String)
    (known : (Log.objectives n.log).get? claim.objectiveId = some objective)
    (isRatchet : objective.ratchet = some block) (parses : Ratchet.fromValue block = .ok ratchet)
    (frontier : Log.latestFrontier n.log claim.objectiveId = .ok held) :
    Settled n claim epoch consumed ts (n.settleImprovement claim verdict ratchet held ts) := by
  unfold settleImprovement
  split
  · exact .unpaid rfl
  rename_i score hscore
  -- the amounts are abstracted first: the arithmetic in them is not to be unfolded
  generalize hpays : ratchet.payout (held.map FrontierEntry.score) score = pays
  generalize hstalls : ratchet.stall (held.map FrontierEntry.score) score = stalls
  cases stalls with
  | some stall => exact .unpaid rfl
  | none =>
    have himproves := stall_eq_none hstalls
    cases pays with
    | error error =>
      exact .overflowed known isRatchet parses frontier himproves (by simp [hpays])
    | ok reward =>
      show Settled n claim epoch consumed ts
        (n.settleMove claim verdict ratchet held score reward ts)
      unfold settleMove
      cases hadds : paidAfter held reward with
      | none =>
        refine .overflowed known isRatchet parses frontier himproves fun reward' h => ?_
        rw [hpays] at h
        cases h
        exact hadds
      | some paidCumulative =>
        exact .improved known isRatchet parses frontier himproves hpays hadds rfl

theorem settleUnit_settled {n : Node} {claim : Claim} {objective : Objective} {block : Value}
    {piecework : Piecework} (verdict : Verdict) (epoch : UInt64) (consumed : List String)
    (ts : String) (known : (Log.objectives n.log).get? claim.objectiveId = some objective)
    (noRatchet : objective.ratchet = none) (isJob : objective.piecework = some block)
    (parses : Piecework.fromValue block = .ok piecework) :
    Settled n claim epoch consumed ts
      (n.settleUnit claim verdict objective piecework consumed ts) := by
  unfold settleUnit
  simp only [log_paidUnitKeys]
  by_cases hkeys : piecework.unitKeys claim.artifact = []
  · rw [if_pos hkeys]
    exact .unpaid rfl
  rw [if_neg hkeys]
  by_cases hnovel : ((piecework.unitKeys claim.artifact).filter fun key =>
      key ∉ consumed && key ∉ (n.paidUnitKeys objective piecework).2) = []
  · rw [if_pos hnovel]
    exact .unpaidUnit known isJob parses rfl
  rw [if_neg hnovel]
  split
  · exact .unpaidUnit known isJob parses rfl
  · exact .unit known noRatchet isJob parses rfl rfl rfl

theorem settleOne_settled (n : Node) (claim : Claim) (epoch : UInt64) (consumed : List String)
    (ts : String) : Settled n claim epoch consumed ts (n.settleOne claim epoch consumed ts) := by
  unfold settleOne
  simp only
  cases hknown : (Log.objectives n.log).get? claim.objectiveId with
  | none => exact .unpaid rfl
  | some objective =>
    simp only
    cases hratchet : objective.ratchet with
    | some block =>
      simp only
      cases hparses : Ratchet.fromValue block with
      | error error => exact .unpaid rfl
      | ok ratchet =>
        simp only
        cases hheld : Log.latestFrontier n.log claim.objectiveId with
        | error error => exact .unpaid rfl
        | ok held =>
          exact settleImprovement_settled _ epoch consumed ts hknown hratchet hparses hheld
    | none =>
      cases hpiecework : objective.piecework with
      | some block =>
        simp only
        cases hparses : Piecework.fromValue block with
        | error error => exact .unpaid rfl
        | ok piecework =>
          exact settleUnit_settled _ epoch consumed ts hknown hratchet hpiecework hparses
      | none =>
        simp only [settleWhole]
        split_ifs with hdup hdone
        · exact .unpaid rfl
        · exact .unpaid rfl
        · rw [not_or] at hdup
          rw [Option.not_isSome_iff_eq_none] at hdone
          exact .whole hknown hratchet hpiecework hdup.1 hdup.2 hdone rfl

/-! ## The loops -/

/-- What settling the claims of a batch keeps, the loop keeps. -/
theorem settleBatch_induction {P : Node → Prop} {epoch : UInt64} {ts : String} :
    ∀ (batch : List Claim)
      (_ : ∀ n, ∀ claim ∈ batch, ∀ consumed, P n → P (n.settleOne claim epoch consumed ts).1)
      (n : Node) (consumed : List String), P n → P (settleBatch epoch ts n consumed batch).1 := by
  intro batch
  induction batch with
  | nil =>
    intro _ n consumed hn
    exact hn
  | cons claim rest ih =>
    intro settle n consumed hn
    have hstep := settle n claim (by simp) consumed hn
    have hloop := ih fun m claim' hmem => settle m claim' (by simp [hmem])
    unfold settleBatch
    cases hone : n.settleOne claim epoch consumed ts with
    | mk m result =>
      rw [hone] at hstep
      cases result with
      | error error => exact hstep
      | ok outcome =>
        have hrest := hloop m (m.consume claim outcome.settled consumed) hstep
        simp only
        cases hres : settleBatch epoch ts m (m.consume claim outcome.settled consumed) rest with
        | mk m' result' =>
          rw [hres] at hrest
          cases result' <;> exact hrest

/-! ## What a drain writes -/

/-- The kinds settling a claim writes. -/
def IsPayment (e : Entry) : Prop :=
  e.kind = EntryKind.settlement.asStr ∨ e.kind = EntryKind.frontier.asStr

/-- The kinds a drain writes. -/
def IsPayout (e : Entry) : Prop := IsPayment e ∨ e.kind = EntryKind.batch.asStr

omit [World] in
/-- The queries of another kind see nothing of a drain. -/
theorem ofKind_payouts {log log' : List Entry} (h : ExtendsBy IsPayout log log')
    {kind : EntryKind} (hkind : kind ≠ .settlement ∧ kind ≠ .frontier ∧ kind ≠ .batch) :
    Log.ofKind log' kind = Log.ofKind log kind := by
  obtain ⟨new, rfl, hnew⟩ := h
  have hnone : Log.ofKind new kind = [] := by
    apply Log.ofKind_eq_nil
    intro e he heq
    have hpayout := hnew e he
    unfold IsPayout IsPayment at hpayout
    simp only [heq, EntryKind.asStr_inj] at hpayout
    tauto
  rw [Log.ofKind_append, hnone, List.append_nil]

theorem settleOne_log (n : Node) (claim : Claim) (epoch : UInt64) (consumed : List String)
    (ts : String) :
    ExtendsBy IsPayment n.log (n.settleOne claim epoch consumed ts).1.log := by
  generalize hres : n.settleOne claim epoch consumed ts = res
  have hcases := n.settleOne_settled claim epoch consumed ts
  rw [hres] at hcases
  cases hcases with
  | unpaid => exact .refl _
  | unpaidUnit =>
    rw [log_paidUnitKeys]
    exact .refl _
  | overflowed => exact .refl _
  | whole => exact (ExtendsBy.refl _).concat (.inl rfl)
  | improved =>
    unfold recordMove
    split_ifs
    · exact ((ExtendsBy.refl _).concat (.inr rfl)).concat (.inl rfl)
    · exact (ExtendsBy.refl _).concat (.inr rfl)
  | unit =>
    rw [← log_paidUnitKeys n]
    exact (ExtendsBy.refl _).concat (.inl rfl)

theorem settleBatch_log (epoch : UInt64) (ts : String) (batch : List Claim) (n : Node)
    (consumed : List String) :
    ExtendsBy IsPayment n.log (settleBatch epoch ts n consumed batch).1.log := by
  apply settleBatch_induction (P := fun m => ExtendsBy IsPayment n.log m.log)
  · intro m claim _ consumed hm
    exact hm.trans (m.settleOne_log claim epoch consumed ts)
  · exact .refl _

section Epochs

variable {P : Node → Prop} {ts : String}
  (settle : ∀ start n claim epoch consumed, claim ∈ Log.batchOf start epoch →
    ExtendsBy IsPayment start n.log → P n → P (n.settleOne claim epoch consumed ts).1)
  (batch : ∀ n epoch anchor order, P n → P (n.append .batch (batchValue epoch anchor order) ts))

include settle batch

/-- What settlements and batches keep, an epoch keeps. A claim settles on a
log that extends the one its batch was drawn from by payments. -/
theorem settleEpoch_induction {n : Node} (epoch : UInt64) (hn : P n) :
    P (n.settleEpoch epoch ts).1 := by
  have hloop := @settleBatch_induction _ (fun m => ExtendsBy IsPayment n.log m.log ∧ P m)
    epoch ts (Log.batchOf n.log epoch)
    (fun m claim hmem consumed hm =>
      ⟨hm.1.trans (m.settleOne_log claim epoch consumed ts),
        settle n.log m claim epoch consumed hmem hm.1 hm.2⟩) n [] ⟨.refl _, hn⟩
  unfold settleEpoch
  simp only
  cases hb : settleBatch epoch ts n [] (Log.batchOf n.log epoch) with
  | mk m result =>
    rw [hb] at hloop
    cases result with
    | error error => exact hloop.2
    | ok outcomes => exact batch m epoch _ _ hloop.2

theorem settleEpochs_induction (epochs : List UInt64) {n : Node} (hn : P n) :
    P (settleEpochs ts n epochs).1 := by
  induction epochs generalizing n with
  | nil => exact hn
  | cons epoch rest ih =>
    have hone := settleEpoch_induction settle batch epoch hn
    unfold settleEpochs
    cases he : n.settleEpoch epoch ts with
    | mk m result =>
      rw [he] at hone
      cases result with
      | error error => exact hone
      | ok outcomes =>
        have hrest := ih hone
        simp only
        cases hr : settleEpochs ts m rest with
        | mk m' result' =>
          rw [hr] at hrest
          cases result' <;> exact hrest

end Epochs

/-- What settlements and batches keep, a drain keeps. -/
theorem settleDue_induction {P : Node → Prop} {now : UInt64} {ts : String}
    (called : ∀ n call, P n → P { n with drains := n.drains ++ [call] })
    (settle : ∀ start n claim epoch consumed, claim ∈ Log.batchOf start epoch →
      ExtendsBy IsPayment start n.log → P n → P (n.settleOne claim epoch consumed ts).1)
    (batch : ∀ n epoch anchor order, P n → P (n.append .batch (batchValue epoch anchor order) ts))
    {n : Node} (hn : P n) : P (n.settleDue now ts).1 :=
  settleEpochs_induction settle batch _ (called n _ hn)

theorem settleDue_log (n : Node) (now : UInt64) (ts : String) :
    ExtendsBy IsPayout n.log (n.settleDue now ts).1.log := by
  apply settleDue_induction (P := fun m => ExtendsBy IsPayout n.log m.log)
  · intro m call hm
    exact hm
  · intro start m claim epoch consumed _ _ hm
    exact hm.trans ((m.settleOne_log claim epoch consumed ts).mono fun e he => .inl he)
  · intro m epoch anchor order hm
    exact hm.concat (.inr rfl)
  · exact .refl _

/-- A property of logs that every append keeps, settling a claim keeps. -/
theorem settleOne_log_induction {P : List Entry → Prop}
    (append : ∀ (m : Node) kind payload ts, P m.log → P (m.append kind payload ts).log)
    {n : Node} (claim : Claim) (epoch : UInt64) (consumed : List String) (ts : String)
    (hn : P n.log) : P (n.settleOne claim epoch consumed ts).1.log := by
  generalize hres : n.settleOne claim epoch consumed ts = res
  have hcases := n.settleOne_settled claim epoch consumed ts
  rw [hres] at hcases
  cases hcases with
  | unpaid => exact hn
  | unpaidUnit =>
    rw [log_paidUnitKeys]
    exact hn
  | overflowed => exact hn
  | whole => exact append n _ _ _ hn
  | improved =>
    unfold recordMove
    split_ifs
    · exact append _ _ _ _ (append n _ _ _ hn)
    · exact append n _ _ _ hn
  | unit =>
    apply append
    rw [log_paidUnitKeys]
    exact hn

/-- A property of logs that every append keeps, a drain keeps. -/
theorem settleDue_log_induction {P : List Entry → Prop}
    (append : ∀ (m : Node) kind payload ts, P m.log → P (m.append kind payload ts).log)
    {n : Node} (now : UInt64) (ts : String) (hn : P n.log) : P (n.settleDue now ts).1.log := by
  apply settleDue_induction (P := fun m => P m.log)
  · intro m call hm
    exact hm
  · intro start m claim epoch consumed _ _ hm
    exact settleOne_log_induction append claim epoch consumed ts hm
  · intro m epoch anchor order hm
    exact append m _ _ _ hm
  · exact hn

end Node

end Cairn.Ports
