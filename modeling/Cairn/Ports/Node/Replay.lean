import Cairn.Ports.Node.Interrupted
import Cairn.Ports.Node.Twin

/-!
# Settling a batch a second time

A drain that stopped left part of a batch settled. Settled again from its
start, the claims that were settled earn nothing more: their objective is
paid, their units are paid, their score is at the frontier. The rest of the
batch settles as it would have.
-/

namespace Cairn.Ports

open Cairn.Verified
open Cairn.Verified.AppendOnly
open Cairn.Ports.Canonical

/-- A decoded objective has one rule for its pool. -/
theorem Objective.noRatchet_of_fromValue {raw : Value} {o : Objective} {block : Value}
    (h : Objective.fromValue raw = .ok o) (hblock : o.piecework = some block) : o.ratchet = none := by
  have hvalid := Objective.fromValue_valid h
  rw [← Option.not_isSome_iff_eq_none]
  intro hratchet
  have hboth : (o.piecework.isSome && o.ratchet.isSome) = true := by
    rw [hblock, hratchet]
    rfl
  -- every way past the check comes to `pieceworkWithRatchet`
  unfold Objective.validate at hvalid
  simp only [bind, Except.bind, if_pos hboth, throw, throwThe, MonadExceptOf.throw] at hvalid
  generalize checkBlock "ratchet" o.ratchet = checkRatchet at hvalid
  generalize checkBlock "piecework" o.piecework = checkPiecework at hvalid
  cases checkRatchet <;> cases checkPiecework <;> repeat' split at hvalid
  all_goals cases hvalid

variable {p : Piecework}

theorem Piecework.fromValue_valid {value : Value} (h : Piecework.fromValue value = .ok p) :
    p.validate = .ok () := by
  unfold Piecework.fromValue at h
  by_cases hobject : value.asObject.isNone
  · rw [if_pos hobject] at h
    cases h
  · rw [if_neg hobject] at h
    simp only [bind_eq_ok] at h
    obtain ⟨unitPrice, -, units, -, key, -, items, -, _, hvalid, hp⟩ := h
    cases hp
    exact hvalid

/-- A piecework job pays something for every unit. -/
theorem Piecework.unitPrice_ne_zero {value : Value} (h : Piecework.fromValue value = .ok p) :
    p.unitPrice ≠ 0 := by
  have hvalid := Piecework.fromValue_valid h
  intro hzero
  unfold Piecework.validate at hvalid
  rw [if_pos hzero] at hvalid
  cases hvalid

theorem Piecework.payoutFor_pos (hprice : p.unitPrice ≠ 0) {novel : Nat} (hnovel : 0 < novel)
    {remaining : UInt64} (hleft : remaining ≠ 0) : p.payoutFor novel remaining ≠ 0 := by
  have hprice' : 0 < p.unitPrice.toNat := by
    rw [Nat.pos_iff_ne_zero]
    exact fun h => hprice (UInt64.toNat_inj.mp h)
  have hleft' : 0 < remaining.toNat := by
    rw [Nat.pos_iff_ne_zero]
    exact fun h => hleft (UInt64.toNat_inj.mp h)
  have howed : 0 < min (p.unitPrice.toNat * novel) remaining.toNat :=
    lt_min (Nat.mul_pos hprice' hnovel) hleft'
  unfold Piecework.payoutFor
  dsimp only
  split_ifs with hfits
  · intro hzero
    have hnat := congrArg UInt64.toNat hzero
    rw [UInt64.toNat_ofNat_of_lt' hfits] at hnat
    exact absurd hnat howed.ne'
  · exact hleft

theorem Piecework.payoutFor_zero (p : Piecework) (novel : Nat) : p.payoutFor novel 0 = 0 := by
  unfold Piecework.payoutFor
  simp

namespace Log

/-- The progress of the frontier of an objective, if it can be read. -/
def heldProgress (r : Ratchet) (held : Option FrontierEntry) : Nat :=
  r.progressOf (held.map FrontierEntry.score)

/-! ## Longer logs -/

variable {P : Entry → Prop} {log log' : List Entry}

theorem settlementOf_of_extends (h : ExtendsBy P log log') {id : String}
    (hsome : (settlementOf log id).isSome) : (settlementOf log' id).isSome := by
  obtain ⟨new, rfl, -⟩ := h
  rw [← Option.ne_none_iff_isSome, ne_eq, settlementOf_eq_none] at *
  rw [settlementsOf_append, List.append_eq_nil_iff]
  exact fun hnone => hsome hnone.1

theorem settledIds_of_extends (h : ExtendsBy P log log') {id : String} (hid : id ∈ settledIds log) :
    id ∈ settledIds log' := by
  obtain ⟨new, rfl, -⟩ := h
  rw [settledIds_append]
  exact List.mem_append_left _ hid

theorem paidTotal_of_extends (h : ExtendsBy P log log') (id : String) :
    paidTotal log id ≤ paidTotal log' id := by
  obtain ⟨new, rfl, -⟩ := h
  rw [paidTotal_eq, paidTotal_eq, settlementsOf_append, List.map_append, List.sum_append]
  exact Nat.le_add_right _ _

/-! ## Payments that move on -/

section Onward

variable [Sha256]

/-- Payments that move no frontier back. -/
structure Onward (log log' : List Entry) : Prop where
  payments : ExtendsBy Node.IsPayment log log'
  frontier : ∀ id o block r held held', (objectives log).get? id = some o →
    o.ratchet = some block → Ratchet.fromValue block = .ok r →
    latestFrontier log id = .ok held → latestFrontier log' id = .ok held' →
    heldProgress r held ≤ heldProgress r held'

theorem Onward.refl (log : List Entry) : Onward log log := by
  refine ⟨.refl _, ?_⟩
  intro id o block r held held' _ _ _ hheld hheld'
  rw [hheld] at hheld'
  cases hheld'
  exact le_rfl

variable {log : List Entry}

theorem objectives_of_payments {log' : List Entry} (h : ExtendsBy Node.IsPayment log log') :
    objectives log' = objectives log := by
  unfold objectives decoded
  rw [Node.ofKind_payouts (h.mono fun _ he => .inl he) (by decide)]

theorem Onward.trans {mid log' : List Entry} (h : Onward log mid) (h' : Onward mid log')
    (hpools : Pools mid) : Onward log log' := by
  refine ⟨h.payments.trans h'.payments, ?_⟩
  intro id o block r held held' hknown hratchet hparse hheld hheld'
  have hknown' : (objectives mid).get? id = some o := by
    rw [objectives_of_payments h.payments]
    exact hknown
  obtain ⟨_, between, _, _, hbetween, -⟩ := (hpools.pool id o hknown').frontier block hratchet
  exact (h.frontier id o block r held between hknown hratchet hparse hheld hbetween).trans
    (h'.frontier id o block r between held' hknown' hratchet hparse hbetween hheld')

/-- Every ratchet has paid what its frontier says. -/
def FrontiersPaid (log : List Entry) : Prop :=
  ∀ id o held, (objectives log).get? id = some o → o.ratchet.isSome →
    latestFrontier log id = .ok held → paidTotal log id = (Node.paidBefore held).toNat

theorem Pools.frontiersPaid (h : Pools log) : FrontiersPaid log := by
  intro id o held hknown hratchet hheld
  obtain ⟨block, hblock⟩ := Option.isSome_iff_exists.mp hratchet
  obtain ⟨_, held', -, -, hheld', hpaid, -⟩ := (h.pool id o hknown).frontier block hblock
  rw [hheld] at hheld'
  cases hheld'
  exact hpaid

end Onward

end Log

namespace Node

variable [World]

open Log

/-! ## Frontiers only move on -/

theorem latestFrontier_pay (n : Node) (claim : Claim) (reward : UInt64) (ts id : String) :
    latestFrontier (n.pay claim reward ts).log id = latestFrontier n.log id := by
  have hnone : frontiersOf [n.ledger.nextEntry EntryKind.settlement.asStr
      (settlementValue claim.objectiveId claim.id claim.submitter reward) ts] id = [] := by
    simp [frontiersOf, ofKind]
  unfold pay
  rw [log_append, latestFrontier_eq, latestFrontier_eq, frontiersOf_append, hnone, List.append_nil]

theorem latestFrontier_advance (n : Node) (claim : Claim) (score : Int64) (paidCumulative : UInt64)
    (ts : String) :
    latestFrontier (n.advance claim score paidCumulative ts).log claim.objectiveId =
      .ok (some ⟨claim.objectiveId, claim.id, claim.submitter, score, paidCumulative⟩) := by
  have hentry : IsFrontier (n.ledger.nextEntry EntryKind.frontier.asStr (FrontierEntry.toValue
      ⟨claim.objectiveId, claim.id, claim.submitter, score, paidCumulative⟩) ts)
      ⟨claim.objectiveId, claim.id, claim.submitter, score, paidCumulative⟩ := ⟨rfl, rfl⟩
  exact hentry.latestFrontier rfl

theorem latestFrontier_advance_of_ne (n : Node) (claim : Claim) (score : Int64)
    (paidCumulative : UInt64) (ts : String) {id : String} (hne : claim.objectiveId ≠ id) :
    latestFrontier (n.advance claim score paidCumulative ts).log id = latestFrontier n.log id := by
  have hnone : frontiersOf [n.ledger.nextEntry EntryKind.frontier.asStr (FrontierEntry.toValue
      ⟨claim.objectiveId, claim.id, claim.submitter, score, paidCumulative⟩) ts] id = [] := by
    simp [frontiersOf, ofKind, payloadStr, FrontierEntry.toValue, Value.get_object,
      BTreeMap.lookupEntry, hne]
  unfold advance
  rw [log_append, latestFrontier_eq, latestFrontier_eq, frontiersOf_append, hnone, List.append_nil]

theorem latestFrontier_recordMove (n : Node) (claim : Claim) (score : Int64)
    (reward paidCumulative : UInt64) (ts id : String) :
    latestFrontier (n.recordMove claim score reward paidCumulative ts).log id =
      latestFrontier (n.advance claim score paidCumulative ts).log id := by
  unfold recordMove
  split_ifs
  · rw [latestFrontier_pay]
  · rfl

/-- Settling a claim moves no frontier back. -/
theorem settleOne_onward (n : Node) (claim : Claim) (epoch : UInt64) (consumed : List String)
    (ts : String) : Onward n.log (n.settleOne claim epoch consumed ts).1.log := by
  have hsame : ∀ m : Node, (∀ id, latestFrontier m.log id = latestFrontier n.log id) →
      ∀ (id : String) (r : Ratchet) (held held' : Option FrontierEntry),
        latestFrontier n.log id = .ok held → latestFrontier m.log id = .ok held' →
        heldProgress r held ≤ heldProgress r held' := by
    intro m heq id r held held' hheld hheld'
    rw [heq, hheld] at hheld'
    cases hheld'
    exact le_rfl
  refine ⟨n.settleOne_log claim epoch consumed ts, ?_⟩
  intro id o block r held held' hknown hratchet hparse hheld
  generalize hres : n.settleOne claim epoch consumed ts = res
  have hcases := n.settleOne_settled claim epoch consumed ts
  rw [hres] at hcases
  cases hcases with
  | unpaid => exact hsame _ (fun _ => rfl) id r held held' hheld
  | unpaidUnit => exact hsame _ (fun _ => by rw [log_paidUnitKeys]) id r held held' hheld
  | overflowed => exact hsame _ (fun _ => rfl) id r held held' hheld
  | whole => exact hsame _ (fun _ => latestFrontier_pay ..) id r held held' hheld
  | unit =>
    apply hsame _ _ id r held held' hheld
    intro id
    show latestFrontier ((n.paidUnitKeys _ _).1.pay claim _ ts).log id = _
    rw [latestFrontier_pay, log_paidUnitKeys]
  | @improved objective block' ratchet held'' score reward paid _ known isRatchet parses frontier
      improves =>
      intro hheld'
      rw [latestFrontier_recordMove] at hheld'
      by_cases hid : claim.objectiveId = id
      · subst hid
        rw [hknown] at known
        cases known
        rw [hratchet] at isRatchet
        cases isRatchet
        rw [hparse] at parses
        cases parses
        rw [hheld] at frontier
        cases frontier
        rw [latestFrontier_advance] at hheld'
        cases hheld'
        exact Ratchet.progress_le_of_improves improves
      · rw [latestFrontier_advance_of_ne _ _ _ _ _ hid, hheld] at hheld'
        cases hheld'
        exact le_rfl

variable {claim : Claim} {n : Node} {log log' : List Entry} {block : Value} {key : String}

/-- A score that does not improve on the frontier settles nothing. -/
theorem settleImprovement_stalls {verdict : Verdict} {r : Ratchet} {held : Option FrontierEntry}
    (ts : String) (hstalls : ∀ score, verdict.score = some score →
      r.improves (held.map FrontierEntry.score) score = false) :
    (n.settleImprovement claim verdict r held ts).1 = n ∧
      ∃ outcome, (n.settleImprovement claim verdict r held ts).2 = .ok outcome ∧
        outcome.settled = false := by
  unfold settleImprovement
  cases hscore : verdict.score with
  | none => exact ⟨rfl, _, rfl, rfl⟩
  | some score =>
    dsimp only
    cases hstall : r.stall (held.map FrontierEntry.score) score with
    | some stall => exact ⟨rfl, _, rfl, rfl⟩
    | none =>
      have himproves := stall_eq_none hstall
      rw [hstalls score hscore] at himproves
      cases himproves

/-! ## A claim settled again -/

theorem artifactIdsBefore_of_payments (h : ExtendsBy IsPayment log log') (objectiveId : String)
    (epoch : UInt64) :
    artifactIdsBefore log' objectiveId epoch = artifactIdsBefore log objectiveId epoch := by
  unfold artifactIdsBefore
  rw [claims_of_payouts (h.mono fun _ he => .inl he)]

theorem paidUnit_of_payments (h : ExtendsBy IsPayment log log') {verifier : Value}
    {piecework : Piecework} (hpaid : PaidUnit log log verifier block piecework key) :
    PaidUnit log' log' verifier block piecework key := by
  obtain ⟨p, hp, hsettled, ⟨o, hjob⟩, hkey⟩ := hpaid
  refine ⟨p, ?_, settledIds_of_extends h hsettled, ⟨o, ?_⟩, hkey⟩
  · rw [claims_of_payouts (h.mono fun _ he => .inl he)]
    exact hp
  · rw [Log.objectives_of_payments h]
    exact hjob

theorem settledIds_pay (n : Node) (claim : Claim) (reward : UInt64) (ts : String) :
    claim.id ∈ settledIds (n.pay claim reward ts).log := by
  rw [pay, log_append, settledIds_append, (isSettlement_pay _ _ _ _).settledIds]
  simp

section Again

variable {n r : Node} {claim : Claim} {objective : Objective} {epoch : UInt64}
  {consumed consumed' : List String} {ts : String}

/-- The objective of a claim that was met is paid, or the claim is a copy. -/
theorem settleWhole_again
    (known : (Log.objectives n.log).get? claim.objectiveId = some objective)
    (noRatchet : objective.ratchet = none) (noPiecework : objective.piecework = none)
    (hext : ExtendsBy IsPayment n.log r.log)
    (hafter : ExtendsBy IsPayment (n.settleOne claim epoch consumed ts).1.log r.log)
    (hconsumed : claim.artifactId ∈ consumed ↔ claim.artifactId ∈ consumed') (verdict : Verdict)
    (ts' : String) :
    (r.settleWhole claim verdict objective epoch consumed' ts').1 = r ∧
      ∃ outcome, (r.settleWhole claim verdict objective epoch consumed' ts').2 = .ok outcome ∧
        outcome.settled = false := by
  rw [settleOne_whole known noRatchet noPiecework] at hafter
  unfold settleWhole at hafter ⊢
  rw [artifactIdsBefore_of_payments hext]
  by_cases hseen : claim.artifactId ∈ consumed ∨
      claim.artifactId ∈ artifactIdsBefore n.log claim.objectiveId epoch
  · rw [if_pos (hseen.imp_left hconsumed.mp)]
    exact ⟨rfl, _, rfl, rfl⟩
  · rw [if_neg hseen] at hafter
    rw [if_neg fun hseen' => hseen (hseen'.imp_left hconsumed.mpr)]
    have hdone : (settlementOf r.log claim.objectiveId).isSome := by
      by_cases hbefore : (settlementOf n.log claim.objectiveId).isSome
      · exact settlementOf_of_extends hext hbefore
      · rw [if_neg hbefore] at hafter
        apply settlementOf_of_extends hafter
        rw [← Option.ne_none_iff_isSome, ne_eq, settlementOf_eq_none, pay, log_append,
          settlementsOf_append, (isSettlement_pay _ _ _ _).settlementsOf]
        simp
    rw [if_pos hdone]
    exact ⟨rfl, _, rfl, rfl⟩

/-- Every unit of a claim that was met is paid, or the pool is dry. -/
theorem settleUnit_again {block : Value} {piecework : Piecework} (hn : Steady n) (hr : Steady r)
    (known : (Log.objectives n.log).get? claim.objectiveId = some objective)
    (noRatchet : objective.ratchet = none) (isJob : objective.piecework = some block)
    (parses : Piecework.fromValue block = .ok piecework) {e : Entry}
    (hclaim : (e, claim) ∈ Log.claims r.log) (hext : ExtendsBy IsPayment n.log r.log)
    (hafter : ExtendsBy IsPayment (n.settleOne claim epoch consumed ts).1.log r.log)
    (hconsumed : ConsumedAlike r.log claim consumed consumed') (verdict : Verdict) (ts' : String) :
    (r.settleUnit claim verdict objective piecework consumed' ts').1.log = r.log ∧
      ∃ outcome, (r.settleUnit claim verdict objective piecework consumed' ts').2 = .ok outcome ∧
        outcome.settled = false := by
  have known' : (Log.objectives r.log).get? claim.objectiveId = some objective := by
    rw [Log.objectives_of_payments hext]
    exact known
  have hspec := (paidUnitKeys_spec hn.named hn.units.index known isJob parses).2
  have hspec' := (paidUnitKeys_spec hr.named hr.units.index known' isJob parses).2
  have hkeys : unitKeysFor r.log claim = some (piecework.unitKeys claim.artifact) :=
    unitKeysFor_eq_some.mpr ⟨objective, block, piecework, known', isJob, parses, rfl⟩
  rw [settleOne_unit known noRatchet isJob parses] at hafter
  unfold settleUnit at hafter ⊢
  by_cases hnone : piecework.unitKeys claim.artifact = []
  · rw [if_pos hnone]
    exact ⟨rfl, _, rfl, rfl⟩
  rw [if_neg hnone] at hafter ⊢
  simp only [log_paidUnitKeys] at hafter ⊢
  generalize hnovel' : ((piecework.unitKeys claim.artifact).filter fun key =>
    key ∉ consumed' && key ∉ (r.paidUnitKeys objective piecework).2) = novel'
  by_cases hempty : novel' = []
  · rw [if_pos hempty]
    exact ⟨log_paidUnitKeys .., _, rfl, rfl⟩
  rw [if_neg hempty]
  by_cases hzero : piecework.payoutFor novel'.length ((tryUInt64 (objective.reward.toNat -
      paidTotal r.log claim.objectiveId)).getD 0) = 0
  · rw [if_pos hzero]
    exact ⟨log_paidUnitKeys .., _, rfl, rfl⟩
  -- a unit still new here was new before, and the pool had more: the claim was paid
  exfalso
  obtain ⟨key, hkey⟩ := List.exists_mem_of_ne_nil _ hempty
  rw [← hnovel', List.mem_filter, Bool.and_eq_true, decide_eq_true_eq, decide_eq_true_eq] at hkey
  obtain ⟨hmem, hfresh, hunpaid⟩ := hkey
  rw [hspec'] at hunpaid
  have hfresh' : key ∉ consumed := by
    intro hin
    obtain hin' | hpaid := (hconsumed.2 _ hkeys key hmem).mp (.inl hin)
    · exact hfresh hin'
    · exact hunpaid ((keyPaid_iff known' isJob parses key).mp hpaid)
  have hunpaid' : key ∉ (n.paidUnitKeys objective piecework).2 := by
    rw [hspec]
    exact fun hpaid => hunpaid (paidUnit_of_payments hext hpaid)
  generalize hnovel : ((piecework.unitKeys claim.artifact).filter fun key =>
    key ∉ consumed && key ∉ (n.paidUnitKeys objective piecework).2) = novel at hafter
  have hnew : key ∈ novel := by
    rw [← hnovel, List.mem_filter, Bool.and_eq_true, decide_eq_true_eq, decide_eq_true_eq]
    exact ⟨hmem, hfresh', hunpaid'⟩
  have hleft : (tryUInt64 (objective.reward.toNat - paidTotal n.log claim.objectiveId)).getD 0 ≠
      0 := by
    have hlt := objective.reward.toNat_lt
    have hle := paidTotal_of_extends hext claim.objectiveId
    have hleft' : (tryUInt64 (objective.reward.toNat -
        paidTotal r.log claim.objectiveId)).getD 0 ≠ 0 := by
      intro heq
      rw [heq, Piecework.payoutFor_zero] at hzero
      exact hzero rfl
    rw [tryUInt64_of_lt (by simp only [UInt64.size]; omega), Option.getD_some] at hleft' ⊢
    intro heq
    apply hleft'
    have hnat := congrArg UInt64.toNat heq
    rw [UInt64.toNat_ofNat_of_lt' (by simp only [UInt64.size]; omega)] at hnat
    have hnone : objective.reward.toNat - paidTotal r.log claim.objectiveId = 0 := by
      have hzero' : (0 : UInt64).toNat = 0 := rfl
      omega
    rw [hnone]
    rfl
  have hpos := Piecework.payoutFor_pos (Piecework.unitPrice_ne_zero parses)
    (List.length_pos_of_mem hnew) hleft
  rw [if_neg (List.ne_nil_of_mem hnew), if_neg hpos] at hafter
  apply hunpaid
  refine ⟨(e, claim), hclaim, settledIds_of_extends hafter ?_, ⟨objective, known', isJob, rfl⟩, hmem⟩
  exact settledIds_pay _ claim _ ts

/-- The score of a claim that was met does not improve on the frontier. -/
theorem settleImprovement_again {block : Value} {ratchet : Ratchet} {held held' : Option FrontierEntry}
    (hn : Steady n) (known : (Log.objectives n.log).get? claim.objectiveId = some objective)
    (isRatchet : objective.ratchet = some block) (parses : Ratchet.fromValue block = .ok ratchet)
    (frontier : latestFrontier n.log claim.objectiveId = .ok held)
    (frontier' : latestFrontier r.log claim.objectiveId = .ok held')
    (honward : Onward n.log r.log)
    (hafter : Onward (n.settleOne claim epoch consumed ts).1.log r.log) (ts' : String) :
    (r.settleImprovement claim (n.settlingVerdict claim) ratchet held' ts').1 = r ∧
      ∃ outcome, (r.settleImprovement claim (n.settlingVerdict claim) ratchet held' ts').2 =
        .ok outcome ∧ outcome.settled = false := by
  apply settleImprovement_stalls
  intro score hscore
  rw [Bool.eq_false_iff]
  intro himproves
  have hmin := Ratchet.minImprovement_pos_of_validate (Ratchet.fromValue_valid parses)
  have hheld := honward.frontier _ _ _ _ _ _ known isRatchet parses frontier frontier'
  unfold heldProgress at hheld
  rw [Ratchet.improves_iff] at himproves
  -- the score improved on the older frontier too, so it moved it
  have himproved : ratchet.improves (held.map FrontierEntry.score) score = true := by
    rw [Ratchet.improves_iff]
    omega
  obtain ⟨reward, paid, hpays, hadds⟩ :=
    (hn.pools.pool _ _ known).move_fits isRatchet parses frontier himproved
  have hmoved : (n.settleOne claim epoch consumed ts).1 =
      n.recordMove claim score reward paid ts := by
    rw [settleOne_ratchet known isRatchet parses frontier]
    unfold settleImprovement
    have hstall : ratchet.stall (held.map FrontierEntry.score) score = none := by
      unfold Ratchet.stall
      rw [if_pos himproved]
    simp only [hscore, hstall, hpays, settleMove, hadds]
  have known' : (Log.objectives (n.settleOne claim epoch consumed ts).1.log).get?
      claim.objectiveId = some objective := by
    rw [Log.objectives_of_payments (n.settleOne_log claim epoch consumed ts)]
    exact known
  have hlatest := latestFrontier_advance n claim score paid ts
  rw [← latestFrontier_recordMove n claim score reward paid ts, ← hmoved] at hlatest
  have hheld' := hafter.frontier _ _ _ _ _ _ known' isRatchet parses hlatest frontier'
  have hprogress : ratchet.progress score ≤ ratchet.progressOf (held'.map FrontierEntry.score) :=
    hheld'
  omega

theorem settlingVerdict_of_payments (hext : ExtendsBy IsPayment n.log r.log) (claim : Claim) :
    r.settlingVerdict claim = n.settlingVerdict claim := by
  unfold settlingVerdict recordedVerdict
  rw [ofKind_payouts (hext.mono fun _ he => .inl he) (by decide)]

/-- A claim that was met settles nothing when it is met again. -/
theorem settleOne_again (hn : Steady n) (hr : Steady r) {e : Entry}
    (hclaim : (e, claim) ∈ Log.claims n.log)
    (hafter : Onward (n.settleOne claim epoch consumed ts).1.log r.log)
    (hconsumed : ConsumedAlike r.log claim consumed consumed') (ts' : String) :
    (r.settleOne claim epoch consumed' ts').1.log = r.log ∧
      ∃ outcome, (r.settleOne claim epoch consumed' ts').2 = .ok outcome ∧
        outcome.settled = false := by
  have honward := (n.settleOne_onward claim epoch consumed ts).trans hafter
    (hn.settleOne hclaim epoch consumed ts).pools
  have hobjectives := Log.objectives_of_payments honward.payments
  have hverdict := settlingVerdict_of_payments honward.payments claim
  have hclaim' : (e, claim) ∈ Log.claims r.log := by
    rw [claims_of_payouts (honward.payments.mono fun _ he => .inl he)]
    exact hclaim
  cases known : (Log.objectives n.log).get? claim.objectiveId with
  | none =>
    unfold settleOne
    rw [hobjectives, known]
    exact ⟨rfl, _, rfl, rfl⟩
  | some objective =>
    have known' : (Log.objectives r.log).get? claim.objectiveId = some objective := by
      rw [hobjectives]
      exact known
    cases isRatchet : objective.ratchet with
    | some block =>
      obtain ⟨ratchet, held, parses, -, frontier, -⟩ :=
        (hn.pools.pool _ _ known).frontier block isRatchet
      obtain ⟨_, held', -, -, frontier', -⟩ :=
        (hr.pools.pool _ _ known').frontier block isRatchet
      obtain ⟨hsame, houtcome⟩ := settleImprovement_again hn known isRatchet parses frontier
        frontier' honward hafter ts'
      rw [settleOne_ratchet known' isRatchet parses frontier', hverdict, hsame]
      exact ⟨rfl, houtcome⟩
    | none =>
      cases isJob : objective.piecework with
      | some block =>
        cases parses : Piecework.fromValue block with
        | error error =>
          unfold settleOne
          simp only [known', isRatchet, isJob, parses]
          exact ⟨trivial, _, rfl, rfl⟩
        | ok piecework =>
          rw [settleOne_unit known' isRatchet isJob parses]
          exact settleUnit_again hn hr known isRatchet isJob parses hclaim'
            honward.payments hafter.payments hconsumed _ ts'
      | none =>
        have hnone : unitKeysFor r.log claim = none := by
          unfold unitKeysFor
          simp [known', isJob]
        obtain ⟨hsame, houtcome⟩ := settleWhole_again known isRatchet isJob honward.payments
          hafter.payments (hconsumed.1 hnone) (r.settlingVerdict claim) ts'
        rw [settleOne_whole known' isRatchet isJob, hsame]
        exact ⟨rfl, houtcome⟩

end Again

theorem keyPaid_of_extends (h : ExtendsBy IsPayment log log') (hpaid : KeyPaid log claim key) :
    KeyPaid log' claim key := by
  obtain ⟨o, block, piecework, hknown, hblock, hparse, hunit⟩ := hpaid
  refine ⟨o, block, piecework, ?_, hblock, hparse, paidUnit_of_payments h hunit⟩
  rw [Log.objectives_of_payments h]
  exact hknown

theorem unitKeysFor_of_extends (h : ExtendsBy IsPayment log log') (claim : Claim) :
    unitKeysFor log' claim = unitKeysFor log claim :=
  unitKeysFor_congr (by rw [Log.objectives_of_payments h])

variable {consumed : List String} {epoch : UInt64} {ts : String}

/-- Settled piecework is a settlement. -/
theorem settledIds_of_settled {keys : List String} {outcome : Outcome}
    (hkeys : unitKeysFor n.log claim = some keys)
    (hok : (n.settleOne claim epoch consumed ts).2 = .ok outcome)
    (hsettled : outcome.settled = true) :
    claim.id ∈ settledIds (n.settleOne claim epoch consumed ts).1.log := by
  obtain ⟨o, block, piecework, hknown, hblock, -, -⟩ := unitKeysFor_eq_some.mp hkeys
  have hnoRatchet : o.ratchet = none := by
    obtain ⟨e, hmem, -⟩ := exists_of_get?_objectives hknown
    exact Objective.noRatchet_of_fromValue (mem_decoded.mp hmem).2.2 hblock
  generalize hres : n.settleOne claim epoch consumed ts = res at *
  have hcases := n.settleOne_settled claim epoch consumed ts
  rw [hres] at hcases
  cases hcases with
  | unpaid unsettled =>
    cases hok
    rw [hsettled] at unsettled
    cases unsettled
  | unpaidUnit _ _ _ unsettled =>
    cases hok
    rw [hsettled] at unsettled
    cases unsettled
  | overflowed => cases hok
  | whole => exact settledIds_pay n claim _ ts
  | improved known isRatchet =>
    rw [hknown] at known
    cases known
    rw [hnoRatchet] at isRatchet
    cases isRatchet
  | unit => exact settledIds_pay _ claim _ ts

variable {m : Node}

/-- What the batch consumed and what it consumes when it is settled again
are the same to a later claim: the difference is paid. -/
theorem consumedAlike_again {r : Node} {c d : Claim} {consumed' : List String} (settled : Bool)
    (hm : Log.objectives m.log = Log.objectives log)
    (hr : Log.objectives r.log = Log.objectives log)
    (hpaid : settled = true → ∀ dkeys ckeys, unitKeysFor log d = some dkeys →
      unitKeysFor log c = some ckeys → ∀ key ∈ dkeys, key ∈ ckeys → KeyPaid log c key)
    (h : ConsumedAlike log c consumed consumed') :
    ConsumedAlike log c (m.consume d settled consumed) (r.consume d false consumed') := by
  have hm' : unitKeysFor m.log d = unitKeysFor log d := unitKeysFor_congr (by rw [hm])
  have hr' : unitKeysFor r.log d = unitKeysFor log d := unitKeysFor_congr (by rw [hr])
  unfold ConsumedAlike consume
  rw [hm', hr']
  cases hdkeys : unitKeysFor log d with
  | none =>
    dsimp only
    constructor
    · intro hnone
      rw [List.mem_cons, List.mem_cons, h.1 hnone]
    · intro keys hkeys key hkey
      have hold := h.2 keys hkeys key hkey
      rw [List.mem_cons, List.mem_cons]
      tauto
  | some dkeys =>
    cases settled with
    | false => exact h
    | true =>
      dsimp only
      rw [if_pos rfl, if_neg Bool.false_ne_true]
      constructor
      · intro hnone
        have hnot : c.artifactId ∉ dkeys := by
          obtain ⟨_, _, piecework, -, -, -, rfl⟩ := unitKeysFor_eq_some.mp hdkeys
          exact artifactId_not_mem_unitKeys piecework _ c
        rw [List.mem_append, ← h.1 hnone]
        tauto
      · intro keys hkeys key hkey
        have hold := h.2 keys hkeys key hkey
        have hboth := hpaid rfl dkeys keys hdkeys hkeys key
        rw [List.mem_append]
        tauto

/-- A unit of a settled claim is paid in the job of the claim. -/
theorem keyPaid_of_settled {e : Entry} {c d : Claim} (hd : (e, d) ∈ Log.claims log)
    (hsettled : d.id ∈ settledIds log) (hjob : c.objectiveId ∈ jobIds log d.objectiveId)
    {dkeys ckeys : List String} (hdkeys : unitKeysFor log d = some dkeys)
    (hckeys : unitKeysFor log c = some ckeys) (hkey : key ∈ dkeys) : KeyPaid log c key := by
  obtain ⟨o, block, piecework, hknown, hblock, hparse, -⟩ := unitKeysFor_eq_some.mp hckeys
  have hmem : d.objectiveId ∈ jobIds log c.objectiveId := by
    rw [jobIds_of_mem hjob]
    exact self_mem_jobIds log d.objectiveId
  have hin : InJob log o.verifier block d := (inJob_iff_mem_jobIds hknown hblock d).mpr hmem
  have ⟨o', hknown', hblock', _⟩ := hin
  obtain ⟨o'', block', piecework', hknown'', hblock'', hparse', rfl⟩ :=
    unitKeysFor_eq_some.mp hdkeys
  rw [hknown'] at hknown''
  cases hknown''
  rw [hblock'] at hblock''
  cases hblock''
  rw [hparse] at hparse'
  cases hparse'
  exact ⟨o, block, piecework, hknown, hblock, hparse, (e, d), hd, hsettled, hin, hkey⟩

/-! ## A batch settled again -/

/-- A move cut in half leaves a frontier that was not paid what it says. -/
theorem not_frontiersPaid_advance (hpools : Pools n.log) {objective : Objective}
    {held : Option FrontierEntry} {score : Int64} {reward paidCumulative : UInt64}
    (known : (Log.objectives n.log).get? claim.objectiveId = some objective)
    (isRatchet : objective.ratchet = some block)
    (frontier : latestFrontier n.log claim.objectiveId = .ok held)
    (adds : paidAfter held reward = some paidCumulative) (pays : 0 < reward) :
    ¬FrontiersPaid (n.advance claim score paidCumulative ts).log := by
  intro hpaid
  have hratchet : objective.ratchet.isSome := by
    rw [isRatchet]
    rfl
  have hbefore := hpools.frontiersPaid _ _ _ known hratchet frontier
  have hext : ExtendsBy IsPayment n.log (n.advance claim score paidCumulative ts).log :=
    (ExtendsBy.refl _).concat (.inr rfl)
  have hnow := hpaid claim.objectiveId objective _ (by
    rw [Log.objectives_of_payments hext]
    exact known) hratchet (latestFrontier_advance n claim score paidCumulative ts)
  have htotal : paidTotal (n.advance claim score paidCumulative ts).log claim.objectiveId =
      paidTotal n.log claim.objectiveId := by
    have hnone : settlementsOf [n.ledger.nextEntry EntryKind.frontier.asStr (FrontierEntry.toValue
        ⟨claim.objectiveId, claim.id, claim.submitter, score, paidCumulative⟩) ts]
        claim.objectiveId = [] := by
      simp [settlementsOf, ofKind]
    rw [advance, log_append, paidTotal_eq, paidTotal_eq, settlementsOf_append, hnone,
      List.append_nil]
  have hsum := toNat_tryUInt64 adds
  have hpos : 0 < reward.toNat := UInt64.lt_iff_toNat_lt.mp pays
  have hsays : (paidBefore (some ⟨claim.objectiveId, claim.id, claim.submitter, score,
      paidCumulative⟩)).toNat = paidCumulative.toNat := rfl
  rw [htotal, hbefore, hsays] at hnow
  omega

theorem Steady.paidUnitKeys (h : Steady n) {e : Entry} (hclaim : (e, claim) ∈ Log.claims n.log)
    {objective : Objective} {piecework : Piecework}
    (known : (Log.objectives n.log).get? claim.objectiveId = some objective)
    (isJob : objective.piecework = some block) (parses : Piecework.fromValue block = .ok piecework) :
    Steady (n.paidUnitKeys objective piecework).1 := by
  have hsettled : Settled n claim 0 [] "" ((n.paidUnitKeys objective piecework).1,
      .ok (.unsettled "" ⟨.accept, "", .null⟩ "")) := .unpaidUnit known isJob parses rfl
  exact ⟨hsettled.named h.named hclaim, hsettled.units h.named h.units hclaim,
    hsettled.pools h.pools⟩

/-- A batch that did not stop in the middle of a move leaves a steady node. -/
theorem StoppedIn.steady {batch : List Claim} (h : StoppedIn epoch ts n consumed batch m)
    (hn : Steady n) (hclaims : ∀ c ∈ batch, ∃ e, (e, c) ∈ Log.claims n.log)
    (hpaid : FrontiersPaid m.log) : Steady m ∧ Onward n.log m.log := by
  induction h with
  | atRecord => exact ⟨hn, .refl _⟩
  | @atClaim n m consumed claim rest stops =>
    obtain ⟨e, hclaim⟩ := hclaims claim (by simp)
    cases stops with
    | before => exact ⟨hn, .refl _⟩
    | scanned known isJob parses =>
      refine ⟨hn.paidUnitKeys hclaim known isJob parses, ?_⟩
      rw [log_paidUnitKeys]
      exact .refl _
    | moved known isRatchet parses frontier scores adds pays full =>
      exact absurd hpaid
        (not_frontiersPaid_advance hn.pools known isRatchet frontier adds pays)
  | @later n m consumed claim rest outcome settles stops ih =>
    obtain ⟨e, hclaim⟩ := hclaims claim (by simp)
    have hsteady := hn.settleOne hclaim epoch consumed ts
    have hext := n.settleOne_payments claim epoch consumed ts
    obtain ⟨hm, honward⟩ := ih hsteady (by
      intro c hc
      rw [claims_of_payments hext]
      exact hclaims c (by simp [hc])) hpaid
    exact ⟨hm, (n.settleOne_onward claim epoch consumed ts).trans honward hsteady.pools⟩

/-- A batch that stopped pays the same when it is settled again: what it
settled before earns nothing more, and the rest settles as it would have. -/
theorem StoppedIn.replay {batch : List Claim} (h : StoppedIn epoch ts n consumed batch m)
    (hn : Steady n) (hclaims : ∀ c ∈ batch, ∃ e, (e, c) ∈ Log.claims n.log)
    (hunshared : Unshared n.log batch) (hpaid : FrontiersPaid m.log) (ts' : String) :
    ∀ (r : Node) (consumed' : List String), Steady r → r.log = m.log →
      (∀ c ∈ batch, ConsumedAlike m.log c consumed consumed') →
      Twin (settleBatch epoch ts n consumed batch).1.log
        (settleBatch epoch ts' r consumed' batch).1.log := by
  induction h with
  | @atRecord n consumed =>
    intro r consumed' _ hlog _
    show Twin n.log r.log
    rw [hlog]
    exact .refl _
  | @atClaim n m consumed claim rest stops =>
    intro r consumed' hr hlog hconsumed
    have hsame : m.log = n.log := by
      cases stops with
      | before => rfl
      | scanned known isJob parses => rw [log_paidUnitKeys]
      | moved known isRatchet parses frontier scores adds pays full =>
        exact absurd hpaid
          (not_frontiersPaid_advance hn.pools known isRatchet frontier adds pays)
    rw [hsame] at hlog hconsumed
    apply settleBatch_twin ts ts' _ n r consumed consumed' hn hr _ hclaims hconsumed
    rw [hlog]
    exact .refl _
  | @later n m consumed claim rest outcome settles stops ih =>
    intro r consumed' hr hlog hconsumed
    obtain ⟨e, hclaim⟩ := hclaims claim (by simp)
    have hsteady := hn.settleOne hclaim epoch consumed ts
    have hext := n.settleOne_payments claim epoch consumed ts
    have hclaims' : ∀ c ∈ rest, ∃ e,
        (e, c) ∈ Log.claims (n.settleOne claim epoch consumed ts).1.log := by
      intro c hc
      rw [claims_of_payments hext]
      exact hclaims c (by simp [hc])
    obtain ⟨-, honward⟩ := stops.steady hsteady hclaims' hpaid
    have hwhole := ((n.settleOne_onward claim epoch consumed ts).trans honward
      hsteady.pools).payments
    have hclaim' : (e, claim) ∈ Log.claims m.log := by
      rw [claims_of_payouts (hwhole.mono fun _ he => .inl he)]
      exact hclaim
    rw [← hlog] at honward
    -- settled again, the claim earns nothing
    obtain ⟨hsame, again, hagain, hunsettled⟩ := settleOne_again hn hr hclaim honward
      (by rw [hlog]; exact hconsumed claim (by simp)) ts'
    rw [settleBatch_cons rest settles, settleBatch_cons rest hagain]
    have hunshared' : Unshared (n.settleOne claim epoch consumed ts).1.log rest :=
      unshared_of_payments hext (List.Pairwise.of_cons hunshared)
    apply ih hsteady hclaims' hunshared' hpaid
    · exact hr.settleOne (by rw [hlog]; exact hclaim') epoch consumed' ts'
    · rw [hsame, hlog]
    · intro c hc
      rw [hunsettled]
      rw [hlog] at honward
      apply consumedAlike_again outcome.settled (Log.objectives_of_payments honward.payments).symm
        (by rw [hsame, hlog]) _ (hconsumed c (by simp [hc]))
      intro hsettled dkeys ckeys hdkeys hckeys key hkey hkey'
      by_cases hjob : c.objectiveId ∈ jobIds m.log claim.objectiveId
      · have hkeys : unitKeysFor n.log claim = some dkeys := by
          rw [← unitKeysFor_of_extends hwhole]
          exact hdkeys
        exact keyPaid_of_settled hclaim' (settledIds_of_extends honward.payments
          (settledIds_of_settled hkeys settles hsettled)) hjob hdkeys hckeys hkey
      · rw [unitKeysFor_of_extends hwhole] at hdkeys hckeys
        apply keyPaid_of_extends hwhole
        have hother : c.objectiveId ∉ jobIds n.log claim.objectiveId := by
          unfold jobIds pieceworkScope at hjob ⊢
          rw [Log.objectives_of_payments hwhole] at hjob
          exact hjob
        exact (List.pairwise_cons.mp hunshared).1 c hc hother dkeys ckeys hdkeys hckeys key hkey
          hkey'

end Node

end Cairn.Ports
