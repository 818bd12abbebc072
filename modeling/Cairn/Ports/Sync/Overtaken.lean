import Cairn.Ports.Canonical.Size
import Cairn.Ports.Node.Discipline
import Cairn.Ports.Node.Durable
import Cairn.Ports.Node.Quiet
import Cairn.Ports.Sync.Service

/-!
# Claims a replay overtakes

A replay goes through the commitments of a session before its claims, and a
commitment drains as a claim does. A commitment of a later epoch then settles an
epoch the node holds claims of, and a claim of that epoch in the same session
comes too late. The claims themselves are replayed in the order of their times,
so that none of them closes the epoch of another.
-/

namespace Cairn.Ports

open Cairn.Verified
open Cairn.Verified.AppendOnly
open Cairn.Ports.Canonical

/-! ## The order of a batch -/

theorem instantBefore_trans {a b c : Option Int} (hab : instantBefore a b)
    (hbc : instantBefore b c) : instantBefore a c := by
  cases a <;> cases b <;> cases c <;> simp_all only [instantBefore]
  exact lt_trans hab hbc

theorem instantBefore_total (a b : Option Int) :
    instantBefore a b ∨ a = b ∨ instantBefore b a := by
  cases a <;> cases b <;> simp [instantBefore]
  exact lt_trichotomy _ _

section Order

variable [Sha256]

theorem replayedBefore_trans {a b c : Value} (hab : ReplayedBefore a b)
    (hbc : ReplayedBefore b c) : ReplayedBefore a c := by
  unfold ReplayedBefore at *
  rcases hab with hab | ⟨hab, hdab⟩
  · rcases hbc with hbc | ⟨hbc, -⟩
    · exact .inl (instantBefore_trans hab hbc)
    · exact .inl (hbc ▸ hab)
  · rw [hab]
    rcases hbc with hbc | ⟨hbc, hdbc⟩
    · exact .inl hbc
    · exact .inr ⟨hbc, le_trans hdab hdbc⟩

theorem replayedBefore_total (a b : Value) : ReplayedBefore a b ∨ ReplayedBefore b a := by
  unfold ReplayedBefore
  rcases instantBefore_total (parseRfc3339 (held a)) (parseRfc3339 (held b)) with h | h | h
  · exact .inl (.inl h)
  · rcases le_total a.digest b.digest with hle | hle
    · exact .inl (.inr ⟨h, hle⟩)
    · exact .inr (.inr ⟨h.symm, hle⟩)
  · exact .inr (.inl h)

theorem pairwise_replayBatch (records : List (String × Value)) (kind : EntryKind) :
    (replayBatch records kind).Pairwise ReplayedBefore := by
  have : Std.Total (α := Value) ReplayedBefore := ⟨replayedBefore_total⟩
  have : IsTrans Value ReplayedBefore := ⟨fun _ _ _ => replayedBefore_trans⟩
  exact List.pairwise_insertionSort _ _

end Order

section Overtakes

variable [World]

/-- A record that comes first in its batch is of no later epoch. -/
theorem epochOfTs_le_of_replayedBefore {a b : Value} (h : ReplayedBefore a b) {x y : UInt64}
    (ha : epochOfTs (held a) = some x) (hb : epochOfTs (held b) = some y) : x ≤ y := by
  apply Log.epochAt_le _ ha hb
  intro s t hs ht
  unfold ReplayedBefore at h
  rw [hs, ht] at h
  rcases h with h | ⟨h, -⟩
  · exact Int.le_of_lt h
  · exact le_of_eq (Option.some.inj h)

/-! ## What overtakes an epoch -/

/-- A commitment the log does not hold, of an epoch in which the given one is
final. -/
def Log.Closes (log : List Entry) (payload : Value) (epoch : UInt64) : Prop :=
  Log.holds log .commitment payload.digest = false ∧
    ∃ commitment now, Commitment.fromValue payload = .ok commitment ∧
      Log.commitEpoch commitment (held payload) = .ok now ∧
        satAdd epoch Clock.finalityEpochs < now.toNat

/-- The log holds claims of an epoch, nothing of it or later is drained, and
one of these commitments closes it. -/
structure Log.Overtaken (log : List Entry) (payloads : List Value) (epoch : UInt64) : Prop where
  claimed : ∃ claim, (epoch, claim) ∈ Log.acceptedClaimsByEpoch log
  latest : ∀ settled ∈ Log.drainedEpochs log, settled < epoch
  closed : ∃ payload ∈ payloads, Log.Closes log payload epoch

/-- A claim the node would admit at the claim's own time, up to the question
whether its epoch is settled. -/
structure Log.Opens (log : List Entry) (claim : Claim) (epoch : UInt64) : Prop where
  admitted : Log.revealEpoch log claim claim.createdAt = .ok epoch
  objective : ∃ objective, (Log.objectives log).get? claim.objectiveId = some objective ∧
    (objective.requireSignedSubmitter → (signedSubmitter claim.submitter).isSome)
  commitment : ∃ entry, Log.matchingCommitmentEntry log claim = some entry ∧
    Log.checkOpens entry epoch = .ok ()

/-! ## What a log holds -/

variable {log : List Entry}

theorem Log.holds_of_getElem {kind : EntryKind} {payload : Value} (i : Nat)
    (h : ∃ e, log[i]? = some e ∧ e.kind = kind.asStr ∧ e.payload = payload) :
    Log.holds log kind payload.digest = true := by
  rcases h with ⟨e, hmem, hkind, hpayload⟩
  rw [Log.holds, List.any_eq_true]
  exact ⟨e, List.mem_of_getElem? hmem, by rw [hkind, hpayload]; simp⟩

/-- A record is not held if the one record of its kind has another digest. -/
theorem Log.holds_of_other {kind : EntryKind} {payload other : Value}
    (h : ∀ e ∈ Log.ofKind log kind, e.payload = other) (hne : other.digest ≠ payload.digest) :
    Log.holds log kind payload.digest = false := by
  rw [Log.holds, List.any_eq_false]
  intro e he hsame
  rw [Bool.and_eq_true, decide_eq_true_eq, decide_eq_true_eq] at hsame
  rw [h e (Log.mem_ofKind.mpr ⟨he, hsame.1⟩)] at hsame
  exact hne hsame.2

/-- The objectives, commitments and claims of a log. -/
def Log.inputs (log : List Entry) : List (String × Value) :=
  (log.filter fun e => e.kind ∈ REPLAYED.map EntryKind.asStr).map fun e => (e.kind, e.payload)

omit [World] in
theorem Log.inputs_of_payouts {log' : List Entry} (h : ExtendsBy Node.IsPayout log log') :
    Log.inputs log' = Log.inputs log := by
  rcases h with ⟨new, rfl, hnew⟩
  rw [Log.inputs, List.filter_append, List.map_append, ← Log.inputs, List.append_right_eq_self,
    List.map_eq_nil_iff, List.filter_eq_nil_iff]
  intro e he
  rcases hnew e he with (h | h) | h <;> rw [h] <;> decide

/-- What a call is given as its time. -/
def Op.ts : Op → String
  | .postObjective _ ts => ts
  | .postAvailabilityPool _ ts => ts
  | .postIssuance _ ts => ts
  | .postPeer _ ts => ts
  | .postUndertaking _ ts => ts
  | .postAvailability _ ts => ts
  | .postCommitteeShare _ ts => ts
  | .postChallenge _ ts => ts
  | .postBisection _ ts => ts
  | .settleChallenge _ _ ts => ts
  | .postAttestation _ ts => ts
  | .slashAttestation _ _ _ ts => ts
  | .commit _ ts => ts
  | .reveal _ _ ts => ts
  | .openSealed _ _ ts => ts
  | .settleDue _ ts => ts
  | .settleAt ts => ts
  | .settleAvailability _ ts => ts
  | .recordBeaconWith _ _ _ _ _ ts => ts

namespace Node

/-- A replay that has come to the claims. -/
def afterCommitments (registry : Registry) (n : Node) (records : List (String × Value)) : Node :=
  (replayBatch records .commitment).foldl (replayRecord registry none .commitment)
    ((replayBatch records .objective).foldl (replayRecord registry none .objective) n)

/-- A replay that has come to the claim after these. -/
def beforeClaim (registry : Registry) (n : Node) (records : List (String × Value))
    (before : List Value) : Node :=
  before.foldl (replayRecord registry none .claim) (afterCommitments registry n records)

theorem replayRecords_eq (registry : Registry) (n : Node) (records : List (String × Value)) :
    replayRecords registry n records =
      beforeClaim registry n records (replayBatch records .claim) := rfl

/-! ## A replay is a run -/

theorem replayRecord_step (registry : Registry) (nowEpoch : Option UInt64) (kind : EntryKind)
    (n : Node) (payload : Value) :
    ∃ ops, replayRecord registry nowEpoch kind n payload = n.run ops := by
  unfold replayRecord
  split
  · exact ⟨[], rfl⟩
  · split
    · exact ⟨[], rfl⟩
    · unfold replayAs
      split
      · cases Objective.fromValue payload with
        | error error => exact ⟨[], rfl⟩
        | ok value => exact ⟨[.postObjective value (held payload)], rfl⟩
      · cases Commitment.fromValue payload with
        | error error => exact ⟨[], rfl⟩
        | ok value => exact ⟨[.commit value (held payload)], rfl⟩
      · cases Claim.fromValue payload with
        | error error => exact ⟨[], rfl⟩
        | ok value => exact ⟨[.reveal registry value (held payload)], rfl⟩
      · exact ⟨[], rfl⟩

theorem replayBatch_run (registry : Registry) (nowEpoch : Option UInt64) (kind : EntryKind)
    (payloads : List Value) (n : Node) :
    ∃ ops, payloads.foldl (replayRecord registry nowEpoch kind) n = n.run ops := by
  induction payloads generalizing n with
  | nil => exact ⟨[], rfl⟩
  | cons payload rest ih =>
    rcases replayRecord_step registry nowEpoch kind n payload with ⟨ops, hops⟩
    rcases ih (n.run ops) with ⟨more, hmore⟩
    refine ⟨ops ++ more, ?_⟩
    rw [List.foldl_cons, hops, hmore, run_append]

/-- A replay is a run of the node's own methods. -/
theorem beforeClaim_run (registry : Registry) (n : Node) (records : List (String × Value))
    (before : List Value) : ∃ ops, beforeClaim registry n records before = n.run ops := by
  rcases replayBatch_run registry none .objective (replayBatch records .objective) n with
    ⟨first, hfirst⟩
  rcases replayBatch_run registry none .commitment (replayBatch records .commitment) (n.run first)
    with ⟨second, hsecond⟩
  rcases replayBatch_run registry none .claim before ((n.run first).run second) with
    ⟨third, hthird⟩
  refine ⟨first ++ second ++ third, ?_⟩
  unfold beforeClaim afterCommitments
  rw [hfirst, hsecond, hthird, run_append, run_append]

/-! ## The commitments of a session -/

/-- A node of a run whose objectives are told apart by their ids. -/
structure Settling (n : Node) : Prop where
  pools : Log.Pools n.log
  paid : Log.PaidOnce n.log

variable {n base : Node} {log log' : List Entry} {epoch : UInt64} {claim : Claim}

theorem settling_of_reaches {m : Node} (hempty : n.log = []) (h : Reaches n m)
    (hstable : Log.StableIds m.log) : Settling m :=
  ⟨h.pools hempty hstable, h.paidOnce hempty hstable⟩

theorem held_commitment (commitment : Commitment) :
    held commitment.toValue = commitment.createdAt := by
  have hget : commitment.toValue.get "created_at" = some (.string commitment.createdAt) := by
    rw [Commitment.get_toValue]
    simp [BTreeMap.lookupEntry]
  rw [held, payloadStr, hget]
  simp

/-- What replaying a commitment does. -/
inductive CommitStep (n : Node) (payload : Value) : Node → Prop where
  /-- It is held, or refused before anything is drained. -/
  | skipped (refused : Log.holds n.log .commitment payload.digest = true ∨
      ∀ commitment epoch, Commitment.fromValue payload = .ok commitment →
        Log.commitEpoch commitment (held payload) ≠ .ok epoch) : CommitStep n payload n
  /-- What is due is drained, and the commitment may be admitted. -/
  | drained {m : Node} {commitment : Commitment} {now : UInt64}
      (fresh : Log.holds n.log .commitment payload.digest = false)
      (decodes : Commitment.fromValue payload = .ok commitment)
      (admitted : Log.commitEpoch commitment (held payload) = .ok now)
      (accepted : Log.acceptedClaimsByEpoch m.log = Log.acceptedClaimsByEpoch n.log)
      (drains : Log.drainedEpochs m.log = Log.drainedEpochs n.log ++ Log.dueEpochs n.log now)
      (holds : ∀ digest, Log.holds m.log .commitment digest = true →
        Log.holds n.log .commitment digest = true ∨ digest = commitment.toValue.digest) :
      CommitStep n payload m

theorem acceptedClaimsByEpoch_append {new : List Entry} (hclaim : Log.ofKind new .claim = [])
    (hverdict : Log.ofKind new .verdict = []) :
    Log.acceptedClaimsByEpoch (log ++ new) = Log.acceptedClaimsByEpoch log := by
  have hclaims : Log.claims (log ++ new) = Log.claims log := by
    rw [Log.claims_append, Log.claims, Log.claims, Log.decoded, Log.decoded, hclaim]
    simp
  unfold Log.acceptedClaimsByEpoch Log.acceptedClaimIds
  rw [hclaims, Log.ofKind_append, hverdict, List.append_nil]

theorem holds_of_payouts (h : ExtendsBy IsPayout log log') (digest : String) :
    Log.holds log' .commitment digest = Log.holds log .commitment digest := by
  rcases h with ⟨new, rfl, hnew⟩
  rw [Log.holds, List.any_append, ← Log.holds]
  have hnone : (new.any fun e => e.kind = EntryKind.commitment.asStr && e.payload.digest = digest) =
      false := by
    rw [List.any_eq_false]
    intro e he
    rcases hnew e he with (hkind | hkind) | hkind <;> rw [hkind] <;> simp [EntryKind.asStr]
  rw [hnone, Bool.or_false]

theorem replayRecord_commitment (registry : Registry) (hn : Settling n) (payload : Value) :
    CommitStep n payload (replayRecord registry none .commitment n payload) := by
  unfold replayRecord
  split
  · rename_i hheld
    exact .skipped (.inl hheld)
  · rename_i hfree
    rw [if_neg (by simp)]
    unfold replayAs
    dsimp only
    cases hdecode : Commitment.fromValue payload with
    | error error =>
      exact .skipped (.inr fun commitment epoch h => by rw [hdecode] at h; cases h)
    | ok value =>
      dsimp only
      rcases n.commit_cases value (held payload) with
        ⟨error, hepoch, hm⟩ | ⟨now, hepoch, hm⟩
      · rw [hm]
        refine .skipped (.inr fun commitment epoch h => ?_)
        rw [hdecode] at h
        cases h
        rw [hepoch]
        exact fun h => by cases h
      · have hpayouts := n.settleDue_log now (held payload)
        have hdrained := (settleDue_once now (held payload) hn.pools hn.paid).2.2.1
        have haccepted := Log.acceptedClaimsByEpoch_of_payouts hpayouts
        rcases hm with hm | hm
        · refine .drained (by simpa using hfree) hdecode hepoch ?_ ?_ ?_
          · rw [hm, haccepted]
          · rw [hm, hdrained]
          · intro digest hholds
            rw [hm, holds_of_payouts hpayouts] at hholds
            exact .inl hholds
        · refine .drained (by simpa using hfree) hdecode hepoch ?_ ?_ ?_
          · rw [hm, log_append, acceptedClaimsByEpoch_append rfl rfl, haccepted]
          · rw [hm, log_append, Log.drainedEpochs_append, hdrained]
            simp [Log.drainedEpochs, Log.ofKind]
          · intro digest hholds
            rw [hm, log_append, Log.holds, List.any_append, Bool.or_eq_true, ← Log.holds,
              holds_of_payouts hpayouts] at hholds
            rcases hholds with hholds | hholds
            · exact .inl hholds
            · rw [List.any_cons, List.any_nil, Bool.or_false, Bool.and_eq_true,
                decide_eq_true_eq, decide_eq_true_eq] at hholds
              exact .inr hholds.2.symm

/-- A digest that is held stays held. -/
theorem holds_of_prefix (h : log <+: log') {kind : EntryKind} {digest : String}
    (hfree : Log.holds log' kind digest = false) : Log.holds log kind digest = false := by
  rcases h with ⟨new, rfl⟩
  rw [Log.holds, List.any_append, Bool.or_eq_false_iff] at hfree
  exact hfree.1

omit [World] in
theorem drainedEpochs_of_prefix (h : log <+: log') (hin : epoch ∈ Log.drainedEpochs log) :
    epoch ∈ Log.drainedEpochs log' := by
  rcases h with ⟨new, rfl⟩
  rw [Log.drainedEpochs_append]
  exact List.mem_append_left _ hin

theorem foldl_prefix_log (registry : Registry) (kind : EntryKind) (payloads : List Value)
    (n : Node) :
    n.log <+: (payloads.foldl (replayRecord registry none kind) n).log := by
  rcases replayBatch_run registry none kind payloads n with ⟨ops, hops⟩
  rw [hops]
  exact (n.run_reaches ops).prefix_log

theorem foldl_reaches (h : Reaches base n) (registry : Registry) (kind : EntryKind)
    (payloads : List Value) :
    Reaches base (payloads.foldl (replayRecord registry none kind) n) := by
  rcases replayBatch_run registry none kind payloads n with ⟨ops, hops⟩
  rw [hops]
  exact h.trans (n.run_reaches ops)

/-- An epoch that the commitments of a session drain is overtaken by one. -/
theorem overtaken_of_drained (hempty : base.log = []) (registry : Registry) (payloads : List Value)
    (n : Node) (h : Reaches base n)
    (hstable : Log.StableIds (payloads.foldl (replayRecord registry none .commitment) n).log) :
    Log.acceptedClaimsByEpoch (payloads.foldl (replayRecord registry none .commitment) n).log =
        Log.acceptedClaimsByEpoch n.log ∧
      ∀ epoch ∈ Log.drainedEpochs
        (payloads.foldl (replayRecord registry none .commitment) n).log,
        epoch ∈ Log.drainedEpochs n.log ∨ Log.Overtaken n.log payloads epoch := by
  induction payloads generalizing n with
  | nil => exact ⟨rfl, fun epoch he => .inl he⟩
  | cons payload rest ih =>
    rw [List.foldl_cons] at hstable ⊢
    have hm : Reaches base (replayRecord registry none .commitment n payload) :=
      foldl_reaches h registry .commitment [payload]
    have hgrown : n.log <+: (replayRecord registry none .commitment n payload).log :=
      foldl_prefix_log registry .commitment [payload] n
    have hrest := foldl_prefix_log registry .commitment rest
      (replayRecord registry none .commitment n payload)
    have hstep := replayRecord_commitment registry
      (settling_of_reaches hempty h (hstable.of_prefix (hgrown.trans hrest))) payload
    rcases ih _ hm hstable with ⟨haccepted, hdrained⟩
    generalize replayRecord registry none .commitment n payload = m at *
    have hsame : Log.acceptedClaimsByEpoch m.log = Log.acceptedClaimsByEpoch n.log := by
      cases hstep with
      | skipped refused => rfl
      | drained fresh decodes admitted accepted drains holds => exact accepted
    constructor
    · rw [haccepted, hsame]
    · intro epoch he
      rcases hdrained epoch he with hin | hlater
      · cases hstep with
        | skipped refused => exact .inl hin
        | drained fresh decodes admitted accepted drains holds =>
          rw [drains, List.mem_append, mem_dueEpochs] at hin
          rcases hin with hin | ⟨hclaim, -, hfinal, hlatest⟩
          · exact .inl hin
          · exact .inr ⟨hclaim, hlatest, payload, List.mem_cons_self, fresh, _, _, decodes,
              admitted, hfinal⟩
      · right
        rcases hlater with ⟨hclaim, hlatest, later, hmem, hfree, hcommits⟩
        refine ⟨hsame ▸ hclaim, fun settled hs => hlatest settled ?_, later,
          List.mem_cons_of_mem _ hmem, holds_of_prefix hgrown hfree, hcommits⟩
        exact drainedEpochs_of_prefix hgrown hs

/-- An epoch that one of them overtakes is drained. -/
theorem drained_of_overtaken (hempty : base.log = []) (registry : Registry) (payloads : List Value)
    (n : Node) (h : Reaches base n)
    (hstable : Log.StableIds (payloads.foldl (replayRecord registry none .commitment) n).log)
    (hdigest : ∀ payload ∈ payloads, ∀ other ∈ payloads, ∀ commitment,
      Commitment.fromValue other = .ok commitment →
        payload.digest = commitment.toValue.digest → payload = commitment.toValue)
    (hover : Log.Overtaken n.log payloads epoch) :
    epoch ∈ Log.drainedEpochs
      (payloads.foldl (replayRecord registry none .commitment) n).log := by
  induction payloads generalizing n with
  | nil =>
    rcases hover.closed with ⟨payload, hmem, -⟩
    cases hmem
  | cons first rest ih =>
    rw [List.foldl_cons] at hstable ⊢
    have hm : Reaches base (replayRecord registry none .commitment n first) :=
      foldl_reaches h registry .commitment [first]
    have hgrown : n.log <+: (replayRecord registry none .commitment n first).log :=
      foldl_prefix_log registry .commitment [first] n
    have hrest := foldl_prefix_log registry .commitment rest
      (replayRecord registry none .commitment n first)
    have hstep := replayRecord_commitment registry
      (settling_of_reaches hempty h (hstable.of_prefix (hgrown.trans hrest))) first
    have hih := ih _ hm hstable fun payload hp other ho =>
      hdigest payload (List.mem_cons_of_mem _ hp) other (List.mem_cons_of_mem _ ho)
    generalize replayRecord registry none .commitment n first = m at *
    rcases hover with ⟨hclaim, hlatest, payload, hmem, hfree, value, now, hdecode, hcommit, hfinal⟩
    cases hstep with
    | skipped refused =>
      rcases List.mem_cons.mp hmem with rfl | hmem
      · rcases refused with hheld | hrefused
        · rw [hfree] at hheld
          cases hheld
        · exact absurd hcommit (hrefused value now hdecode)
      · exact hih ⟨hclaim, hlatest, payload, hmem, hfree, value, now, hdecode, hcommit, hfinal⟩
    | @drained _ commitment at_ fresh decodes admitted accepted drains holds =>
      -- whatever the first commitment drains, it drains every earlier epoch with it
      by_cases hclosed : satAdd epoch Clock.finalityEpochs < at_.toNat
      · apply drainedEpochs_of_prefix hrest
        rw [drains, List.mem_append, mem_dueEpochs]
        exact .inr ⟨hclaim, fun hin => UInt64.lt_irrefl _ (hlatest _ hin), hclosed, hlatest⟩
      · have hother : payload ≠ first := by
          rintro rfl
          rw [hdecode] at decodes
          cases decodes
          rw [hcommit] at admitted
          cases admitted
          exact hclosed hfinal
        have hlater := (List.mem_cons.mp hmem).resolve_left hother
        apply hih
        refine ⟨accepted ▸ hclaim, ?_, payload, hlater, ?_, value, now, hdecode, hcommit, hfinal⟩
        · intro settled hs
          rw [drains, List.mem_append, mem_dueEpochs] at hs
          rcases hs with hs | ⟨-, -, hdue, -⟩
          · exact hlatest settled hs
          · rw [UInt64.lt_iff_toNat_lt]
            unfold satAdd at hclosed hdue
            omega
        · -- what the first one is stored as is another commitment
          by_contra hheld
          rcases holds payload.digest (by simpa using hheld) with hold | hsame
          · rw [hfree] at hold
            cases hold
          · have hpayload := hdigest payload hmem first List.mem_cons_self commitment decodes hsame
            have hheldAt : held payload = commitment.createdAt := by
              rw [hpayload]
              exact held_commitment commitment
            have hdeclared := (commitEpoch_ok admitted).1
            have hnow := (commitEpoch_ok hcommit).2
            rw [hheldAt, hdeclared] at hnow
            cases hnow
            exact hclosed hfinal

/-! ## The objectives and the claims of a session -/

/-- An objective settles nothing. -/
theorem replayObjectives_log (registry : Registry) (payloads : List Value) (n : Node) :
    ExtendsBy (fun e => e.kind = EntryKind.objective.asStr) n.log
      (payloads.foldl (replayRecord registry none .objective) n).log := by
  induction payloads generalizing n with
  | nil => exact .refl _
  | cons payload rest ih =>
    refine .trans ?_ (ih _)
    unfold replayRecord
    split
    · exact .refl _
    · rw [if_neg (by simp)]
      unfold replayAs
      dsimp only
      cases Objective.fromValue payload with
      | error error => exact .refl _
      | ok value =>
        dsimp only
        unfold postObjective post
        cases Log.checkObjective n.log value with
        | error error => exact .refl _
        | ok u => exact (ExtendsBy.refl _).concat rfl

theorem overtaken_append_objectives
    (h : ExtendsBy (fun e => e.kind = EntryKind.objective.asStr) log log') (payloads : List Value)
    (epoch : UInt64) :
    (Log.Overtaken log' payloads epoch ↔ Log.Overtaken log payloads epoch) ∧
      Log.drainedEpochs log' = Log.drainedEpochs log := by
  rcases h with ⟨new, rfl, hnew⟩
  have hnone : ∀ {kind : EntryKind}, kind ≠ .objective → Log.ofKind new kind = [] := by
    intro kind hne
    apply Log.ofKind_eq_nil
    intro e he heq
    rw [hnew e he, EntryKind.asStr_inj] at heq
    exact hne heq.symm
  have haccepted : Log.acceptedClaimsByEpoch (log ++ new) = Log.acceptedClaimsByEpoch log :=
    acceptedClaimsByEpoch_append (hnone (by decide)) (hnone (by decide))
  have hdrained : Log.drainedEpochs (log ++ new) = Log.drainedEpochs log := by
    rw [Log.drainedEpochs_append, Log.drainedEpochs, Log.drainedEpochs, hnone (by decide)]
    simp
  have hholds : ∀ digest, Log.holds (log ++ new) .commitment digest =
      Log.holds log .commitment digest := by
    intro digest
    have hfresh : Log.holds new .commitment digest = false := by
      rw [Log.holds, List.any_eq_false]
      intro e he
      rw [hnew e he]
      simp [EntryKind.asStr]
    rw [Log.holds, List.any_append, ← Log.holds, ← Log.holds, hfresh, Bool.or_false]
  have hcloses : ∀ payload, Log.Closes (log ++ new) payload epoch ↔
      Log.Closes log payload epoch := by
    intro payload
    unfold Log.Closes
    rw [hholds]
  refine ⟨⟨fun h => ?_, fun h => ?_⟩, hdrained⟩
  · rcases h.closed with ⟨payload, hmem, hcloses'⟩
    exact ⟨haccepted ▸ h.claimed, hdrained ▸ h.latest, payload, hmem, (hcloses payload).mp hcloses'⟩
  · rcases h.closed with ⟨payload, hmem, hcloses'⟩
    exact ⟨haccepted ▸ h.claimed, hdrained ▸ h.latest, payload, hmem,
      (hcloses payload).mpr hcloses'⟩

/-- A claim of an epoch or an earlier one leaves the epoch undrained. -/
theorem settleDue_undrained (hn : Settling n) {now : UInt64} (h : now ≤ epoch) (ts : String) :
    epoch ∈ Log.drainedEpochs (n.settleDue now ts).1.log ↔
      epoch ∈ Log.drainedEpochs n.log := by
  rw [(settleDue_once now ts hn.pools hn.paid).2.2.1, List.mem_append, mem_dueEpochs]
  constructor
  · rintro (hin | ⟨-, -, hfinal, -⟩)
    · exact hin
    · rw [UInt64.le_iff_toNat_le] at h
      have hlt := now.toNat_lt
      have hsize : UInt64.size = 2 ^ 64 := rfl
      unfold satAdd at hfinal
      omega
  · exact .inl

theorem replayRecord_claim_undrained (registry : Registry) (hn : Settling n) {payload : Value}
    (h : ∀ now, epochOfTs (held payload) = some now → now ≤ epoch) :
    epoch ∈ Log.drainedEpochs (replayRecord registry none .claim n payload).log ↔
      epoch ∈ Log.drainedEpochs n.log := by
  unfold replayRecord
  split
  · exact Iff.rfl
  · rw [if_neg (by simp)]
    unfold replayAs
    dsimp only
    cases Claim.fromValue payload with
    | error error => exact Iff.rfl
    | ok value =>
      dsimp only
      rcases n.reveal_cases registry value (held payload) with
        ⟨error, -, hm⟩ | ⟨now, hnow, hm | ⟨verdict, hm⟩⟩
      · rw [hm]
      · rw [hm]
        exact settleDue_undrained hn (h now (revealEpoch_ok hnow).2) _
      · have hsame := settleDue_undrained hn (h now (revealEpoch_ok hnow).2) (held payload)
        rw [hm, log_append, log_append, Log.drainedEpochs_append, Log.drainedEpochs_append,
          ← hsame]
        simp [Log.drainedEpochs, Log.ofKind, EntryKind.asStr]

theorem replayClaims_undrained (hempty : base.log = []) (registry : Registry)
    (payloads : List Value) (n : Node) (hreach : Reaches base n)
    (hstable : Log.StableIds (payloads.foldl (replayRecord registry none .claim) n).log)
    (h : ∀ payload ∈ payloads, ∀ now, epochOfTs (held payload) = some now → now ≤ epoch) :
    epoch ∈ Log.drainedEpochs (payloads.foldl (replayRecord registry none .claim) n).log ↔
      epoch ∈ Log.drainedEpochs n.log := by
  induction payloads generalizing n with
  | nil => exact Iff.rfl
  | cons payload rest ih =>
    rw [List.foldl_cons] at hstable ⊢
    have hm : Reaches base (replayRecord registry none .claim n payload) :=
      foldl_reaches hreach registry .claim [payload]
    have hgrown : n.log <+: (replayRecord registry none .claim n payload).log :=
      foldl_prefix_log registry .claim [payload] n
    have hrest := foldl_prefix_log registry .claim rest
      (replayRecord registry none .claim n payload)
    have hn := settling_of_reaches hempty hreach (hstable.of_prefix (hgrown.trans hrest))
    rw [ih _ hm hstable fun p hp => h p (List.mem_cons_of_mem _ hp)]
    exact replayRecord_claim_undrained registry hn (h payload List.mem_cons_self)

/-! ## A claim at its turn -/

/-- A refusal that does not say an epoch is settled. -/
def Elsewhere {α : Type} (result : Except RuleViolation α) : Prop :=
  ∀ late, result ≠ .error (.epochAlreadySettled late)

omit [World] in
theorem Elsewhere.bind {α β : Type} {x : Except RuleViolation α} {f : α → Except RuleViolation β}
    (hx : Elsewhere x) (hf : ∀ a, x = .ok a → Elsewhere (f a)) : Elsewhere (x >>= f) := by
  intro late h
  rcases bind_eq_error.mp h with h | ⟨a, ha, h⟩
  · exact hx late h
  · exact hf a ha late h

omit [World] in
theorem elsewhere_ok {α : Type} (a : α) : Elsewhere (.ok a : Except RuleViolation α) :=
  fun _ h => by cases h

omit [World] in
theorem elsewhere_ensure {p : Prop} [Decidable p] {error : RuleViolation}
    (h : ∀ late, error ≠ .epochAlreadySettled late) : Elsewhere (ensure p error) := by
  intro late heq
  exact h late (ensure_eq_error.mp heq).2

omit [World] in
theorem elsewhere_okOr {α : Type} {x : Option α} {error : RuleViolation}
    (h : ∀ late, error ≠ .epochAlreadySettled late) : Elsewhere (okOr error x) := by
  intro late heq
  cases x with
  | none => exact h late (Except.error.inj heq)
  | some a => cases heq

omit [World] in
theorem elsewhere_mapError {ε α : Type} {x : Except ε α} {f : ε → RuleViolation}
    (h : ∀ error late, f error ≠ .epochAlreadySettled late) : Elsewhere (x.mapError f) := by
  intro late heq
  rcases mapError_eq_error.mp heq with ⟨error, -, herror⟩
  exact h error late herror

theorem elsewhere_epochOfTimestamp (record ts : String) :
    Elsewhere (epochOfTimestamp record ts) := elsewhere_okOr fun _ h => by cases h

omit [World] in
theorem elsewhere_checkKnown {known : String → Bool} {unknown : String → RuleViolation}
    (h : ∀ id late, unknown id ≠ .epochAlreadySettled late) (ids : List String) :
    Elsewhere (Log.checkKnown known unknown ids) := by
  intro late heq
  unfold Log.checkKnown at heq
  split at heq
  · exact h _ late (Except.error.inj heq)
  · cases heq

/-- A claim of an epoch that is not drained is not refused for that. -/
theorem elsewhere_checkReveal {commitment : Option Entry} (hfresh : epoch ∉ Log.drainedEpochs log) :
    Elsewhere (Log.checkReveal log claim epoch commitment) := by
  have hundrained : Log.epochIsDrained log epoch = false := decide_eq_false hfresh
  unfold Log.checkReveal
  refine (elsewhere_okOr fun _ h => by cases h).bind fun objective _ => ?_
  refine (elsewhere_ensure fun _ h => by cases h).bind fun _ _ => ?_
  refine (elsewhere_okOr fun _ h => by cases h).bind fun entry _ => ?_
  refine Elsewhere.bind ?_ fun _ _ => ?_
  · unfold Log.checkOpens
    refine (elsewhere_epochOfTimestamp _ _).bind fun _ _ => ?_
    refine (elsewhere_epochOfTimestamp _ _).bind fun _ _ => ?_
    refine (elsewhere_ensure fun _ h => by cases h).bind fun _ _ => ?_
    exact elsewhere_ensure fun _ h => by cases h
  refine Elsewhere.bind ?_ fun _ _ => ?_
  · rw [ensure, if_pos hundrained]
    exact elsewhere_ok _
  refine (elsewhere_checkKnown (fun _ _ h => by cases h) _).bind fun _ _ => ?_
  refine (elsewhere_checkKnown (fun _ _ h => by cases h) _).bind fun _ _ => ?_
  refine Elsewhere.bind ?_ fun _ _ => elsewhere_ok _
  unfold Log.checkFrontierCitation
  split
  · exact elsewhere_ok _
  · refine (elsewhere_mapError fun _ _ h => by cases h).bind fun latest _ => ?_
    cases latest with
    | none => exact elsewhere_ok _
    | some frontier => exact elsewhere_ensure fun _ h => by cases h

theorem elsewhere_revealEpoch (log : List Entry) (claim : Claim) (ts : String) :
    Elsewhere (Log.revealEpoch log claim ts) := by
  unfold Log.revealEpoch
  refine (elsewhere_mapError fun _ _ h => by cases h).bind fun _ _ => ?_
  refine (elsewhere_mapError fun _ _ h => by cases h).bind fun _ _ => ?_
  refine (elsewhere_epochOfTimestamp _ _).bind fun _ _ => ?_
  refine (elsewhere_epochOfTimestamp _ _).bind fun _ _ => ?_
  exact (elsewhere_ensure fun _ h => by cases h).bind fun _ _ => elsewhere_ok _

theorem reveal_late (hn : Settling n) {registry : Registry} {ts : String} {late : UInt64}
    (h : (n.reveal registry claim ts).2 = .error (.epochAlreadySettled late)) :
    ∃ epoch, epochOfTs ts = some epoch ∧
      epoch ∈ Log.drainedEpochs (n.settleDue epoch ts).1.log := by
  unfold reveal at h
  cases hepoch : Log.revealEpoch n.log claim ts with
  | error error =>
    rw [hepoch] at h
    cases h
    exact absurd hepoch (elsewhere_revealEpoch _ _ _ late)
  | ok epoch =>
    refine ⟨epoch, (revealEpoch_ok hepoch).2, ?_⟩
    rw [hepoch] at h
    dsimp only at h
    have hok := (settleDue_once epoch ts hn.pools hn.paid).2.2.2
    generalize n.settleDue epoch ts = res at h hok ⊢
    rcases res with ⟨m, result⟩
    rcases hok with ⟨outcomes, rfl⟩
    dsimp only at h ⊢
    cases hcheck : Log.checkReveal m.log claim epoch (Log.matchingCommitmentEntry n.log claim) with
    | error error =>
      rw [hcheck] at h
      cases h
      by_contra hfresh
      exact elsewhere_checkReveal hfresh late hcheck
    | ok objective =>
      rw [hcheck] at h
      cases h

omit [World] in
theorem held_of_claim {payload : Value} (h : Claim.fromValue payload = .ok claim) :
    held payload = claim.createdAt := by
  unfold Claim.fromValue at h
  simp only [bind_eq_ok] at h
  rcases h with ⟨value, hvalue, _, -, _, -, _, -, _, -, _, -, _, -, createdAt, hcreated, _, -, _, -,
    hret⟩
  cases hret
  unfold expectObject at hvalue
  split at hvalue
  · cases hvalue
    unfold requiredString required at hcreated
    simp only [bind_eq_ok, okOr_eq_ok] at hcreated
    rcases hcreated with ⟨v, hv, hstr⟩
    rw [held, payloadStr, hv, Option.bind_some, hstr]
    rfl
  · cases hvalue

theorem checkReveal_drained {entry : Entry} {objective : Objective}
    (hknown : (Log.objectives log).get? claim.objectiveId = some objective)
    (hsigned : objective.requireSignedSubmitter → (signedSubmitter claim.submitter).isSome)
    (hopens : Log.checkOpens entry epoch = .ok ()) (hdrained : epoch ∈ Log.drainedEpochs log) :
    Log.checkReveal log claim epoch (some entry) = .error (.epochAlreadySettled epoch) := by
  have hsettled : Log.epochIsDrained log epoch = true := decide_eq_true hdrained
  unfold Log.checkReveal
  rw [hknown]
  simp only [okOr, ensure, if_pos hsigned, hopens, hsettled, bind, Except.bind]
  rfl

/-- A claim that opens is refused as settled if its epoch is. -/
theorem reveal_settled (hn : Settling n) (hlog : log <+: n.log) (hstable : Log.StableIds n.log)
    (h : Log.Opens log claim epoch) {registry : Registry}
    (hdrained : epoch ∈ Log.drainedEpochs (n.settleDue epoch claim.createdAt).1.log) :
    (n.reveal registry claim claim.createdAt).2 = .error (.epochAlreadySettled epoch) := by
  rcases h with ⟨hadmitted, ⟨objective, hknown, hsigned⟩, entry, hentry, hopens⟩
  rcases hlog with ⟨rest, hrest⟩
  have hfound : Log.matchingCommitmentEntry n.log claim = some entry := by
    unfold Log.matchingCommitmentEntry at hentry ⊢
    rw [← hrest, Log.ofKind_append, List.find?_append, hentry]
    rfl
  have hposted : (Log.objectives (n.settleDue epoch claim.createdAt).1.log).get?
      claim.objectiveId = some objective := by
    rcases n.settleDue_log epoch claim.createdAt with ⟨paid, hpaid, hkinds⟩
    have hnone : Log.ofKind paid .objective = [] := by
      apply Log.ofKind_eq_nil
      intro e he heq
      rcases hkinds e he with (hkind | hkind) | hkind <;> rw [heq] at hkind <;>
        exact absurd hkind (by decide)
    rw [hpaid, Log.objectives_append_of_none hnone, ← hrest]
    rw [← hrest] at hstable
    exact hstable.get?_append hknown
  rcases (settleDue_once epoch claim.createdAt hn.pools hn.paid).2.2.2 with ⟨outcomes, hok⟩
  unfold reveal
  rw [revealEpoch_own n.log log, hadmitted]
  dsimp only
  generalize n.settleDue epoch claim.createdAt = res at hok hposted hdrained ⊢
  rcases res with ⟨m, result⟩
  dsimp only at hok hposted hdrained ⊢
  rw [hok]
  dsimp only
  rw [hfound, checkReveal_drained hposted hsigned hopens hdrained]

/-- Texts that tell the records of a log and the commitments of a session
apart. -/
def SessionTexts (log : List Entry) (records : List (String × Value)) (text : String) : Prop :=
  Log.RecordTexts log text ∨ ∃ payload ∈ replayBatch records .commitment,
    text = payload.canonicalString ∨ ∃ commitment, Commitment.fromValue payload = .ok commitment ∧
      text = commitment.toValue.canonicalString

theorem afterCommitments_starts (registry : Registry) (n : Node) (records : List (String × Value)) :
    n.log <+: (afterCommitments registry n records).log :=
  (foldl_prefix_log registry .objective _ n).trans (foldl_prefix_log registry .commitment _ _)

/-- Whatever a node has done before, a claim of a session finds its epoch
drained by the session exactly when a commitment of the session overtakes it.
One that none overtakes is never refused because its epoch is settled; one that
the node would have admitted before the session is refused for it if and only if
it is overtaken. -/
theorem replay_overtakes (l : Ledger) (hempty : l.entries = []) (ops : List Op)
    (registry : Registry) (records : List (String × Value))
    (hcol : NoCollision
      (SessionTexts (replayRecords registry ((new l).run ops) records).log records))
    (before after : List Value) (payload : Value)
    (hturn : replayBatch records .claim = before ++ payload :: after)
    (epoch : UInt64) (hepoch : epochOfTs (held payload) = some epoch)
    (hundrained : epoch ∉ Log.drainedEpochs ((new l).run ops).log) :
    let turn := beforeClaim registry ((new l).run ops) records before
    let overtaken := Log.Overtaken ((new l).run ops).log (replayBatch records .commitment) epoch
    (epoch ∈ Log.drainedEpochs (turn.settleDue epoch (held payload)).1.log ↔ overtaken) ∧
      (¬overtaken → ∀ claim late,
        (turn.reveal registry claim (held payload)).2 ≠ .error (.epochAlreadySettled late)) ∧
      ∀ claim, Claim.fromValue payload = .ok claim → Log.Opens ((new l).run ops).log claim epoch →
        ((turn.reveal registry claim (held payload)).2 = .error (.epochAlreadySettled epoch) ↔
          overtaken) := by
  intro turn overtaken
  have hnew : (new l).log = [] := hempty
  have hrun : Reaches (new l) ((new l).run ops) := run_reaches _ ops
  have hstable : Log.StableIds (replayRecords registry ((new l).run ops) records).log :=
    Log.stableIds_of_noCollision (hcol.mono fun text ht => .inl ht)
  -- the node at the claim's turn, and after the commitments
  have hturnReaches : Reaches (new l) turn := by
    rcases beforeClaim_run registry ((new l).run ops) records before with ⟨more, hmore⟩
    apply hrun.trans
    rw [show turn = _ from hmore]
    exact run_reaches _ more
  have hturnPrefix : turn.log <+: (replayRecords registry ((new l).run ops) records).log := by
    rw [replayRecords_eq, beforeClaim, hturn, List.foldl_append]
    exact foldl_prefix_log registry .claim (payload :: after) _
  have hturnStable : Log.StableIds turn.log := hstable.of_prefix hturnPrefix
  have hcommits : (afterCommitments registry ((new l).run ops) records).log <+: turn.log :=
    foldl_prefix_log registry .claim before _
  have hsettling := settling_of_reaches hnew hturnReaches hturnStable
  have hobjectives := replayObjectives_log registry (replayBatch records .objective)
    ((new l).run ops)
  have hposted := foldl_reaches hrun registry .objective (replayBatch records .objective)
  have hstableCommits : Log.StableIds (afterCommitments registry ((new l).run ops) records).log :=
    hturnStable.of_prefix hcommits
  rcases overtaken_append_objectives hobjectives (replayBatch records .commitment) epoch with
    ⟨hsameOver, hsameDrained⟩
  have hbefore : ∀ p ∈ before, ∀ now, epochOfTs (held p) = some now → now ≤ epoch := by
    intro p hp now hnow
    have hsorted := pairwise_replayBatch records .claim
    rw [hturn, List.pairwise_append] at hsorted
    exact epochOfTs_le_of_replayedBefore (hsorted.2.2 p hp payload List.mem_cons_self) hnow hepoch
  have hafter : Reaches (new l) (afterCommitments registry ((new l).run ops) records) := by
    rcases beforeClaim_run registry ((new l).run ops) records [] with ⟨more, hmore⟩
    apply hrun.trans
    rw [show afterCommitments registry ((new l).run ops) records = _ from hmore]
    exact run_reaches _ more
  have hclaims := replayClaims_undrained hnew registry before _ hafter hturnStable hbefore
  have hiff : epoch ∈ Log.drainedEpochs (turn.settleDue epoch (held payload)).1.log ↔
      overtaken := by
    rw [settleDue_undrained hsettling (UInt64.le_refl epoch)]
    show epoch ∈ Log.drainedEpochs (beforeClaim registry _ records before).log ↔ _
    rw [beforeClaim, hclaims]
    constructor
    · intro hin
      rcases (overtaken_of_drained hnew registry _ _ hposted hstableCommits).2 epoch hin with
        hold | hover
      · rw [hsameDrained] at hold
        exact absurd hold hundrained
      · exact hsameOver.mp hover
    · intro hover
      apply drained_of_overtaken hnew registry _ _ hposted hstableCommits _ (hsameOver.mpr hover)
      intro p hp other hother commitment hdecode hdigest
      exact Value.canonicalString_injective (hcol _ _ (.inr ⟨p, hp, .inl rfl⟩)
        (.inr ⟨other, hother, .inr ⟨commitment, hdecode, rfl⟩⟩) hdigest)
  have honly : ∀ claim late, (turn.reveal registry claim (held payload)).2 =
      .error (.epochAlreadySettled late) → overtaken := by
    intro claim late hlate
    rcases reveal_late hsettling hlate with ⟨at_, hat, hdrained⟩
    rw [hepoch] at hat
    cases hat
    exact hiff.mp hdrained
  refine ⟨hiff, fun hnot claim late hlate => hnot (honly claim late hlate), ?_⟩
  intro claim hdecode hopens
  refine ⟨honly claim epoch, fun hover => ?_⟩
  have hgrown : ((new l).run ops).log <+: turn.log :=
    (afterCommitments_starts registry _ records).trans hcommits
  have hdrained := hiff.mpr hover
  rw [held_of_claim hdecode] at hdrained ⊢
  exact reveal_settled hsettling hgrown hturnStable hopens hdrained

end Node

end Overtakes

open Node (held_of_claim revealEpoch_own)

/-! ## One history in two sessions -/

/-- The records below and what is hashed to check them, by the length of the
text. -/
def sampleSessionDigests : List (Nat × Nat) :=
  [(5, 0x1d9283d848ea941ace1fe0d2378ef8b70056a0d4d1648b95a322d90163e78285),
    (16, 0x72062608d2321480196202bf006f05c53a104e985c40e5665f94f3af469e8386),
    (22, 0xaac5ea79e63726323fc70838f1dddd0527d9932aae24f4861989c734c5bcc86c),
    (79, 0x5637889395a5f5dea95f2ee984084fe55a2746ec29a4b10d7a5b4f69ec89dd14),
    (114, 0x1057eec0f6361bed5b9865ddf8dec2f84190ec88d885137a0d76cf33cce037d1),
    (185, 0xbb860a74f05a88db13e8fb46becbc6d0a5e4ff79de580cd4839df9c2cdd18596),
    (208, 0xc6fc2d8cb6e463516c905b88bfac3ea497a3ef44adc2d85c593fa03749cf5f07),
    (244, 0xa25b0d954e2e4c71d3206b45825ddbd2ce447ef5cf158970dba485c232ba06e8),
    (247, 0xf48f445b7cb0847c2125d0672ea92fda3a650749f4b58a24c90742f9daedc636),
    (324, 0x586f2a3102b948b19b013c2f96043392804830cf5fe7eba08e5731239964bf5e)]

@[reducible] def sampleSessionWorld : World :=
  { sampleWorld with toSha256 := .ofLengths sampleSessionDigests }

section Sample

local instance sampleSessionInstance : World := sampleSessionWorld

/-- It opens to the sample's claim. -/
def sampleAnswer : Commitment where
  objectiveId := sampleObjectiveId
  submitter := "alice"
  hash := "sha256:5637889395a5f5dea95f2ee984084fe55a2746ec29a4b10d7a5b4f69ec89dd14"
  createdAt := "2026-01-01T00:00:00Z"
  envelope := none
  signature := none

/-- The same artifact again, revealed in the same second, with a word on the
first claim. -/
def sampleNarrowing : Claim :=
  { sampleClaim with
    relations := [{
      kind := .narrows
      target := "sha256:c6fc2d8cb6e463516c905b88bfac3ea497a3ef44adc2d85c593fa03749cf5f07" }] }

/-- Somebody else's commitment, two epochs later. -/
def sampleLater : Commitment where
  objectiveId := sampleObjectiveId
  submitter := "bo"
  hash := "sha256:1d9283d848ea941ace1fe0d2378ef8b70056a0d4d1648b95a322d90163e78285"
  createdAt := "2026-01-01T00:30:00Z"
  envelope := none
  signature := none

def sampleHeld : List (String × Value) :=
  [("objective", sampleObjective.toValue), ("commitment", sampleAnswer.toValue),
    ("claim", sampleClaim.toValue)]

def sampleRest : List (String × Value) :=
  [("commitment", sampleLater.toValue), ("claim", sampleNarrowing.toValue)]

/-- The run that made them, in the order of time. -/
def sampleSessionOps : List Op :=
  [.postObjective sampleObjective "2026-01-01T00:00:00Z",
    .commit sampleAnswer "2026-01-01T00:00:00Z",
    .reveal sampleRegistry sampleClaim "2026-01-01T00:10:00Z",
    .reveal sampleRegistry sampleNarrowing "2026-01-01T00:10:00Z",
    .commit sampleLater "2026-01-01T00:30:00Z"]

/-! The ledgers the calls leave, one append after another. -/

def sampleLedgerOne : Ledger :=
  ((Node.new (sampleLog [])).append .objective sampleObjective.toValue
    "2026-01-01T00:00:00Z").ledger

def sampleLedgerTwo : Ledger :=
  ((Node.new sampleLedgerOne).append .commitment sampleAnswer.toValue
    "2026-01-01T00:00:00Z").ledger

/-- A claim and its verdict. -/
def sampleRevealed (l : Ledger) (claim : Claim) : Ledger :=
  (((Node.new l).append .claim claim.toValue "2026-01-01T00:10:00Z").append .verdict
    (verdictValue claim (sampleRegistry.run sampleObjective.verifier claim.artifact))
      "2026-01-01T00:10:00Z").ledger

/-! The digests and the times of the sample. -/

theorem sample_digests :
    sampleObjective.id = sampleObjectiveId ∧
    (sampleClaim.toValue.digest =
        "sha256:c6fc2d8cb6e463516c905b88bfac3ea497a3ef44adc2d85c593fa03749cf5f07" ∧
      sampleNarrowing.toValue.digest =
        "sha256:586f2a3102b948b19b013c2f96043392804830cf5fe7eba08e5731239964bf5e") ∧
    (sampleAnswer.toValue.digest =
        "sha256:f48f445b7cb0847c2125d0672ea92fda3a650749f4b58a24c90742f9daedc636" ∧
      sampleLater.toValue.digest =
        "sha256:a25b0d954e2e4c71d3206b45825ddbd2ce447ef5cf158970dba485c232ba06e8") ∧
    sampleObjective.verifier.digest =
        "sha256:aac5ea79e63726323fc70838f1dddd0527d9932aae24f4861989c734c5bcc86c" ∧
    (Value.object [("unit_price", u64Value 5)]).digest =
        "sha256:72062608d2321480196202bf006f05c53a104e985c40e5665f94f3af469e8386" := by
  refine ⟨?_, ⟨?_, ?_⟩, ⟨?_, ?_⟩, ?_, ?_⟩
  · exact Value.digest_ofLengths sampleSessionDigests (n := 185) (by decide +kernel) (by decide)
  · exact Value.digest_ofLengths sampleSessionDigests (n := 208) (by decide +kernel) (by decide)
  · exact Value.digest_ofLengths sampleSessionDigests (n := 324) (by decide +kernel) (by decide)
  · exact Value.digest_ofLengths sampleSessionDigests (n := 247) (by decide +kernel) (by decide)
  · exact Value.digest_ofLengths sampleSessionDigests (n := 244) (by decide +kernel) (by decide)
  · exact Value.digest_ofLengths sampleSessionDigests (n := 22) (by decide +kernel) (by decide)
  · exact Value.digest_ofLengths sampleSessionDigests (n := 16) (by decide +kernel) (by decide)

theorem sample_times :
    epochOfTs "2026-01-01T00:10:00Z" = some 2945377 ∧
    Log.commitEpoch sampleAnswer "2026-01-01T00:00:00Z" = .ok 2945376 ∧
    Log.commitEpoch sampleLater "2026-01-01T00:30:00Z" = .ok 2945379 ∧
    (parseRfc3339 "2026-01-01T00:00:00Z" = some 1767225600 ∧
      parseRfc3339 "2026-01-01T00:10:00Z" = some 1767226200 ∧
      parseRfc3339 "2026-01-01T00:30:00Z" = some 1767227400) ∧
    (∀ claim, claim = sampleClaim ∨ claim = sampleNarrowing →
      Log.revealEpoch sampleLedgerTwo.entries claim "2026-01-01T00:10:00Z" = .ok 2945377) ∧
    Log.checkOpens ((Node.new sampleLedgerOne).ledger.nextEntry "commitment" sampleAnswer.toValue
      "2026-01-01T00:00:00Z") 2945377 = .ok () := by
  refine ⟨by decide +kernel, toOk_eq_some (by decide +kernel), toOk_eq_some (by decide +kernel),
    ⟨by decide +kernel, by decide +kernel, by decide +kernel⟩, ?_,
    toOk_eq_some (by decide +kernel)⟩
  rintro claim (rfl | rfl)
  · exact toOk_eq_some (by decide +kernel)
  · exact toOk_eq_some (by decide +kernel)

theorem sample_id : sampleObjective.id = sampleObjectiveId := sample_digests.1

theorem sample_decodes : Objective.fromValue sampleObjective.toValue = .ok sampleObjective := by
  have hvalid : sampleObjective.validate = .ok () := by decide
  rw [Objective.fromValue_toValue,
    Objective.stripNulls_of_noNulls (Objective.noNulls_of_validate hvalid), hvalid]
  rfl

theorem sample_known :
    (Log.objectives sampleLedgerOne.entries).get? sampleObjectiveId = some sampleObjective := by
  have hdecoded : Log.decoded .objective Objective.fromValue sampleLedgerOne.entries =
      [((sampleLog []).nextEntry "objective" sampleObjective.toValue "2026-01-01T00:00:00Z",
        sampleObjective)] := by
    show List.filterMap _ [_] = _
    rw [List.filterMap_cons, Node.payload_nextEntry, sample_decodes]
    rfl
  rw [Log.objectives, hdecoded, List.map_singleton, sample_id]
  rfl

/-! ## The ledgers of the sample -/

theorem sample_hash : sampleClaim.commitmentHash =
    "sha256:5637889395a5f5dea95f2ee984084fe55a2746ec29a4b10d7a5b4f69ec89dd14" := by
  have hartifact : (Value.object [("objective_id", .string sampleClaim.objectiveId),
      ("artifact", sampleClaim.artifact)]).digest =
        "sha256:1057eec0f6361bed5b9865ddf8dec2f84190ec88d885137a0d76cf33cce037d1" :=
    Value.digest_ofLengths sampleSessionDigests (n := 114) (by decide +kernel) (by decide)
  unfold Claim.commitmentHash commitmentHash commitmentPreimage
  rw [hartifact]
  decide +kernel

variable {claim : Claim} {n : Node}

/-- Both claims open the commitment. -/
theorem sample_opens (h : claim = sampleClaim ∨ claim = sampleNarrowing) :
    Log.Opens sampleLedgerTwo.entries claim 2945377 := by
  have hsame : claim.objectiveId = sampleObjectiveId ∧ claim.submitter = "alice" ∧
      claim.createdAt = "2026-01-01T00:10:00Z" ∧ claim.commitmentHash =
        "sha256:5637889395a5f5dea95f2ee984084fe55a2746ec29a4b10d7a5b4f69ec89dd14" := by
    rcases h with rfl | rfl
    · exact ⟨rfl, rfl, rfl, sample_hash⟩
    · exact ⟨rfl, rfl, rfl, sample_hash⟩
  have hadmitted := sample_times.2.2.2.2.1 claim h
  rcases hsame with ⟨hid, hsubmitter, hcreated, hhash⟩
  constructor
  · rw [hcreated]
    exact hadmitted
  · refine ⟨sampleObjective, ?_, fun h => by cases h⟩
    rw [hid, sampleLedgerTwo, ← Node.log, Node.log_append, Log.objectives_append_of_none rfl]
    exact sample_known
  · refine ⟨(Node.new sampleLedgerOne).ledger.nextEntry "commitment" sampleAnswer.toValue
      "2026-01-01T00:00:00Z", ?_, ?_⟩
    · unfold Log.matchingCommitmentEntry
      rw [hid, hsubmitter, hhash]
      exact List.find?_cons_of_pos (by rw [Node.payload_nextEntry]; decide)
    · exact sample_times.2.2.2.2.2

/-- Its own texts name the sample's objective. -/
theorem sample_stable {log : List Entry}
    (h : ∀ e ∈ Log.ofKind log .objective, e.payload = sampleObjective.toValue) :
    Log.StableIds log := by
  have hone : ∀ p ∈ Log.decoded .objective Objective.fromValue log, p.2 = sampleObjective := by
    intro p hp
    rcases Log.mem_decoded.mp hp with ⟨hmem, hkind, hdecode⟩
    rw [h p.1 (Log.mem_ofKind.mpr ⟨hmem, hkind⟩), sample_decodes] at hdecode
    exact (Except.ok.inj hdecode).symm
  intro p hp q hq _
  rw [hone p hp, hone q hq]

theorem sample_posts (h : n.ledger = sampleLog []) :
    (n.postObjective sampleObjective "2026-01-01T00:00:00Z").1.ledger = sampleLedgerOne := by
  have hcheck : Log.checkObjective n.log sampleObjective = .ok () := by
    rw [Node.log, h]
    exact toOk_eq_some (by decide)
  unfold Node.postObjective Node.post
  rw [hcheck]
  dsimp only
  unfold Node.append
  rw [Node.log, h]
  rfl

/-! ## What the calls of the sample do -/

theorem sample_commits (h : n.ledger = sampleLedgerOne) :
    (n.commit sampleAnswer "2026-01-01T00:00:00Z").1.ledger = sampleLedgerTwo := by
  have hlog : n.log = sampleLedgerOne.entries := by rw [Node.log, h]
  have hcheck : Log.checkCommit n.log sampleAnswer = .ok () := by
    rw [hlog]
    unfold Log.checkCommit
    rw [show sampleAnswer.objectiveId = sampleObjectiveId from rfl, sample_known]
    rfl
  have hepoch := sample_times.2.1
  have hdue : Log.dueEpochs n.log 2945376 = [] := by
    rw [hlog]
    rfl
  rw [Node.commit_ledger hepoch hdue hcheck]
  unfold Node.append
  rw [Node.log, h]
  rfl

/-- The log of the sample's objective and commitment, with claims after them. -/
structure SampleLog (log : List Entry) : Prop where
  starts : sampleLedgerTwo.entries <+: log
  objectives : Log.objectives log = Log.objectives sampleLedgerOne.entries
  undrained : Log.drainedEpochs log = []
  claims : ∀ e ∈ Log.ofKind log .claim, e.ts = "2026-01-01T00:10:00Z"
  posted : ∀ e ∈ Log.ofKind log .objective, e.payload = sampleObjective.toValue

theorem sampleLog_two : SampleLog sampleLedgerTwo.entries where
  starts := List.prefix_rfl
  objectives := Log.objectives_append_of_none rfl
  undrained := rfl
  claims := fun e he => by cases he
  posted := fun e he => by rw [List.mem_singleton.mp (show e ∈ [_] from he)]; rfl

theorem SampleLog.revealed {l : Ledger} (h : SampleLog l.entries) (claim : Claim) :
    SampleLog (sampleRevealed l claim).entries := by
  have hlog : ∃ e v, (sampleRevealed l claim).entries = l.entries ++ [e] ++ [v] ∧
      e.kind = "claim" ∧ e.ts = "2026-01-01T00:10:00Z" ∧ v.kind = "verdict" :=
    ⟨_, _, rfl, rfl, rfl, rfl⟩
  rcases hlog with ⟨e, v, hlog, hkind, hts, hverdict⟩
  have hnone : ∀ kind : EntryKind, kind ≠ .claim → kind ≠ .verdict →
      Log.ofKind ([e] ++ [v]) kind = [] := by
    intro kind hc hv
    apply Log.ofKind_eq_nil
    intro x hx heq
    rcases List.mem_append.mp hx with hx | hx
    · rw [List.mem_singleton.mp hx, hkind] at heq
      exact hc (EntryKind.asStr_inj.mp heq.symm)
    · rw [List.mem_singleton.mp hx, hverdict] at heq
      exact hv (EntryKind.asStr_inj.mp heq.symm)
  rw [List.append_assoc] at hlog
  constructor
  · rw [hlog]
    exact h.starts.trans (List.prefix_append _ _)
  · rw [hlog, Log.objectives_append_of_none (hnone _ (by decide) (by decide)), h.objectives]
  · rw [hlog, Log.drainedEpochs_append, h.undrained, Log.drainedEpochs,
      hnone _ (by decide) (by decide)]
    rfl
  · intro x hx
    rw [hlog, Log.ofKind_append, List.mem_append] at hx
    rcases hx with hx | hx
    · exact h.claims x hx
    · rcases Log.mem_ofKind.mp hx with ⟨hin, hclaim⟩
      rcases List.mem_append.mp hin with hin | hin
      · rw [List.mem_singleton.mp hin, hts]
      · rw [List.mem_singleton.mp hin, hverdict] at hclaim
        exact absurd hclaim (by decide)
  · rw [hlog, Log.ofKind_append, hnone _ (by decide) (by decide), List.append_nil]
    exact h.posted

/-- A claim of the sample is admitted if the claim it speaks about is there. -/
theorem sample_reveals (h : SampleLog n.log)
    (hclaim : claim = sampleClaim ∨ claim = sampleNarrowing) :
    (∀ error, Log.checkKnown (fun id => id ∈ Log.claimIds n.log) .unknownRelationTarget
        (claim.relations.map ClaimRelation.target) = .error error →
      (n.reveal sampleRegistry claim claim.createdAt).1.ledger = n.ledger) ∧
    (Log.checkKnown (fun id => id ∈ Log.claimIds n.log) .unknownRelationTarget
        (claim.relations.map ClaimRelation.target) = .ok () →
      (n.reveal sampleRegistry claim claim.createdAt).1.ledger = sampleRevealed n.ledger claim) := by
  rcases sample_opens hclaim with ⟨hadmitted, ⟨objective, hknown, hsigned⟩, entry, hentry, hopens⟩
  have hsame : claim.objectiveId = sampleObjectiveId ∧ claim.cites = [] ∧
      claim.createdAt = "2026-01-01T00:10:00Z" := by
    rcases hclaim with rfl | rfl
    · exact ⟨rfl, rfl, rfl⟩
    · exact ⟨rfl, rfl, rfl⟩
  have hfound : Log.matchingCommitmentEntry n.log claim = some entry := by
    rcases h.starts with ⟨rest, hrest⟩
    unfold Log.matchingCommitmentEntry at hentry ⊢
    rw [← hrest, Log.ofKind_append, List.find?_append, hentry]
    rfl
  have hobjective : objective = sampleObjective := by
    rw [hsame.1, sampleLog_two.objectives, sample_known] at hknown
    exact (Option.some.inj hknown).symm
  have hget : (Log.objectives n.log).get? claim.objectiveId = some objective := by
    rw [h.objectives, hsame.1, sample_known, hobjective]
  have hepoch := sample_times.1
  have hdue : Log.dueEpochs n.log 2945377 = [] :=
    Log.dueEpochs_eq_nil fun e he => by rw [h.claims e he, hepoch]
  have hfresh : (2945377 : UInt64) ∉ Log.drainedEpochs n.log := by
    rw [h.undrained]
    exact List.not_mem_nil
  have hcheck := Log.checkReveal_eq hget hsigned hopens hfresh (by rw [hobjective]; rfl) hsame.2.1
  have hreveal := Node.reveal_ledger sampleRegistry
    (hadmitted ▸ revealEpoch_own n.log sampleLedgerTwo.entries claim) hfound hdue
  rw [hcheck] at hreveal
  constructor
  · intro error herror
    exact hreveal.1 error (by rw [herror]; rfl)
  · intro hok
    rw [hreveal.2 objective (by rw [hok]; rfl), hobjective, hsame.2.2]
    rfl

/-! ## The records of the sample -/

theorem sampleClaim_decodes : Claim.fromValue sampleClaim.toValue = .ok sampleClaim :=
  Claim.fromValue_toValue_iff.mpr ⟨rfl, toOk_eq_some (by decide)⟩

theorem sampleNarrowing_decodes : Claim.fromValue sampleNarrowing.toValue = .ok sampleNarrowing :=
  Claim.fromValue_toValue_iff.mpr ⟨rfl, toOk_eq_some (by decide)⟩

theorem sampleAnswer_decodes : Commitment.fromValue sampleAnswer.toValue = .ok sampleAnswer :=
  Commitment.fromValue_toValue_plain rfl (toOk_eq_some (by decide))

/-- Two claims of one second replay in the order of their digests. -/
theorem sample_batch : replayBatch (sampleHeld ++ [("claim", sampleNarrowing.toValue)]) .claim =
    [sampleNarrowing.toValue, sampleClaim.toValue] := by
  have hsame : held sampleNarrowing.toValue = held sampleClaim.toValue := by
    rw [held_of_claim sampleNarrowing_decodes, held_of_claim sampleClaim_decodes]
    rfl
  have hafter : ¬ReplayedBefore sampleClaim.toValue sampleNarrowing.toValue := by
    unfold ReplayedBefore
    rw [hsame, sample_digests.2.1.1, sample_digests.2.1.2]
    decide +kernel
  show [sampleClaim.toValue, sampleNarrowing.toValue].insertionSort ReplayedBefore = _
  rw [List.insertionSort_cons, List.insertionSort_cons, List.insertionSort_nil,
    List.orderedInsert_nil, List.orderedInsert_cons, if_neg hafter, List.orderedInsert_nil]

theorem sample_replayRecord {kind : EntryKind} {payload : Value}
    (hfree : Log.holds n.log kind payload.digest = false) :
    Node.replayRecord sampleRegistry none kind n payload =
      n.replayAs sampleRegistry payload kind := by
  unfold Node.replayRecord
  rw [if_neg (by simp [hfree]), if_neg (by simp)]

theorem sample_holds {kind : EntryKind} {payload : Value}
    (hheld : Log.holds n.log kind payload.digest = true) :
    Node.replayRecord sampleRegistry none kind n payload = n := by
  unfold Node.replayRecord
  rw [if_pos hheld]

/-! ## A second call -/

/-- The objective and the commitment of the sample, replayed by an empty node. -/
theorem sample_afterCommitments (h : n.ledger = sampleLog []) {records : List (String × Value)}
    (hobjective : replayBatch records .objective = [sampleObjective.toValue])
    (hcommitment : replayBatch records .commitment = [sampleAnswer.toValue]) :
    (Node.afterCommitments sampleRegistry n records).ledger = sampleLedgerTwo := by
  have hlog : n.log = [] := by rw [Node.log, h]; rfl
  have hposted : (Node.replayRecord sampleRegistry none .objective n
      sampleObjective.toValue).ledger = sampleLedgerOne := by
    rw [sample_replayRecord (by rw [hlog]; rfl), Node.replayAs, sample_decodes]
    exact sample_posts h
  unfold Node.afterCommitments
  rw [hobjective, hcommitment, List.foldl_cons, List.foldl_nil, List.foldl_cons, List.foldl_nil]
  generalize Node.replayRecord sampleRegistry none .objective n sampleObjective.toValue = m
    at hposted
  have hone : m.log = sampleLedgerOne.entries := by rw [Node.log, hposted]
  rw [sample_replayRecord (by rw [hone]; rfl), Node.replayAs, sampleAnswer_decodes]
  exact sample_commits hposted

theorem sample_claims_revealed :
    Log.claims (sampleRevealed sampleLedgerTwo sampleClaim).entries =
      [((Node.new sampleLedgerTwo).ledger.nextEntry "claim" sampleClaim.toValue
        "2026-01-01T00:10:00Z", sampleClaim)] := by
  unfold Log.claims Log.decoded
  show List.filterMap _ [_] = _
  rw [List.filterMap_cons, Node.payload_nextEntry, sampleClaim_decodes]
  rfl

theorem sample_claimIds : Log.claimIds (sampleRevealed sampleLedgerTwo sampleClaim).entries =
    ["sha256:c6fc2d8cb6e463516c905b88bfac3ea497a3ef44adc2d85c593fa03749cf5f07"] := by
  rw [Log.claimIds, sample_claims_revealed, List.map_singleton, ← sample_digests.2.1.1]
  rfl

/-- What is replayed after the commitment: a claim that speaks about the other
one, and the other one. -/
theorem sample_replayClaim (hclaim : claim = sampleClaim ∨ claim = sampleNarrowing)
    (hfree : Log.holds n.log .claim claim.toValue.digest = false) :
    (Node.replayRecord sampleRegistry none .claim n claim.toValue).ledger =
      (n.reveal sampleRegistry claim claim.createdAt).1.ledger := by
  have hdecodes : Claim.fromValue claim.toValue = .ok claim := by
    rcases hclaim with rfl | rfl
    · exact sampleClaim_decodes
    · exact sampleNarrowing_decodes
  rw [sample_replayRecord hfree, Node.replayAs, held_of_claim hdecodes, hdecodes]

/-- The first call admits the claim alone, the other one comes too early. -/
theorem sample_first (h : n.ledger = sampleLog []) :
    (Node.replayRecords sampleRegistry n
      (sampleHeld ++ [("claim", sampleNarrowing.toValue)])).ledger =
        sampleRevealed sampleLedgerTwo sampleClaim := by
  have htwo : (Node.afterCommitments sampleRegistry n
      (sampleHeld ++ [("claim", sampleNarrowing.toValue)])).ledger = sampleLedgerTwo :=
    sample_afterCommitments h rfl rfl
  rw [Node.replayRecords_eq, Node.beforeClaim, sample_batch, List.foldl_cons, List.foldl_cons,
    List.foldl_nil]
  generalize Node.afterCommitments sampleRegistry n _ = m at htwo
  have hlog : m.log = sampleLedgerTwo.entries := by rw [Node.log, htwo]
  have hm : SampleLog m.log := hlog ▸ sampleLog_two
  have hrefused : (Node.replayRecord sampleRegistry none .claim m
      sampleNarrowing.toValue).ledger = sampleLedgerTwo := by
    rw [sample_replayClaim (.inr rfl) (by rw [hlog]; rfl), ← htwo]
    exact (sample_reveals hm (.inr rfl)).1 _ (by rw [hlog]; rfl)
  generalize Node.replayRecord sampleRegistry none .claim m sampleNarrowing.toValue = k
    at hrefused
  have hlog' : k.log = sampleLedgerTwo.entries := by rw [Node.log, hrefused]
  have hk : SampleLog k.log := hlog' ▸ sampleLog_two
  rw [sample_replayClaim (.inl rfl) (by rw [hlog']; rfl), ← hrefused]
  exact (sample_reveals hk (.inl rfl)).2 rfl

/-- The second call admits the other one. -/
theorem sample_second (h : n.ledger = sampleRevealed sampleLedgerTwo sampleClaim) :
    (Node.replayRecords sampleRegistry n
      (sampleHeld ++ [("claim", sampleNarrowing.toValue)])).ledger =
        sampleRevealed (sampleRevealed sampleLedgerTwo sampleClaim) sampleNarrowing := by
  have hlog : n.log = (sampleRevealed sampleLedgerTwo sampleClaim).entries := by rw [Node.log, h]
  have hsample : SampleLog n.log := by
    rw [hlog]
    exact SampleLog.revealed sampleLog_two sampleClaim
  have hobjective : Log.holds n.log .objective sampleObjective.toValue.digest = true := by
    apply Log.holds_of_getElem 0
    rw [hlog]
    exact ⟨_, rfl, rfl, rfl⟩
  have hcommitment : Log.holds n.log .commitment sampleAnswer.toValue.digest = true := by
    apply Log.holds_of_getElem 1
    rw [hlog]
    exact ⟨_, rfl, rfl, rfl⟩
  have hother : Log.holds n.log .claim sampleNarrowing.toValue.digest = false := by
    have hne : sampleClaim.toValue.digest ≠ sampleNarrowing.toValue.digest := by
      rw [sample_digests.2.1.1, sample_digests.2.1.2]
      decide
    apply Log.holds_of_other ?_ hne
    rw [hlog]
    intro e he
    rw [List.mem_singleton.mp (show e ∈ [_] from he)]
    rfl
  have hknown : Log.checkKnown (fun id => id ∈ Log.claimIds n.log) .unknownRelationTarget
      (sampleNarrowing.relations.map ClaimRelation.target) = .ok () := by
    rw [hlog, sample_claimIds]
    rfl
  rw [Node.replayRecords_eq, Node.beforeClaim, sample_batch]
  unfold Node.afterCommitments
  rw [show replayBatch (sampleHeld ++ [("claim", sampleNarrowing.toValue)]) .objective =
      [sampleObjective.toValue] from rfl,
    show replayBatch (sampleHeld ++ [("claim", sampleNarrowing.toValue)]) .commitment =
      [sampleAnswer.toValue] from rfl]
  simp only [List.foldl_cons, List.foldl_nil]
  rw [sample_holds hobjective, sample_holds hcommitment]
  have hnew := (sample_reveals hsample (.inr rfl)).2 hknown
  rw [← sample_replayClaim (.inr rfl) hother, h] at hnew
  generalize Node.replayRecord sampleRegistry none .claim n sampleNarrowing.toValue = m at hnew
  have hagain : Log.holds m.log .claim sampleClaim.toValue.digest = true := by
    apply Log.holds_of_getElem 2
    rw [Node.log, hnew]
    exact ⟨_, rfl, rfl, rfl⟩
  rw [sample_holds hagain, hnew]

/-- The first call leaves a claim out that the second one admits. -/
theorem not_replayRecords_idempotent :
    ¬∀ (registry : Registry) (n : Node) (records : List (String × Value)),
      Log.replayed (Node.replayRecords registry (Node.replayRecords registry n records)
        records).log = Log.replayed (Node.replayRecords registry n records).log := by
  intro h
  have hsame := h sampleRegistry (Node.new (sampleLog []))
    (sampleHeld ++ [("claim", sampleNarrowing.toValue)])
  have hfirst : (Node.replayRecords sampleRegistry (Node.new (sampleLog []))
      (sampleHeld ++ [("claim", sampleNarrowing.toValue)])).ledger = _ := sample_first rfl
  have hsecond := sample_second hfirst
  rw [Node.log, hsecond, Node.log, hfirst] at hsame
  have hlength := congrArg List.length hsame
  cases hlength

/-! ## A claim overtaken -/

theorem sample_accepted : (2945377, sampleClaim) ∈
    Log.acceptedClaimsByEpoch (sampleRevealed sampleLedgerTwo sampleClaim).entries := by
  have hverdict : ∃ e, Log.ofKind (sampleRevealed sampleLedgerTwo sampleClaim).entries .verdict =
      [e] ∧ payloadStr e.payload "claim_id" = some sampleClaim.id ∧ Log.isAccept e = true := by
    refine ⟨_, rfl, ?_, ?_⟩
    · rw [Node.payload_nextEntry, payloadStr, verdictValue, Value.get_object]
      simp [BTreeMap.lookupEntry]
    · rw [Log.isAccept, Node.payload_nextEntry, verdictValue, Value.get_object]
      simp [BTreeMap.lookupEntry]
      rfl
  rcases hverdict with ⟨e, hverdict, hid, haccept⟩
  have hids : Log.acceptedClaimIds (sampleRevealed sampleLedgerTwo sampleClaim).entries =
      [sampleClaim.id] := by
    rw [Log.acceptedClaimIds, hverdict, List.foldl_cons, List.foldl_nil, Log.acceptStep, hid]
    dsimp only
    rw [if_pos haccept]
    rfl
  have hepoch := sample_times.1
  rw [Log.acceptedClaimsByEpoch, sample_claims_revealed, hids]
  simp [Log.firstAccepted, hepoch]

theorem sample_settling {base : Node} (hempty : base.log = []) (h : Node.Reaches base n)
    (hobjective : ∀ e ∈ Log.ofKind n.log .objective, e.payload = sampleObjective.toValue) :
    Node.Settling n :=
  Node.settling_of_reaches hempty h (sample_stable hobjective)

theorem sampleLater_decodes : Commitment.fromValue sampleLater.toValue = .ok sampleLater :=
  Commitment.fromValue_toValue_plain rfl (toOk_eq_some (by decide))

theorem sampleLater_epoch :
    Log.commitEpoch sampleLater "2026-01-01T00:30:00Z" = .ok 2945379 := sample_times.2.2.1

/-- Replayed, it is committed at its own time. -/
theorem sampleLater_replayed (n : Node) : n.replayAs sampleRegistry sampleLater.toValue .commitment =
    (n.commit sampleLater "2026-01-01T00:30:00Z").1 := by
  unfold Node.replayAs
  rw [sampleLater_decodes, Node.held_commitment]
  rfl

/-- The later commitment is admitted once everything before it is settled. -/
theorem sample_commits_later {base : Node} (hempty : base.log = []) (h : Node.Reaches base n)
    (hlog : SampleLog n.log) : (n.commit sampleLater "2026-01-01T00:30:00Z").1 =
      (n.settleDue 2945379 "2026-01-01T00:30:00Z").1.append .commitment sampleLater.toValue
        "2026-01-01T00:30:00Z" := by
  have hn := sample_settling hempty h hlog.posted
  rcases (Node.settleDue_once 2945379 "2026-01-01T00:30:00Z" hn.pools hn.paid).2.2.2 with
    ⟨outcomes, hok⟩
  have hpayouts := n.settleDue_log 2945379 "2026-01-01T00:30:00Z"
  unfold Node.commit
  rw [sampleLater_epoch]
  dsimp only
  generalize n.settleDue 2945379 "2026-01-01T00:30:00Z" = res at hok hpayouts ⊢
  rcases res with ⟨m, result⟩
  dsimp only at hok hpayouts ⊢
  have hget : (Log.objectives m.log).get? sampleObjectiveId = some sampleObjective := by
    rcases hpayouts with ⟨new, hnew, hkinds⟩
    have hnone : Log.ofKind new .objective = [] := by
      apply Log.ofKind_eq_nil
      intro e he heq
      rcases hkinds e he with (hkind | hkind) | hkind <;> rw [heq] at hkind <;>
        exact absurd hkind (by decide)
    rw [hnew, Log.objectives_append_of_none hnone, hlog.objectives, sample_known]
  have hcheck : Log.checkCommit m.log sampleLater = .ok () := by
    unfold Log.checkCommit
    rw [show sampleLater.objectiveId = sampleObjectiveId from rfl, hget]
    rfl
  rw [hok]
  unfold Node.post
  dsimp only
  rw [hcheck]

/-- The node of the run before the later commitment. -/
theorem sample_honest : ((Node.new (sampleLog [])).run (sampleSessionOps.take 4)).ledger =
    sampleRevealed (sampleRevealed sampleLedgerTwo sampleClaim) sampleNarrowing := by
  have hone := sample_posts (n := Node.new (sampleLog [])) rfl
  have htwo := sample_commits hone
  have hops : sampleSessionOps.take 4 = [.postObjective sampleObjective "2026-01-01T00:00:00Z",
    .commit sampleAnswer "2026-01-01T00:00:00Z",
    .reveal sampleRegistry sampleClaim sampleClaim.createdAt,
    .reveal sampleRegistry sampleNarrowing sampleNarrowing.createdAt] := rfl
  rw [hops, Node.run, List.foldl_cons, List.foldl_cons, List.foldl_cons, List.foldl_cons,
    List.foldl_nil, Node.step, Node.step, Node.step, Node.step]
  generalize (((Node.new (sampleLog [])).postObjective sampleObjective
    "2026-01-01T00:00:00Z").1.commit sampleAnswer "2026-01-01T00:00:00Z").1 = n at htwo
  have hn : SampleLog n.log := by
    rw [Node.log, htwo]
    exact sampleLog_two
  have hfirst := (sample_reveals hn (.inl rfl)).2 rfl
  rw [htwo] at hfirst
  generalize (n.reveal sampleRegistry sampleClaim sampleClaim.createdAt).1 = m at hfirst
  have hlog : m.log = (sampleRevealed sampleLedgerTwo sampleClaim).entries := by
    rw [Node.log, hfirst]
  have hm : SampleLog m.log := by
    rw [hlog]
    exact sampleLog_two.revealed sampleClaim
  have hknown : Log.checkKnown (fun id => id ∈ Log.claimIds m.log) .unknownRelationTarget
      (sampleNarrowing.relations.map ClaimRelation.target) = .ok () := by
    rw [hlog, sample_claimIds]
    rfl
  rw [(sample_reveals hm (.inr rfl)).2 hknown, hfirst]

/-- The run makes the records of the two sessions. -/
theorem sample_inputs : (Log.inputs ((Node.new (sampleLog [])).run sampleSessionOps).log).Perm
    (sampleHeld ++ sampleRest) := by
  have hhonest := sample_honest
  have hreach := (Node.new (sampleLog [])).run_reaches (sampleSessionOps.take 4)
  have hops : sampleSessionOps = sampleSessionOps.take 4 ++
    [.commit sampleLater "2026-01-01T00:30:00Z"] := rfl
  rw [hops, Node.run_append]
  generalize (Node.new (sampleLog [])).run (sampleSessionOps.take 4) = n at hhonest hreach
  have hn : SampleLog n.log := by
    rw [Node.log, hhonest]
    exact (sampleLog_two.revealed sampleClaim).revealed sampleNarrowing
  have hmade : Log.inputs n.log = sampleHeld ++ [("claim", sampleNarrowing.toValue)] := by
    rw [Node.log, hhonest]
    rfl
  have happend : ∀ log e, Log.inputs (log ++ [e]) = Log.inputs log ++ Log.inputs [e] := by
    intro log e
    rw [Log.inputs, List.filter_append, List.map_append, ← Log.inputs, ← Log.inputs]
  rw [Node.run, List.foldl_cons, List.foldl_nil, Node.step, sample_commits_later rfl hreach hn,
    Node.log_append, happend,
    Log.inputs_of_payouts (n.settleDue_log 2945379 "2026-01-01T00:30:00Z"), hmade]
  show (sampleHeld ++ [("claim", sampleNarrowing.toValue)] ++
    [("commitment", sampleLater.toValue)]).Perm _
  rw [List.append_assoc]
  exact (List.Perm.swap _ _ []).append_left sampleHeld

theorem sample_partial : (Node.replayRecords sampleRegistry (Node.new (sampleLog []))
    sampleHeld).ledger = sampleRevealed sampleLedgerTwo sampleClaim := by
  have htwo : (Node.afterCommitments sampleRegistry (Node.new (sampleLog []))
      sampleHeld).ledger = sampleLedgerTwo := sample_afterCommitments rfl rfl rfl
  rw [Node.replayRecords_eq, Node.beforeClaim, show replayBatch sampleHeld .claim =
    [sampleClaim.toValue] from rfl, List.foldl_cons, List.foldl_nil]
  generalize Node.afterCommitments sampleRegistry (Node.new (sampleLog [])) sampleHeld = m at htwo
  have hlog : m.log = sampleLedgerTwo.entries := by rw [Node.log, htwo]
  have hm : SampleLog m.log := hlog ▸ sampleLog_two
  rw [sample_replayClaim (.inl rfl) (by rw [hlog]; rfl), (sample_reveals hm (.inl rfl)).2 rfl, htwo]

theorem sampleLater_unheld (hn : n.ledger = sampleRevealed sampleLedgerTwo sampleClaim) :
    Log.holds n.log .commitment sampleLater.toValue.digest = false := by
  have hne : sampleAnswer.toValue.digest ≠ sampleLater.toValue.digest := by
    rw [sample_digests.2.2.1.1, sample_digests.2.2.1.2]
    decide
  apply Log.holds_of_other ?_ hne
  rw [Node.log, hn]
  intro e he
  rw [List.mem_singleton.mp (show e ∈ [_] from he)]
  rfl

/-- The later commitment settles the epoch of the claim that is still to come. -/
theorem sample_overtaken (hn : n.ledger = sampleRevealed sampleLedgerTwo sampleClaim) :
    Log.Overtaken n.log (replayBatch sampleRest .commitment) 2945377 := by
  have hlog : n.log = (sampleRevealed sampleLedgerTwo sampleClaim).entries := by rw [Node.log, hn]
  constructor
  · rw [hlog]
    exact ⟨_, sample_accepted⟩
  · rw [hlog, (sampleLog_two.revealed sampleClaim).undrained]
    intro settled hs
    cases hs
  · refine ⟨sampleLater.toValue, List.mem_singleton_self _, sampleLater_unheld hn, sampleLater,
      2945379, sampleLater_decodes, ?_, by decide⟩
    rw [Node.held_commitment]
    exact sampleLater_epoch

/-- The rest has one commitment, which is replayed before the claim. -/
theorem sample_turn (n : Node) : Node.beforeClaim sampleRegistry n sampleRest [] =
    [sampleLater.toValue].foldl (Node.replayRecord sampleRegistry none .commitment) n := rfl

/-- A node that has replayed a part of an honest history refuses a claim of the
rest, of an epoch it has not settled, because the rest settles it first. -/
theorem not_replay_keeps :
    ¬∀ (registry : Registry) (l : Ledger) (ops : List Op), l.entries = [] →
      (ops.Pairwise fun a b => ∀ s t, parseRfc3339 a.ts = some s → parseRfc3339 b.ts = some t →
        s ≤ t) →
      ∀ received rest : List (String × Value),
        (Log.inputs ((Node.new l).run ops).log).Perm (received ++ rest) →
        let part := Node.replayRecords registry (Node.new l) received
        ∀ before payload after claim epoch,
          replayBatch rest .claim = before ++ payload :: after →
          Claim.fromValue payload = .ok claim → epochOfTs (held payload) = some epoch →
          epoch ∉ Log.drainedEpochs part.log →
          ∀ late, ((Node.beforeClaim registry part rest before).reveal registry claim
            (held payload)).2 ≠ .error (.epochAlreadySettled late) := by
  intro h
  have htimely : sampleSessionOps.Pairwise fun a b => ∀ s t, parseRfc3339 a.ts = some s →
      parseRfc3339 b.ts = some t → s ≤ t := by
    have htimes : sampleSessionOps.map Op.ts = ["2026-01-01T00:00:00Z", "2026-01-01T00:00:00Z",
      "2026-01-01T00:10:00Z", "2026-01-01T00:10:00Z", "2026-01-01T00:30:00Z"] := rfl
    rcases sample_times.2.2.2.1 with ⟨hfirst, hsecond, hthird⟩
    have hsorted : ((sampleSessionOps.map Op.ts).map parseRfc3339).Pairwise fun x y =>
        ∀ s t, x = some s → y = some t → s ≤ t := by
      rw [htimes]
      simp only [List.map_cons, List.map_nil, hfirst, hsecond, hthird]
      simp
    rw [List.map_map, List.pairwise_map] at hsorted
    exact hsorted
  have hpart := sample_partial
  have hepoch : epochOfTs (held sampleNarrowing.toValue) = some 2945377 := by
    rw [held_of_claim sampleNarrowing_decodes]
    exact sample_times.1
  have hlast := h sampleRegistry (sampleLog []) sampleSessionOps rfl htimely sampleHeld sampleRest
    sample_inputs [] sampleNarrowing.toValue [] sampleNarrowing 2945377 rfl
    sampleNarrowing_decodes hepoch
  have hreach : Node.Reaches (Node.new (sampleLog []))
      (Node.replayRecords sampleRegistry (Node.new (sampleLog [])) sampleHeld) := by
    rcases Node.beforeClaim_run sampleRegistry (Node.new (sampleLog [])) sampleHeld
      (replayBatch sampleHeld .claim) with ⟨ops, hops⟩
    rw [Node.replayRecords_eq, hops]
    exact Node.run_reaches _ ops
  generalize Node.replayRecords sampleRegistry (Node.new (sampleLog [])) sampleHeld = n
    at hpart hlast hreach
  have hlog : n.log = (sampleRevealed sampleLedgerTwo sampleClaim).entries := by rw [Node.log, hpart]
  have hn : SampleLog n.log := by
    rw [hlog]
    exact sampleLog_two.revealed sampleClaim
  have hfresh : (2945377 : UInt64) ∉ Log.drainedEpochs n.log := by
    rw [hn.undrained]
    exact List.not_mem_nil
  have hover := sample_overtaken hpart
  have hrun := Node.foldl_reaches hreach sampleRegistry .commitment [sampleLater.toValue]
  have hgrown := Node.foldl_prefix_log sampleRegistry .commitment [sampleLater.toValue] n
  have hstable : Log.StableIds ([sampleLater.toValue].foldl
      (Node.replayRecord sampleRegistry none .commitment) n).log := by
    apply sample_stable
    rw [List.foldl_cons, List.foldl_nil, sample_replayRecord (sampleLater_unheld hpart),
      sampleLater_replayed, sample_commits_later rfl hreach hn, Node.log_append, Log.ofKind_append,
      Node.ofKind_payouts (n.settleDue_log _ _) ⟨by decide, by decide, by decide⟩]
    intro e he
    exact hn.posted e (by simpa [Log.ofKind, EntryKind.asStr] using he)
  have hdrained := Node.drained_of_overtaken rfl sampleRegistry [sampleLater.toValue] n hreach
    hstable (fun _ hp other ho commitment hdecode _ => by
      rw [List.mem_singleton.mp ho, sampleLater_decodes] at hdecode
      rw [List.mem_singleton.mp hp, ← Except.ok.inj hdecode]) hover
  rw [← sample_turn n] at hdrained hrun hgrown hstable
  have hsettling := Node.settling_of_reaches rfl hrun hstable
  have hopens := sample_opens (.inr rfl)
  apply hlast hfresh 2945377
  rw [held_of_claim sampleNarrowing_decodes]
  apply Node.reveal_settled hsettling (hn.starts.trans hgrown) hstable hopens
  rw [Node.settleDue_undrained hsettling (UInt64.le_refl _)]
  exact hdrained

theorem sampleHeld_encoded : Encoded sampleHeld := by
  intro kind hkind payload hpayload stored hstored
  rcases List.mem_cons.mp hkind with rfl | hkind
  · rw [List.mem_singleton.mp (show payload ∈ [_] from hpayload)] at hstored ⊢
    rw [storedAs, sampleAnswer_decodes] at hstored
    exact (Option.some.inj hstored).symm
  · rw [List.mem_singleton.mp hkind] at hpayload hstored
    rw [List.mem_singleton.mp (show payload ∈ [_] from hpayload)] at hstored ⊢
    rw [storedAs, sampleClaim_decodes] at hstored
    exact (Option.some.inj hstored).symm

theorem replayRecords_once_sample : Node.sessionsAppend sampleRegistry sampleHeld
    (Node.new (sampleLog [])) [[], [.settleAt "2026-01-01T00:30:00Z"], []] ≤ 3 :=
  (Node.replayRecords_once sampleRegistry sampleHeld sampleHeld_encoded _).2 _

theorem sample_sessionText {log : List Entry}
    (hlog : log = (sampleRevealed sampleLedgerTwo sampleClaim).entries) {text : String}
    (h : Node.SessionTexts log sampleHeld text) :
    text ∈ [sampleObjective.toValue.canonicalString, sampleObjective.verifier.canonicalString,
      (Value.object [("unit_price", u64Value 5)]).canonicalString,
      sampleClaim.toValue.canonicalString, sampleAnswer.toValue.canonicalString] := by
  have hsample := sampleLog_two.revealed sampleClaim
  rcases h with (⟨p, hp, htext⟩ | ⟨p, hp, rfl⟩) | ⟨payload, hpayload, htext⟩
  · rcases Log.mem_decoded.mp hp with ⟨hmem, hkind, hdecode⟩
    rw [hlog] at hmem
    rw [hsample.posted p.1 (Log.mem_ofKind.mpr ⟨hmem, hkind⟩), sample_decodes] at hdecode
    rw [← Except.ok.inj hdecode] at htext
    rcases htext with rfl | rfl | ⟨block, hblock, rfl⟩
    · simp
    · simp
    · cases hblock
      simp
  · rw [hlog, sample_claims_revealed, List.mem_singleton] at hp
    rw [hp]
    simp
  · rw [List.mem_singleton.mp (show payload ∈ [_] from hpayload)] at htext
    rcases htext with rfl | ⟨commitment, hdecode, rfl⟩
    · simp
    · rw [sampleAnswer_decodes] at hdecode
      rw [← Except.ok.inj hdecode]
      simp

theorem sample_sessionTexts : NoCollision (Node.SessionTexts
    (Node.replayRecords sampleRegistry (Node.new (sampleLog [])) sampleHeld).log sampleHeld) := by
  have hlog : (Node.replayRecords sampleRegistry (Node.new (sampleLog [])) sampleHeld).log =
      (sampleRevealed sampleLedgerTwo sampleClaim).entries := by rw [Node.log, sample_partial]
  apply noCollision_of_nodup _ fun _ => sample_sessionText hlog
  show [sampleObjective.id, sampleObjective.verifier.digest, _, sampleClaim.toValue.digest,
    sampleAnswer.toValue.digest].Nodup
  rcases sample_digests with ⟨hid, ⟨hclaim, -⟩, ⟨hanswer, -⟩, hverifier, hblock⟩
  rw [hid, hverifier, hclaim, hanswer]
  show [_, _, (Value.object [("unit_price", u64Value 5)]).digest, _, _].Nodup
  rw [hblock]
  decide

theorem replay_overtakes_sample :
    ((Node.beforeClaim sampleRegistry (Node.new (sampleLog [])) sampleHeld []).reveal
      sampleRegistry sampleClaim (held sampleClaim.toValue)).2 ≠
        .error (.epochAlreadySettled 2945377) := by
  have hepoch : epochOfTs (held sampleClaim.toValue) = some 2945377 := by
    rw [held_of_claim sampleClaim_decodes]
    exact sample_times.1
  apply (Node.replay_overtakes (sampleLog []) rfl [] sampleRegistry sampleHeld sample_sessionTexts
    [] [] sampleClaim.toValue rfl 2945377 hepoch List.not_mem_nil).2.1
  intro hover
  rcases hover.claimed with ⟨claim, hclaim⟩
  cases hclaim

end Sample

end Cairn.Ports
