import Cairn.Ports.Node.Units

/-!
# The order of batches

A drain writes whole epochs: the payments of an epoch, then its batch. Epochs
are drained in increasing order, a batch lists the accepted claims of its epoch
as the log then has them, and a payment is of a claim of the batch it stands
before. What a drain leaves is not due again.
-/

namespace Cairn.Ports

open Cairn.Verified
open Cairn.Verified.AppendOnly
open Cairn.Ports.Canonical

@[simp] theorem payloadStr_frontier_claimId (f : FrontierEntry) :
    payloadStr f.toValue "claim_id" = some f.claimId := by
  simp [payloadStr, FrontierEntry.toValue, Value.get_object, BTreeMap.lookupEntry]

theorem mem_batchClaims_batchValue {epoch : UInt64} {anchor : String} {order : List String}
    {id : String} : id ∈ Log.batchClaims (batchValue epoch anchor order) ↔ id ∈ order := by
  unfold Log.batchClaims batchValue
  rw [List.mem_insertionSort]
  simp [Value.get_object, BTreeMap.lookupEntry, Value.asArray, Value.asStr]

theorem nodup_batchClaims_batchValue {epoch : UInt64} {anchor : String} {order : List String}
    (h : order.Nodup) : (Log.batchClaims (batchValue epoch anchor order)).Nodup := by
  unfold Log.batchClaims batchValue
  rw [(List.perm_insertionSort _ _).nodup_iff]
  have hread : Value.asStr ∘ Value.string = some := rfl
  simpa [Value.get_object, BTreeMap.lookupEntry, Value.asArray, hread] using h

namespace Node

/-- A payment of one of these claims. -/
def IsPaymentOf [Sha256] (batch : List Claim) (e : Entry) : Prop :=
  IsPayment e ∧ ∃ claim ∈ batch, payloadStr e.payload "claim_id" = some claim.id

variable [World]

open Log

/-! ## One epoch -/

theorem settleOne_pays (n : Node) (claim : Claim) (epoch : UInt64) (consumed : List String)
    (ts : String) :
    ExtendsBy (IsPaymentOf [claim]) n.log (n.settleOne claim epoch consumed ts).1.log := by
  generalize hres : n.settleOne claim epoch consumed ts = res
  have hcases := n.settleOne_settled claim epoch consumed ts
  rw [hres] at hcases
  have hmem : claim ∈ [claim] := List.mem_singleton_self claim
  have hsettlement : ∀ (l : Ledger) (reward : UInt64), IsPaymentOf [claim]
      (l.nextEntry EntryKind.settlement.asStr
        (settlementValue claim.objectiveId claim.id claim.submitter reward) ts) :=
    fun l reward => ⟨.inl rfl, claim, hmem, payloadStr_settlementValue_claimId ..⟩
  cases hcases with
  | unpaid => exact .refl _
  | unpaidUnit =>
    rw [log_paidUnitKeys]
    exact .refl _
  | overflowed => exact .refl _
  | whole => exact (ExtendsBy.refl _).concat (hsettlement _ _)
  | @improved objective block ratchet held score reward paidCumulative =>
    have hfrontier : IsPaymentOf [claim] (n.ledger.nextEntry EntryKind.frontier.asStr
        (FrontierEntry.toValue
          ⟨claim.objectiveId, claim.id, claim.submitter, score, paidCumulative⟩) ts) :=
      ⟨.inr rfl, claim, hmem, payloadStr_frontier_claimId _⟩
    unfold recordMove
    split_ifs
    · exact ((ExtendsBy.refl _).concat hfrontier).concat (hsettlement _ _)
    · exact (ExtendsBy.refl _).concat hfrontier
  | unit =>
    rw [← log_paidUnitKeys n]
    exact (ExtendsBy.refl _).concat (hsettlement _ _)

theorem settleBatch_pays (epoch : UInt64) (ts : String) (batch : List Claim) (n : Node)
    (consumed : List String) :
    ExtendsBy (IsPaymentOf batch) n.log (settleBatch epoch ts n consumed batch).1.log := by
  apply settleBatch_induction (P := fun m => ExtendsBy (IsPaymentOf batch) n.log m.log)
  · intro m claim hmem consumed hm
    apply hm.trans
    apply (m.settleOne_pays claim epoch consumed ts).mono
    rintro e ⟨hpayment, c, hc, hid⟩
    rw [List.mem_singleton.mp hc] at hid
    exact ⟨hpayment, claim, hmem, hid⟩
  · exact .refl _

/-- What settling an epoch appends: payments of its claims, and the batch that
lists them. -/
theorem settleEpoch_block {n : Node} (epoch : UInt64) (ts : String) (hpools : Pools n.log) :
    ∃ payments batch outcomes, (n.settleEpoch epoch ts).1.log = n.log ++ (payments ++ [batch]) ∧
      (∀ e ∈ payments, IsPaymentOf (batchOf n.log epoch) e) ∧
      batch.kind = EntryKind.batch.asStr ∧
      batch.payload = batchValue epoch (anchorOfEpoch n.log epoch)
        ((batchOf n.log epoch).map Claim.id) ∧
      (n.settleEpoch epoch ts).2 = .ok outcomes := by
  obtain ⟨payments, hlog, hpayments⟩ :=
    settleBatch_pays epoch ts (batchOf n.log epoch) n []
  obtain ⟨outcomes, hok⟩ := settleBatch_ok epoch ts (batchOf n.log epoch) n [] hpools
  unfold settleEpoch
  dsimp only
  generalize settleBatch epoch ts n [] (batchOf n.log epoch) = res at *
  obtain ⟨m, result⟩ := res
  cases hok
  dsimp only at hlog ⊢
  refine ⟨payments, m.ledger.nextEntry EntryKind.batch.asStr (batchValue epoch
    (anchorOfEpoch n.log epoch) ((batchOf n.log epoch).map Claim.id)) ts, outcomes, ?_, hpayments,
    rfl, rfl, rfl⟩
  rw [log_append, hlog, List.append_assoc]

end Node

/-! ## The invariant -/

namespace Log

section Discipline

variable [Sha256] [Clock]

/-- A batch on the log before it: its epoch is later than all that are drained,
and it lists the accepted claims of the epoch, each once. -/
structure BatchStands (before : List Entry) (e : Entry) (epoch : UInt64) : Prop where
  settles : payloadU64 e.payload "epoch" = some epoch
  later : ∀ settled ∈ drainedEpochs before, settled < epoch
  lists : ∀ id, id ∈ batchClaims e.payload ↔ ∃ claim ∈ acceptedInEpoch before epoch, claim.id = id
  nodup : (batchClaims e.payload).Nodup

omit [Sha256] [Clock] in
/-- The next batch lists the claim of a payment. -/
def PaidNext (e : Entry) (after : List Entry) : Prop :=
  ∃ claimId between batch rest, payloadStr e.payload "claim_id" = some claimId ∧
    after = between ++ batch :: rest ∧ (∀ x ∈ between, x.kind ≠ EntryKind.batch.asStr) ∧
    batch.kind = EntryKind.batch.asStr ∧ claimId ∈ batchClaims batch.payload

/-- How batches and payments stand in a log. -/
structure Disciplined (log : List Entry) : Prop where
  increasing : (drainedEpochs log).Pairwise (· < ·)
  batches : ∀ before e after, log = before ++ e :: after → e.kind = EntryKind.batch.asStr →
    ∃ epoch, BatchStands before e epoch
  once : ((ofKind log .batch).flatMap fun e => batchClaims e.payload).Nodup
  payments : ∀ before e after, log = before ++ e :: after → Node.IsPayment e → PaidNext e after

theorem disciplined_nil : Disciplined [] where
  increasing := by simp [drainedEpochs, ofKind]
  batches := by simp
  once := by simp [ofKind]
  payments := by simp

omit [Sha256] [Clock] in
theorem PaidNext.append {e : Entry} {after : List Entry} (h : PaidNext e after)
    (new : List Entry) : PaidNext e (after ++ new) := by
  obtain ⟨claimId, between, batch, rest, hid, rfl, hrest⟩ := h
  exact ⟨claimId, between, batch, rest ++ new, hid, by simp, hrest⟩

/-- A listed claim settles in an epoch that is drained. -/
theorem Disciplined.claimEpoch_of_listed {log : List Entry} (h : Disciplined log) {id : String}
    (hid : id ∈ (ofKind log .batch).flatMap fun e => batchClaims e.payload) :
    ∃ epoch ∈ drainedEpochs log, claimEpoch log id = some epoch := by
  rw [List.mem_flatMap] at hid
  obtain ⟨e, he, hid⟩ := hid
  obtain ⟨hin, hkind⟩ := mem_ofKind.mp he
  obtain ⟨before, after, hlog⟩ := List.append_of_mem hin
  obtain ⟨epoch, hstands⟩ := h.batches before e after hlog hkind
  obtain ⟨claim, hclaim, rfl⟩ := (hstands.lists id).mp hid
  refine ⟨epoch, ?_, ?_⟩
  · unfold drainedEpochs
    rw [List.mem_filterMap]
    exact ⟨e, he, hstands.settles⟩
  · rw [hlog]
    exact claimEpoch_append (mem_acceptedClaimsByEpoch (mem_acceptedInEpoch.mp hclaim)).1

/-- Entries that are neither batches nor payments change nothing. -/
theorem Disciplined.append_other {log new : List Entry} (h : Disciplined log)
    (hnew : ∀ e ∈ new, ¬Node.IsPayout e) : Disciplined (log ++ new) := by
  have hnone : ofKind new .batch = [] := by
    apply ofKind_eq_nil
    intro e he hkind
    exact hnew e he (.inr hkind)
  have hold : ∀ before e after, log ++ new = before ++ e :: after → Node.IsPayout e →
      ∃ mid, log = before ++ e :: mid ∧ after = mid ++ new := by
    intro before e after hlog hpayout
    obtain hmid | ⟨mid, -, hin⟩ := split_append hlog
    · exact hmid
    · exact absurd hpayout (hnew e (by simp [hin]))
  constructor
  · have hsame : drainedEpochs new = [] := by simp [drainedEpochs, hnone]
    rw [drainedEpochs_append, hsame, List.append_nil]
    exact h.increasing
  · intro before e after hlog hkind
    obtain ⟨mid, hmid, -⟩ := hold before e after hlog (.inr hkind)
    exact h.batches before e mid hmid hkind
  · rw [ofKind_append, hnone, List.append_nil]
    exact h.once
  · intro before e after hlog hpayment
    obtain ⟨mid, hmid, rfl⟩ := hold before e after hlog (.inl hpayment)
    exact (h.payments before e mid hmid hpayment).append new

/-- An epoch with its payments keeps the order. -/
theorem Disciplined.append_block {log payments : List Entry} {batch : Entry} {epoch : UInt64}
    (h : Disciplined log) (hlater : ∀ settled ∈ drainedEpochs log, settled < epoch)
    (hpayments : ∀ e ∈ payments, Node.IsPaymentOf (batchOf log epoch) e)
    (hkind : batch.kind = EntryKind.batch.asStr) {anchor : String}
    (hpayload : batch.payload = batchValue epoch anchor ((batchOf log epoch).map Claim.id)) :
    Disciplined (log ++ (payments ++ [batch])) := by
  have hpaid : ExtendsBy Node.IsPayment log (log ++ payments) :=
    ⟨payments, rfl, fun e he => (hpayments e he).1⟩
  have hno : ∀ e ∈ payments, e.kind ≠ EntryKind.batch.asStr := by
    intro e he hbatch
    have hpayment := (hpayments e he).1
    unfold Node.IsPayment at hpayment
    simp only [hbatch, EntryKind.asStr_inj] at hpayment
    tauto
  have hbatches : ofKind (log ++ (payments ++ [batch])) .batch = ofKind log .batch ++ [batch] := by
    rw [ofKind_append, ofKind_append, ofKind_eq_nil hno, ofKind_of_kind hkind, List.nil_append]
  have hlisted : ∀ id, id ∈ batchClaims batch.payload ↔ ∃ claim ∈ batchOf log epoch, claim.id = id := by
    intro id
    rw [hpayload, mem_batchClaims_batchValue, List.mem_map]
  have hepoch : payloadU64 batch.payload "epoch" = some epoch := by
    rw [hpayload, payloadU64_batchValue]
  have hnodup : (batchClaims batch.payload).Nodup := by
    rw [hpayload]
    exact nodup_batchClaims_batchValue (nodup_ids_batchOf log epoch)
  constructor
  · have hdrained : drainedEpochs (log ++ (payments ++ [batch])) = drainedEpochs log ++ [epoch] := by
      unfold drainedEpochs
      rw [hbatches, List.filterMap_append]
      simp [hepoch]
    rw [hdrained, List.pairwise_append]
    refine ⟨h.increasing, List.pairwise_singleton _ _, ?_⟩
    intro settled hsettled e he
    rw [List.mem_singleton.mp he]
    exact hlater settled hsettled
  · intro before e after hlog hbatch
    obtain ⟨mid, hmid, -⟩ | ⟨mid, hbefore, hin⟩ := split_append hlog
    · exact h.batches before e mid hmid hbatch
    obtain ⟨rest, hrest⟩ | ⟨rfl, rfl⟩ := split_concat hin
    · exact absurd hbatch (hno e (by simp [hrest]))
    refine ⟨epoch, hepoch, ?_, ?_, hnodup⟩
    · rw [hbefore, drainedEpochs_of_payments hpaid]
      exact hlater
    · intro id
      rw [hlisted, hbefore]
      unfold acceptedInEpoch
      rw [acceptedClaimsByEpoch_of_payouts (hpaid.mono fun _ he => .inl he)]
      exact exists_congr fun claim => and_congr_left fun _ => by
        rw [mem_batchOf, ← mem_acceptedInEpoch, acceptedInEpoch]
  · rw [hbatches, List.flatMap_append, List.nodup_append]
    refine ⟨h.once, by simpa using hnodup, ?_⟩
    intro id hid id' hid' hsame
    obtain ⟨settled, hsettled, hclaim⟩ := h.claimEpoch_of_listed hid
    rw [List.flatMap_singleton, hlisted] at hid'
    obtain ⟨claim, hmem, rfl⟩ := hid'
    rw [hsame, claimEpoch_of_mem_batchOf hmem, Option.some.injEq] at hclaim
    have hlt := hlater settled hsettled
    rw [hclaim] at hlt
    exact absurd hlt (UInt64.lt_irrefl settled)
  · intro before e after hlog hpayment
    obtain ⟨mid, hmid, rfl⟩ | ⟨mid, -, hin⟩ := split_append hlog
    · exact (h.payments before e mid hmid hpayment).append _
    obtain ⟨rest, hrest, rfl⟩ | ⟨rest, rfl, hrest⟩ := split_append hin
    · obtain ⟨-, claim, hclaim, hid⟩ := hpayments e (by simp [hrest])
      refine ⟨claim.id, rest, batch, [], hid, by simp, ?_, hkind, (hlisted _).mpr ⟨claim, hclaim, rfl⟩⟩
      intro x hx
      exact hno x (by simp [hrest, hx])
    · cases rest with
      | nil =>
        cases hrest
        unfold Node.IsPayment at hpayment
        simp only [hkind, EntryKind.asStr_inj] at hpayment
        tauto
      | cons y rest => simp at hrest

end Discipline

end Log

namespace Node

variable [World]

open Log

/-! ## Drains and runs -/

theorem settleEpochs_disciplined {ts : String} :
    ∀ (epochs : List UInt64) (n : Node), Pools n.log → PaidOnce n.log → Disciplined n.log →
      epochs.Pairwise (fun a b => a.toNat < b.toNat) →
      (∀ epoch ∈ epochs, ∀ settled ∈ drainedEpochs n.log, settled < epoch) →
      Disciplined (settleEpochs ts n epochs).1.log := by
  intro epochs
  induction epochs with
  | nil =>
    intro n _ _ h _ _
    exact h
  | cons epoch rest ih =>
    intro n hpools hpaid h hsorted hlater
    obtain ⟨payments, batch, outcomes, hlog, hpayments, hkind, hpayload, hok⟩ :=
      settleEpoch_block epoch ts hpools
    have hblock := h.append_block (hlater epoch (by simp)) hpayments hkind hpayload
    have hfresh : epoch ∉ drainedEpochs n.log :=
      fun hin => UInt64.lt_irrefl epoch (hlater epoch (by simp) epoch hin)
    obtain ⟨hpools', hpaid', hdrained, -⟩ := settleEpoch_once ts hpools hpaid hfresh
    rw [← hlog] at hblock
    rw [List.pairwise_cons] at hsorted
    unfold settleEpochs
    generalize n.settleEpoch epoch ts = res at *
    obtain ⟨m, result⟩ := res
    cases hok
    dsimp only at *
    have hlater' : ∀ e ∈ rest, ∀ settled ∈ drainedEpochs m.log, settled < e := by
      intro e he settled hsettled
      rw [hdrained, List.mem_append, List.mem_singleton] at hsettled
      obtain hold | rfl := hsettled
      · exact hlater e (by simp [he]) settled hold
      · exact UInt64.lt_iff_toNat_lt.mpr (hsorted.1 e he)
    have hrest := ih m hpools' hpaid' hblock hsorted.2 hlater'
    generalize settleEpochs ts m rest = res at *
    obtain ⟨m', result'⟩ := res
    cases result' with
    | error error => exact hrest
    | ok more => exact hrest

theorem settleDue_disciplined {n : Node} (now : UInt64) (ts : String) (hpools : Pools n.log)
    (hpaid : PaidOnce n.log) (h : Disciplined n.log) : Disciplined (n.settleDue now ts).1.log := by
  unfold settleDue
  dsimp only
  apply settleEpochs_disciplined (dueEpochs n.log now)
    { n with drains := n.drains ++ [{ length := n.log.length, now := now }] } hpools hpaid h
    (pairwise_dueEpochs _ _)
  intro epoch hepoch
  exact (mem_dueEpochs.mp hepoch).2.2.2

/-- What a drain leaves is not due. -/
theorem dueEpochs_settleDue {n : Node} (now : UInt64) (ts : String) (hpools : Pools n.log)
    (hpaid : PaidOnce n.log) : dueEpochs (n.settleDue now ts).1.log now = [] := by
  obtain ⟨-, -, hdrained, -⟩ := settleDue_once now ts hpools hpaid
  rw [List.eq_nil_iff_forall_not_mem]
  intro epoch hepoch
  rw [mem_dueEpochs, acceptedClaimsByEpoch_of_payouts (n.settleDue_log now ts), hdrained] at hepoch
  obtain ⟨hclaim, hfresh, hfinal, hlater⟩ := hepoch
  rw [List.mem_append, not_or] at hfresh
  exact hfresh.2 (mem_dueEpochs.mpr ⟨hclaim, hfresh.1, hfinal,
    fun settled hs => hlater settled (List.mem_append_left _ hs)⟩)

/-- Batches and payments stand in order on every reachable log. -/
theorem Reaches.disciplined {n m : Node} (hempty : n.log = []) (h : Reaches n m)
    (hstable : StableIds m.log) : Disciplined m.log := by
  induction h with
  | refl =>
    rw [hempty]
    exact disciplined_nil
  | @write m kind payload ts before admitted ih =>
    rw [log_append] at hstable ⊢
    apply (ih (hstable.of_prefix (List.prefix_append _ _))).append_other
    intro e he hpayout
    rw [List.mem_singleton.mp he] at hpayout
    obtain ⟨hsettlement, hfrontier, hbatch⟩ := admitted.not_payout
    unfold IsPayout IsPayment at hpayout
    simp only [kind_nextEntry, EntryKind.asStr_inj] at hpayout
    tauto
  | @drain m now ts before ih =>
    have hm := hstable.of_prefix (m.settleDue_log now ts).isPrefix
    exact settleDue_disciplined now ts (before.pools hempty hm) (before.paidOnce hempty hm) (ih hm)

/-- After every run the batches are in order, each lists the accepted claims of
its epoch, and stands right after their payments; a drain called again at the
same epoch appends nothing and returns nothing. -/
theorem run_disciplined (l : Ledger) (hempty : l.entries = []) (ops : List Op)
    (hcol : NoCollision (RecordTexts ((new l).run ops).log)) :
    Disciplined ((new l).run ops).log ∧
      ∀ now ts ts', ((((new l).run ops).settleDue now ts).1.settleDue now ts').1.log =
          (((new l).run ops).settleDue now ts).1.log ∧
        ((((new l).run ops).settleDue now ts).1.settleDue now ts').2 = .ok [] := by
  have hnew : (new l).log = [] := hempty
  have hreaches := (new l).run_reaches ops
  have hstable := stableIds_of_noCollision hcol
  refine ⟨hreaches.disciplined hnew hstable, ?_⟩
  intro now ts ts'
  have hnone := dueEpochs_settleDue now ts (hreaches.pools hnew hstable)
    (hreaches.paidOnce hnew hstable)
  generalize (((new l).run ops).settleDue now ts).1 = settled at hnone ⊢
  have hagain : settled.settleDue now ts' = ({ settled with
      drains := settled.drains ++ [{ length := settled.log.length, now := now }] }, .ok []) := by
    unfold settleDue
    show settleEpochs ts' _ (dueEpochs settled.log now) = _
    rw [hnone, settleEpochs]
  rw [hagain]
  exact ⟨rfl, rfl⟩

end Node

theorem run_disciplined_sample : letI := sampleWorld
    Log.Disciplined ((Node.new (sampleLog [])).run sampleOps).log := by
  let _ := sampleWorld
  exact (Node.run_disciplined (sampleLog []) rfl sampleOps sample_recordTexts).1

end Cairn.Ports
