import Cairn.Ports.Node.Pools

/-!
# No claim is paid twice

A claim settles in the batch of the epoch its first entry was admitted in, and
an epoch has one batch. The drain therefore meets a claim once: within a batch
the ids are distinct, and a drained epoch is not drained again.
-/

namespace Cairn.Ports

open Cairn.Verified
open Cairn.Verified.AppendOnly
open Cairn.Ports.Canonical

@[simp] theorem payloadU64_batchValue (epoch : UInt64) (anchor : String) (order : List String) :
    payloadU64 (batchValue epoch anchor order) "epoch" = some epoch := by
  simp [payloadU64, batchValue, Value.get_object, BTreeMap.lookupEntry]

namespace Log

/-- The claims that have a settlement. -/
def settledIds (log : List Entry) : List String :=
  (ofKind log .settlement).filterMap fun e => payloadStr e.payload "claim_id"

@[simp] theorem settledIds_append (xs ys : List Entry) :
    settledIds (xs ++ ys) = settledIds xs ++ settledIds ys := by
  simp [settledIds]

@[simp] theorem drainedEpochs_append (xs ys : List Entry) :
    drainedEpochs (xs ++ ys) = drainedEpochs xs ++ drainedEpochs ys := by
  simp [drainedEpochs]

theorem IsSettlement.settledIds {e : Entry} {id claimId submitter : String} {reward : UInt64}
    (h : IsSettlement e id claimId submitter reward) : Log.settledIds [e] = [claimId] := by
  simp [Log.settledIds, ofKind, h.kind, h.payload]

theorem IsFrontier.settledIds {e : Entry} {f : FrontierEntry} (h : IsFrontier e f) :
    Log.settledIds [e] = [] := by
  simp [Log.settledIds, ofKind, h.kind]

/-- Payments drain no epoch. -/
theorem drainedEpochs_of_payments {log log' : List Entry}
    (h : ExtendsBy Node.IsPayment log log') : drainedEpochs log' = drainedEpochs log := by
  obtain ⟨new, rfl, hnew⟩ := h
  have hnone : ofKind new .batch = [] := by
    apply ofKind_eq_nil
    intro e he hkind
    obtain hk | hk := hnew e he
    · rw [hk, EntryKind.asStr_inj] at hkind
      exact absurd hkind (by decide)
    · rw [hk, EntryKind.asStr_inj] at hkind
      exact absurd hkind (by decide)
  rw [drainedEpochs_append, List.append_right_eq_self]
  simp [drainedEpochs, hnone]

section Claims

variable [Sha256]

omit [Sha256] in
theorem claims_append (xs ys : List Entry) : claims (xs ++ ys) = claims xs ++ claims ys :=
  decoded_append ..

variable {log new : List Entry}

omit [Sha256] in
/-- Payouts bring no claims. -/
theorem claims_of_payouts {log' : List Entry} (h : ExtendsBy Node.IsPayout log log') :
    claims log' = claims log := by
  obtain ⟨new, rfl, hnew⟩ := h
  have hnone : ofKind new .claim = [] := by
    apply ofKind_eq_nil
    intro e he hkind
    obtain (hk | hk) | hk := hnew e he
    · rw [hk, EntryKind.asStr_inj] at hkind
      exact absurd hkind (by decide)
    · rw [hk, EntryKind.asStr_inj] at hkind
      exact absurd hkind (by decide)
    · rw [hk, EntryKind.asStr_inj] at hkind
      exact absurd hkind (by decide)
  rw [claims_append, List.append_right_eq_self]
  simp [claims, decoded, hnone]

/-- The first entry of a claim stays the first. -/
theorem claimEntry_append {id : String} {e : Entry} (h : claimEntry log id = some e) :
    claimEntry (log ++ new) id = some e := by
  unfold claimEntry at *
  rw [Option.map_eq_some_iff] at h
  obtain ⟨p, hfind, rfl⟩ := h
  rw [claims_append, List.find?_append, hfind]
  rfl

/-! ## The claims of a batch -/

theorem mem_firstAccepted {accepted : List String} {seen : List String}
    {l : List (Entry × Claim)} {p : Entry × Claim} (h : p ∈ firstAccepted accepted seen l) :
    p.2.id ∉ seen ∧ p.2.id ∈ accepted ∧ l.find? (fun q => q.2.id = p.2.id) = some p := by
  induction l generalizing seen with
  | nil => simp [firstAccepted] at h
  | cons q rest ih =>
    obtain ⟨e, claim⟩ := q
    unfold firstAccepted at h
    by_cases hskip : claim.id ∉ accepted ∨ claim.id ∈ seen
    · rw [if_pos hskip] at h
      obtain ⟨hseen, haccepted, hfind⟩ := ih h
      refine ⟨hseen, haccepted, ?_⟩
      rw [List.find?_cons_of_neg]
      · exact hfind
      · simp only [decide_eq_true_eq]
        intro heq
        rw [heq] at hskip
        exact hskip.elim (fun hn => hn haccepted) hseen
    · rw [if_neg hskip] at h
      rw [not_or, not_not] at hskip
      rcases List.mem_cons.mp h with rfl | h
      · exact ⟨hskip.2, hskip.1, by simp⟩
      · obtain ⟨hseen, haccepted, hfind⟩ := ih h
        rw [List.mem_cons, not_or] at hseen
        refine ⟨hseen.2, haccepted, ?_⟩
        rw [List.find?_cons_of_neg]
        · exact hfind
        · simpa using fun heq => hseen.1 heq.symm

theorem nodup_firstAccepted (accepted seen : List String) (l : List (Entry × Claim)) :
    ((firstAccepted accepted seen l).map fun p => p.2.id).Nodup := by
  induction l generalizing seen with
  | nil => simp [firstAccepted]
  | cons q rest ih =>
    obtain ⟨e, claim⟩ := q
    unfold firstAccepted
    split_ifs
    · exact ih seen
    · rw [List.map_cons, List.nodup_cons]
      refine ⟨?_, ih (claim.id :: seen)⟩
      intro hmem
      obtain ⟨p, hp, hid⟩ := List.mem_map.mp hmem
      obtain ⟨hseen, -, -⟩ := mem_firstAccepted hp
      exact hseen (by simp [hid])

variable [Clock]

/-- The epoch a claim settles in. -/
def claimEpoch (log : List Entry) (id : String) : Option UInt64 :=
  (claimEntry log id).bind fun e => epochOfTs e.ts

variable {epoch : UInt64}

theorem claimEpoch_append {id : String} (h : claimEpoch log id = some epoch) :
    claimEpoch (log ++ new) id = some epoch := by
  unfold claimEpoch at *
  rw [Option.bind_eq_some_iff] at h
  obtain ⟨e, he, hepoch⟩ := h
  rw [claimEntry_append he]
  exact hepoch

theorem mem_acceptedClaimsByEpoch {p : UInt64 × Claim} (h : p ∈ acceptedClaimsByEpoch log) :
    claimEpoch log p.2.id = some p.1 ∧ p.2 ∈ (claims log).map Prod.snd ∧
      p.2.id ∈ acceptedClaimIds log := by
  unfold acceptedClaimsByEpoch at h
  rw [List.mem_filterMap] at h
  obtain ⟨⟨e, claim⟩, hfirst, hp⟩ := h
  rw [Option.map_eq_some_iff] at hp
  obtain ⟨epoch, hepoch, rfl⟩ := hp
  obtain ⟨-, haccepted, hfind⟩ := mem_firstAccepted hfirst
  refine ⟨?_, List.mem_map_of_mem (f := Prod.snd) (List.mem_of_find?_eq_some hfind), haccepted⟩
  unfold claimEpoch claimEntry
  rw [hfind]
  exact hepoch

theorem acceptedClaimsByEpoch_of_payouts {log' : List Entry} (h : ExtendsBy Node.IsPayout log log') :
    acceptedClaimsByEpoch log' = acceptedClaimsByEpoch log := by
  unfold acceptedClaimsByEpoch acceptedClaimIds
  rw [claims_of_payouts h, Node.ofKind_payouts h (by decide)]

variable {claim : Claim}

theorem mem_acceptedInEpoch :
    claim ∈ acceptedInEpoch log epoch ↔ (epoch, claim) ∈ acceptedClaimsByEpoch log := by
  unfold acceptedInEpoch
  simp only [List.mem_map, List.mem_filter, decide_eq_true_eq, Prod.exists, exists_eq_right]

theorem mem_batchOf : claim ∈ batchOf log epoch ↔ (epoch, claim) ∈ acceptedClaimsByEpoch log := by
  rw [← mem_acceptedInEpoch]
  exact (List.perm_insertionSort _ _).mem_iff

/-- The ids that reach an epoch are among the ids of the first entries. -/
theorem nodup_ids_acceptedClaimsByEpoch (log : List Entry) :
    ((acceptedClaimsByEpoch log).map fun p => p.2.id).Nodup := by
  have hsub : ∀ l : List (Entry × Claim), ((l.filterMap fun p =>
      (epochOfTs p.1.ts).map fun epoch => (epoch, p.2)).map fun p => p.2.id).Sublist
        (l.map fun p => p.2.id) := by
    intro l
    induction l with
    | nil => simp
    | cons p l ih =>
      rw [List.map_cons, List.filterMap_cons]
      cases epochOfTs p.1.ts with
      | none => exact ih.cons _
      | some epoch => exact ih.cons_cons _
  exact (nodup_firstAccepted _ _ _).sublist (hsub _)

theorem nodup_ids_batchOf (log : List Entry) (epoch : UInt64) :
    ((batchOf log epoch).map Claim.id).Nodup := by
  have hperm := (List.perm_insertionSort (settlesBefore epoch (anchorOfEpoch log epoch))
    (acceptedInEpoch log epoch)).map Claim.id
  rw [batchOf, hperm.nodup_iff, acceptedInEpoch, List.map_map]
  exact (nodup_ids_acceptedClaimsByEpoch log).sublist (List.filter_sublist.map _)

theorem claimEpoch_of_mem_batchOf (h : claim ∈ batchOf log epoch) :
    claimEpoch log claim.id = some epoch :=
  (mem_acceptedClaimsByEpoch (mem_batchOf.mp h)).1

/-! ## The invariant -/

/-- No claim has two settlements, and a settled claim's epoch is drained. -/
structure PaidOnce (log : List Entry) : Prop where
  nodup : (settledIds log).Nodup
  drained : ∀ id ∈ settledIds log, ∃ epoch, claimEpoch log id = some epoch ∧
    epoch ∈ drainedEpochs log

theorem PaidOnce.append_other (h : PaidOnce log) (hnew : ofKind new .settlement = []) :
    PaidOnce (log ++ new) := by
  have hsame : settledIds (log ++ new) = settledIds log := by
    rw [settledIds_append, List.append_right_eq_self]
    simp [settledIds, hnew]
  constructor
  · rw [hsame]
    exact h.nodup
  · intro id hid
    rw [hsame] at hid
    obtain ⟨epoch, hepoch, hdrained⟩ := h.drained id hid
    exact ⟨epoch, claimEpoch_append hepoch, by simp [hdrained]⟩

end Claims

end Log

namespace Node

variable [World]

open Log

/-! ## One batch -/

variable {epoch : UInt64} {n : Node}

/-- Settling a claim adds at most one settlement, and only of that claim. -/
theorem Settled.settledIds {claim : Claim} {consumed : List String} {ts : String}
    {res : Node × Except RuleViolation Outcome} (h : Settled n claim epoch consumed ts res) :
    Log.settledIds res.1.log = Log.settledIds n.log ∨
      Log.settledIds res.1.log = Log.settledIds n.log ++ [claim.id] := by
  cases h with
  | unpaid => exact .inl rfl
  | unpaidUnit =>
    left
    rw [log_paidUnitKeys]
  | overflowed => exact .inl rfl
  | whole =>
    right
    rw [pay, log_append, settledIds_append, (isSettlement_pay _ _ _ _).settledIds]
  | @improved objective block ratchet held score reward paidCumulative =>
    have hf : IsFrontier (n.ledger.nextEntry EntryKind.frontier.asStr (FrontierEntry.toValue
        ⟨claim.objectiveId, claim.id, claim.submitter, score, paidCumulative⟩) ts)
        ⟨claim.objectiveId, claim.id, claim.submitter, score, paidCumulative⟩ := ⟨rfl, rfl⟩
    unfold recordMove
    split_ifs
    · right
      rw [pay, log_append, settledIds_append, (isSettlement_pay _ _ _ _).settledIds, advance,
        log_append, settledIds_append, hf.settledIds, List.append_nil]
    · left
      rw [advance, log_append, settledIds_append, hf.settledIds, List.append_nil]
  | @unit objective block piecework novel reward =>
    right
    show Log.settledIds ((n.paidUnitKeys objective piecework).1.pay claim reward ts).log = _
    rw [pay, log_append, settledIds_append, (isSettlement_pay _ _ _ _).settledIds,
      log_paidUnitKeys]

/-- A batch of distinct unsettled claims settles each at most once, and does
not fail. -/
theorem settleBatch_once {epoch : UInt64} {ts : String} :
    ∀ (batch : List Claim) (n : Node) (consumed : List String), Pools n.log →
      (batch.map Claim.id).Nodup → (settledIds n.log).Nodup →
      (∀ claim ∈ batch, claim.id ∉ settledIds n.log) →
      (settledIds (settleBatch epoch ts n consumed batch).1.log).Nodup ∧
      (∀ id ∈ settledIds (settleBatch epoch ts n consumed batch).1.log,
        id ∈ settledIds n.log ∨ id ∈ batch.map Claim.id) ∧
      ∃ outcomes, (settleBatch epoch ts n consumed batch).2 = .ok outcomes := by
  intro batch
  induction batch with
  | nil =>
    intro n consumed _ _ hnodup _
    exact ⟨hnodup, fun id hid => .inl hid, [], rfl⟩
  | cons claim rest ih =>
    intro n consumed hpools hbatch hnodup hfresh
    have hsettled := n.settleOne_settled claim epoch consumed ts
    have hpools' := hsettled.pools hpools
    have hids := hsettled.settledIds
    obtain ⟨outcome, hok⟩ := settleOne_ok hpools claim epoch consumed ts
    rw [List.map_cons, List.nodup_cons] at hbatch
    unfold settleBatch
    generalize n.settleOne claim epoch consumed ts = res at *
    obtain ⟨m, result⟩ := res
    cases hok
    dsimp only at *
    have hsub : ∀ id ∈ settledIds m.log, id ∈ settledIds n.log ∨ id = claim.id := by
      intro id hid
      obtain hsame | hmore := hids
      · rw [hsame] at hid
        exact .inl hid
      · rw [hmore] at hid
        simpa using hid
    have hclaim : claim.id ∉ settledIds n.log := hfresh claim (by simp)
    have hnodup' : (settledIds m.log).Nodup := by
      obtain hsame | hmore := hids
      · rw [hsame]
        exact hnodup
      · rw [hmore, List.nodup_append_comm, List.singleton_append, List.nodup_cons]
        exact ⟨hclaim, hnodup⟩
    have hfresh' : ∀ c ∈ rest, c.id ∉ settledIds m.log := by
      intro c hc hid
      obtain hid | hid := hsub _ hid
      · exact hfresh c (by simp [hc]) hid
      · exact hbatch.1 (hid ▸ List.mem_map_of_mem hc)
    obtain ⟨h1, h2, outcomes, h3⟩ :=
      ih m (m.consume claim outcome.settled consumed) hpools' hbatch.2 hnodup' hfresh'
    generalize settleBatch epoch ts m (m.consume claim outcome.settled consumed) rest = res at *
    obtain ⟨m', result'⟩ := res
    cases h3
    refine ⟨h1, ?_, _, rfl⟩
    intro id hid
    obtain hid | hid := h2 id hid
    · obtain hid | hid := hsub id hid
      · exact .inl hid
      · exact .inr (by simp [hid])
    · exact .inr (by simp [List.mem_map.mp hid])

/-! ## Due epochs -/

theorem mem_dueEpochs {log : List Entry} {now : UInt64} :
    epoch ∈ dueEpochs log now ↔ (∃ claim, (epoch, claim) ∈ acceptedClaimsByEpoch log) ∧
      epoch ∉ drainedEpochs log ∧ satAdd epoch Clock.finalityEpochs < now.toNat ∧
      ∀ settled ∈ drainedEpochs log, settled < epoch := by
  unfold dueEpochs
  simp [List.mem_insertionSort, and_assoc]

theorem nodup_dueEpochs (log : List Entry) (now : UInt64) : (dueEpochs log now).Nodup := by
  unfold dueEpochs
  rw [(List.perm_insertionSort _ _).nodup_iff]
  exact List.nodup_dedup _

theorem pairwise_dueEpochs (log : List Entry) (now : UInt64) :
    (dueEpochs log now).Pairwise fun a b => a.toNat < b.toNat := by
  have hsorted : (dueEpochs log now).Pairwise (· ≤ ·) := by
    have : Std.Total (α := UInt64) (· ≤ ·) := ⟨fun a b => by
      rw [UInt64.le_iff_toNat_le, UInt64.le_iff_toNat_le]
      exact le_total _ _⟩
    have : IsTrans UInt64 (· ≤ ·) := ⟨fun _ _ _ => UInt64.le_trans⟩
    exact List.pairwise_insertionSort _ _
  have hnodup := nodup_dueEpochs log now
  refine (hsorted.and hnodup).imp fun {a b} h => ?_
  have hle := UInt64.le_iff_toNat_le.mp h.1
  have hne : a.toNat ≠ b.toNat := fun heq => h.2 (UInt64.toNat_inj.mp heq)
  omega

/-- What settling one epoch leaves. -/
theorem settleEpoch_once (ts : String) (hpools : Pools n.log) (hpaid : PaidOnce n.log)
    (hfresh : epoch ∉ drainedEpochs n.log) :
    Pools (n.settleEpoch epoch ts).1.log ∧ PaidOnce (n.settleEpoch epoch ts).1.log ∧
      drainedEpochs (n.settleEpoch epoch ts).1.log = drainedEpochs n.log ++ [epoch] ∧
      ∃ outcomes, (n.settleEpoch epoch ts).2 = .ok outcomes := by
  have hunsettled : ∀ claim ∈ batchOf n.log epoch, claim.id ∉ settledIds n.log := by
    intro claim hclaim hid
    obtain ⟨epoch', hepoch', hdrained⟩ := hpaid.drained _ hid
    rw [claimEpoch_of_mem_batchOf hclaim] at hepoch'
    cases hepoch'
    exact hfresh hdrained
  have hpools' := @settleBatch_induction _ (fun m => Pools m.log) epoch ts (batchOf n.log epoch)
    (fun m claim _ consumed hm => (m.settleOne_settled claim epoch consumed ts).pools hm)
    n [] hpools
  have hlog := settleBatch_log epoch ts (batchOf n.log epoch) n []
  obtain ⟨hnodup, hids, outcomes, hok⟩ := @settleBatch_once _ epoch ts
    (batchOf n.log epoch) n [] hpools (nodup_ids_batchOf _ _) hpaid.nodup hunsettled
  unfold settleEpoch
  dsimp only
  generalize settleBatch epoch ts n [] (batchOf n.log epoch) = res at *
  obtain ⟨m, result⟩ := res
  cases hok
  dsimp only at *
  have hbatch : ofKind [m.ledger.nextEntry EntryKind.batch.asStr (batchValue epoch
      (anchorOfEpoch n.log epoch) ((batchOf n.log epoch).map Claim.id)) ts] .settlement = [] := by
    simp [ofKind]
  have hdrained : drainedEpochs (m.append .batch (batchValue epoch (anchorOfEpoch n.log epoch)
      ((batchOf n.log epoch).map Claim.id)) ts).log = drainedEpochs n.log ++ [epoch] := by
    rw [log_append, drainedEpochs_append, drainedEpochs_of_payments hlog]
    simp [drainedEpochs, ofKind]
  have hsame : settledIds (m.append .batch (batchValue epoch (anchorOfEpoch n.log epoch)
      ((batchOf n.log epoch).map Claim.id)) ts).log = settledIds m.log := by
    rw [log_append, settledIds_append, List.append_right_eq_self]
    simp [settledIds, hbatch]
  obtain ⟨new, hnew, -⟩ := hlog
  have hgrown : ∃ new', (m.append .batch (batchValue epoch (anchorOfEpoch n.log epoch)
      ((batchOf n.log epoch).map Claim.id)) ts).log = n.log ++ new' := by
    rw [log_append, hnew, List.append_assoc]
    exact ⟨_, rfl⟩
  refine ⟨?_, ⟨?_, ?_⟩, hdrained, _, rfl⟩
  · rw [log_append]
    apply hpools'.append_other
    intro e he
    rw [List.mem_singleton] at he
    subst he
    simp
  · rw [hsame]
    exact hnodup
  · intro id hid
    rw [hsame] at hid
    rw [hdrained]
    obtain ⟨new', hnew'⟩ := hgrown
    rw [hnew']
    obtain hold | hnow := hids id hid
    · obtain ⟨epoch', hepoch', hin⟩ := hpaid.drained id hold
      exact ⟨epoch', claimEpoch_append hepoch', by simp [hin]⟩
    · obtain ⟨claim, hclaim, rfl⟩ := List.mem_map.mp hnow
      exact ⟨epoch, claimEpoch_append (claimEpoch_of_mem_batchOf hclaim), by simp⟩

theorem settleEpochs_once {ts : String} :
    ∀ (epochs : List UInt64) (n : Node), Pools n.log → PaidOnce n.log → epochs.Nodup →
      (∀ epoch ∈ epochs, epoch ∉ drainedEpochs n.log) →
      Pools (settleEpochs ts n epochs).1.log ∧ PaidOnce (settleEpochs ts n epochs).1.log ∧
        drainedEpochs (settleEpochs ts n epochs).1.log = drainedEpochs n.log ++ epochs ∧
        ∃ outcomes, (settleEpochs ts n epochs).2 = .ok outcomes := by
  intro epochs
  induction epochs with
  | nil =>
    intro n hpools hpaid _ _
    exact ⟨hpools, hpaid, by simp [settleEpochs], [], rfl⟩
  | cons epoch rest ih =>
    intro n hpools hpaid hnodup hfresh
    rw [List.nodup_cons] at hnodup
    obtain ⟨hpools', hpaid', hdrained, outcomes, hok⟩ :=
      settleEpoch_once ts hpools hpaid (hfresh epoch (by simp))
    unfold settleEpochs
    generalize n.settleEpoch epoch ts = res at *
    obtain ⟨m, result⟩ := res
    cases hok
    dsimp only at *
    have hfresh' : ∀ e ∈ rest, e ∉ drainedEpochs m.log := by
      intro e he hin
      rw [hdrained, List.mem_append, List.mem_singleton] at hin
      obtain hin | rfl := hin
      · exact hfresh e (by simp [he]) hin
      · exact hnodup.1 he
    obtain ⟨h1, h2, h3, outcomes', h4⟩ := ih m hpools' hpaid' hnodup.2 hfresh'
    generalize settleEpochs ts m rest = res at *
    obtain ⟨m', result'⟩ := res
    cases h4
    refine ⟨h1, h2, ?_, _, rfl⟩
    dsimp only at h3 ⊢
    rw [h3, hdrained, List.append_assoc]
    rfl

/-- A drain settles every due epoch, in order, and does not fail. -/
theorem settleDue_once (now : UInt64) (ts : String) (hpools : Pools n.log) (hpaid : PaidOnce n.log) :
    Pools (n.settleDue now ts).1.log ∧ PaidOnce (n.settleDue now ts).1.log ∧
      drainedEpochs (n.settleDue now ts).1.log = drainedEpochs n.log ++ dueEpochs n.log now ∧
      ∃ outcomes, (n.settleDue now ts).2 = .ok outcomes := by
  unfold settleDue
  dsimp only
  apply settleEpochs_once (dueEpochs n.log now)
    { n with drains := n.drains ++ [{ length := n.log.length, now := now }] } hpools hpaid
    (nodup_dueEpochs _ _)
  intro epoch hepoch
  exact (mem_dueEpochs.mp hepoch).2.1

theorem paidOnce_nil : PaidOnce [] where
  nodup := by simp [settledIds, ofKind]
  drained := by simp [settledIds, ofKind]

/-- On every reachable log no claim has two settlements. -/
theorem Reaches.paidOnce {m : Node} (hempty : n.log = []) (h : Reaches n m)
    (hstable : StableIds m.log) : PaidOnce m.log := by
  induction h with
  | refl =>
    rw [hempty]
    exact paidOnce_nil
  | @write m kind payload ts _ admitted ih =>
    rw [log_append] at hstable ⊢
    have hm := ih (hstable.of_prefix (List.prefix_append _ _))
    apply hm.append_other
    have hne := admitted.not_payout.1
    simp [ofKind, hne]
  | @drain m now ts before ih =>
    have hm := hstable.of_prefix (m.settleDue_log now ts).isPrefix
    exact (settleDue_once now ts (before.pools hempty hm) (ih hm)).2.1

end Node

end Cairn.Ports
