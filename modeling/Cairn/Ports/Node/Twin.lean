import Cairn.Ports.Node.Independence

/-!
# Logs with the same payouts

Two logs that share a past and have appended the same payouts since, whatever
the times and places of these are. A drain reads no time or place of a payout,
so it appends the same payouts to both.
-/

namespace Cairn.Ports

open Cairn.Verified
open Cairn.Verified.AppendOnly
open Cairn.Ports.Canonical

/-- Two logs that say the same, with the payouts since a common past perhaps
written at other times. -/
structure Twin (log log' : List Entry) : Prop where
  past : ∃ base, ExtendsBy Node.IsPayout base log ∧ ExtendsBy Node.IsPayout base log'
  records : records log = records log'

namespace Twin

variable {log log' : List Entry}

theorem refl (log : List Entry) : Twin log log := ⟨⟨log, .refl _, .refl _⟩, rfl⟩

theorem length_eq (h : Twin log log') : log.length = log'.length := by
  have hlen := congrArg List.length h.records
  unfold Ports.records at hlen
  rwa [List.length_map, List.length_map] at hlen

theorem concat (h : Twin log log') {e e' : Entry} (he : Node.IsPayout e) (he' : Node.IsPayout e')
    (hsame : (e.kind, e.payload) = (e'.kind, e'.payload)) : Twin (log ++ [e]) (log' ++ [e']) := by
  obtain ⟨base, hbase, hbase'⟩ := h.past
  refine ⟨⟨base, hbase.concat he, hbase'.concat he'⟩, ?_⟩
  rw [records_append, records_append, h.records]
  unfold Ports.records
  rw [List.map_singleton, List.map_singleton, hsame]

theorem parallel {n m n' m' : Node} (h : Twin n.log n'.log) (hsame : Node.Parallel n m n' m')
    (hext : ExtendsBy Node.IsPayout n.log m.log) (hext' : ExtendsBy Node.IsPayout n'.log m'.log) :
    Twin m.log m'.log := by
  obtain ⟨base, hbase, hbase'⟩ := h.past
  refine ⟨⟨base, hbase.trans hext, hbase'.trans hext'⟩, ?_⟩
  obtain ⟨new, new', hm, hm', hnew⟩ := hsame
  rw [hm, hm', records_append, records_append, h.records, hnew]

/-! ## What both logs answer -/

theorem ofKind_eq (h : Twin log log') {kind : EntryKind}
    (hkind : kind ≠ .settlement ∧ kind ≠ .frontier ∧ kind ≠ .batch) :
    Log.ofKind log kind = Log.ofKind log' kind := by
  obtain ⟨base, hbase, hbase'⟩ := h.past
  rw [Node.ofKind_payouts hbase hkind, Node.ofKind_payouts hbase' hkind]

theorem map_payload_ofKind (h : Twin log log') (kind : EntryKind) :
    (Log.ofKind log kind).map Entry.payload = (Log.ofKind log' kind).map Entry.payload := by
  have hpayloads : ∀ l : List Entry, (Log.ofKind l kind).map Entry.payload =
      ((Ports.records l).filter fun r => r.1 = kind.asStr).map Prod.snd := by
    intro l
    unfold Log.ofKind Ports.records
    rw [List.filter_map, List.map_map]
    rfl
  rw [hpayloads, hpayloads, h.records]

theorem claims_eq (h : Twin log log') : Log.claims log = Log.claims log' := by
  unfold Log.claims Log.decoded
  rw [h.ofKind_eq (by decide)]

theorem acceptedClaimIds_eq (h : Twin log log') :
    Log.acceptedClaimIds log = Log.acceptedClaimIds log' := by
  unfold Log.acceptedClaimIds
  rw [h.ofKind_eq (by decide)]

section Digests

variable [Sha256]

theorem objectives_eq (h : Twin log log') : Log.objectives log = Log.objectives log' := by
  unfold Log.objectives Log.decoded
  rw [h.ofKind_eq (by decide)]

theorem linksFrom_eq (stopAt : Option UInt64) (l l' : List Entry) :
    ∀ head, Ports.records l = Ports.records l' →
      Log.linksFrom stopAt head l = Log.linksFrom stopAt head l' := by
  induction l generalizing l' with
  | nil =>
    intro head h
    cases l' with
    | nil => rfl
    | cons e' rest' => cases h
  | cons e rest ih =>
    intro head h
    cases l' with
    | nil => cases h
    | cons e' rest' =>
      unfold Ports.records at h ih
      rw [List.map_cons, List.map_cons, List.cons.injEq, Prod.mk.injEq] at h
      obtain ⟨⟨hkind, hpayload⟩, hrest⟩ := h
      unfold Log.linksFrom
      rw [hkind, hpayload]
      by_cases hbatch : e'.kind ≠ EntryKind.batch.asStr
      · rw [if_pos hbatch, if_pos hbatch]
        exact ih rest' head hrest
      · rw [if_neg hbatch, if_neg hbatch]
        cases payloadU64 e'.payload "epoch" with
        | none => exact ih rest' head hrest
        | some epoch =>
          dsimp only
          rw [ih rest' _ hrest]

variable [Clock]

theorem acceptedClaimsByEpoch_eq (h : Twin log log') :
    Log.acceptedClaimsByEpoch log = Log.acceptedClaimsByEpoch log' := by
  unfold Log.acceptedClaimsByEpoch
  rw [h.acceptedClaimIds_eq, h.claims_eq]

omit [Sha256] in
theorem epochBeacon_eq (h : Twin log log') (epoch : UInt64) :
    Log.epochBeaconWithin log epoch log.length = Log.epochBeaconWithin log' epoch log'.length := by
  have hcommute : ∀ (l : List Entry) positions, Log.ofKind (Log.within l positions) .beacon =
      Log.within (Log.ofKind l .beacon) positions := by
    intro l positions
    unfold Log.ofKind Log.within
    rw [List.filter_filter, List.filter_filter]
    exact List.filter_congr fun e _ => Bool.and_comm _ _
  unfold Log.epochBeaconWithin
  rw [hcommute, hcommute, h.ofKind_eq (by decide), h.length_eq]

theorem anchorOfEpoch_eq (h : Twin log log') (epoch : UInt64) :
    Log.anchorOfEpoch log epoch = Log.anchorOfEpoch log' epoch := by
  unfold Log.anchorOfEpoch Log.anchorOfEpochWithin
  rw [h.epochBeacon_eq]
  unfold Log.epochChainHeadBefore Log.epochLinksBefore
  rw [List.take_length, List.take_length, linksFrom_eq _ _ _ "" h.records]

theorem batchOf_eq (h : Twin log log') (epoch : UInt64) :
    Log.batchOf log epoch = Log.batchOf log' epoch := by
  unfold Log.batchOf Log.acceptedInEpoch
  rw [h.acceptedClaimsByEpoch_eq, h.anchorOfEpoch_eq]

omit [Clock] in
/-- Such logs agree on every job. -/
theorem jobAgree (h : Twin log log') (objectiveId : String) :
    Log.JobAgree (Log.jobIds log objectiveId) log log' where
  job := by
    intro id hid
    have hsame : Log.jobIds log' id = Log.jobIds log id := by
      unfold Log.jobIds Log.pieceworkScope
      rw [h.objectives_eq]
    rw [hsame]
    exact ⟨Log.jobIds_of_mem hid, Log.jobIds_of_mem hid⟩
  objectives := by
    intro id _
    rw [h.objectives_eq]
  claims := by
    unfold Log.jobClaims
    rw [h.claims_eq]
  verdicts := by
    unfold Log.jobVerdicts Log.jobClaims
    rw [h.ofKind_eq (by decide), h.claims_eq]
  payments := by
    unfold Log.jobPayments
    rw [h.records]

end Digests

end Twin

namespace Node

variable [World]

open Log

/-! ## Settling on both -/

/-- A claim settles alike on both. -/
theorem settleOne_twin {n n' : Node} (hn : Steady n) (hn' : Steady n') (h : Twin n.log n'.log)
    {e : Entry} {claim : Claim} (hclaim : (e, claim) ∈ Log.claims n.log)
    {consumed consumed' : List String} (hconsumed : ConsumedAlike n.log claim consumed consumed')
    (epoch : UInt64) (ts ts' : String) :
    Twin (n.settleOne claim epoch consumed ts).1.log (n'.settleOne claim epoch consumed' ts').1.log ∧
      (n.settleOne claim epoch consumed ts).2 = (n'.settleOne claim epoch consumed' ts').2 := by
  have halike := alike_of_agree (h.jobAgree claim.objectiveId) hn hn' hclaim
    (self_mem_jobIds _ _) hconsumed epoch
  obtain ⟨hparallel, hresult⟩ := settleOne_alike halike ts ts'
  refine ⟨h.parallel hparallel ?_ ?_, hresult⟩
  · exact (n.settleOne_log claim epoch consumed ts).mono fun e he => .inl he
  · exact (n'.settleOne_log claim epoch consumed' ts').mono fun e he => .inl he

/-- The claims of a batch settle alike on both. -/
theorem settleBatch_twin {epoch : UInt64} (ts ts' : String) :
    ∀ (batch : List Claim) (n n' : Node) (consumed consumed' : List String), Steady n →
      Steady n' → Twin n.log n'.log → (∀ c ∈ batch, ∃ e, (e, c) ∈ Log.claims n.log) →
      (∀ c ∈ batch, ConsumedAlike n.log c consumed consumed') →
      Twin (settleBatch epoch ts n consumed batch).1.log
        (settleBatch epoch ts' n' consumed' batch).1.log := by
  intro batch
  induction batch with
  | nil =>
    intro n n' _ _ _ _ h _ _
    exact h
  | cons c rest ih =>
    intro n n' consumed consumed' hn hn' h hclaims hconsumed
    obtain ⟨e, hclaim⟩ := hclaims c (by simp)
    obtain ⟨outcome, houtcome⟩ := settleOne_ok hn.pools c epoch consumed ts
    obtain ⟨htwin, hresult⟩ := settleOne_twin hn hn' h hclaim (hconsumed c (by simp)) epoch ts ts'
    have houtcome' : (n'.settleOne c epoch consumed' ts').2 = .ok outcome := by
      rw [← hresult]
      exact houtcome
    have hclaim' : (e, c) ∈ Log.claims n'.log := by
      rw [← h.claims_eq]
      exact hclaim
    have hext := n.settleOne_payments c epoch consumed ts
    rw [settleBatch_cons rest houtcome, settleBatch_cons rest houtcome']
    apply ih _ _ _ _ (hn.settleOne hclaim epoch consumed ts)
      (hn'.settleOne hclaim' epoch consumed' ts') htwin
    · intro d hd
      rw [claims_of_payments hext]
      exact hclaims d (by simp [hd])
    · intro d hd
      apply consumedAlike_both outcome.settled _ hext (hconsumed d (by simp [hd]))
      rw [htwin.objectives_eq]

theorem consumedAlike_refl (log : List Entry) (claim : Claim) (consumed : List String) :
    ConsumedAlike log claim consumed consumed :=
  ⟨fun _ => Iff.rfl, fun _ _ _ _ => Iff.rfl⟩

/-- An epoch settles alike on both. -/
theorem settleEpoch_twin {n n' : Node} (hn : Steady n) (hn' : Steady n') (h : Twin n.log n'.log)
    (epoch : UInt64) (ts ts' : String) :
    Twin (n.settleEpoch epoch ts).1.log (n'.settleEpoch epoch ts').1.log := by
  rw [settleEpoch_eq hn, settleEpoch_eq hn', ← h.batchOf_eq, ← h.anchorOfEpoch_eq]
  have hbatch : Twin (settleBatch epoch ts n [] (batchOf n.log epoch)).1.log
      (settleBatch epoch ts' n' [] (batchOf n.log epoch)).1.log := by
    apply settleBatch_twin ts ts' (batchOf n.log epoch) n n' [] [] hn hn' h
    · intro c hc
      exact exists_claim_of_mem_batchOf hc (.refl _)
    · intro c _
      exact consumedAlike_refl n.log c []
  rw [log_append, log_append]
  exact hbatch.concat (.inr rfl) (.inr rfl) rfl

theorem Steady.settleEpoch {n : Node} (h : Steady n) (epoch : UInt64) (ts : String) :
    Steady (n.settleEpoch epoch ts).1 := by
  apply settleEpoch_induction (P := Steady) _ _ epoch h
  · intro start m claim epoch consumed hbatch hext hm
    obtain ⟨e, hclaim⟩ := exists_claim_of_mem_batchOf hbatch hext
    exact hm.settleOne hclaim epoch consumed ts
  · intro m epoch anchor order hm
    exact hm.append_batch epoch anchor order ts

/-- On a steady node an epoch does not fail. -/
theorem settleEpoch_ok {n : Node} (h : Steady n) (epoch : UInt64) (ts : String) :
    ∃ outcomes, (n.settleEpoch epoch ts).2 = .ok outcomes := by
  obtain ⟨outcomes, hok⟩ := settleBatch_ok epoch ts (batchOf n.log epoch) n [] h.pools
  refine ⟨outcomes, ?_⟩
  unfold Node.settleEpoch
  dsimp only
  generalize settleBatch epoch ts n [] (batchOf n.log epoch) = res at *
  obtain ⟨m, result⟩ := res
  subst hok
  rfl

theorem settleEpochs_cons {n : Node} (h : Steady n) (epoch : UInt64) (rest : List UInt64)
    (ts : String) :
    (settleEpochs ts n (epoch :: rest)).1 =
      (settleEpochs ts (n.settleEpoch epoch ts).1 rest).1 := by
  obtain ⟨outcomes, hok⟩ := settleEpoch_ok h epoch ts
  rw [settleEpochs]
  generalize n.settleEpoch epoch ts = res at *
  obtain ⟨m, result⟩ := res
  subst hok
  dsimp only
  generalize settleEpochs ts m rest = res'
  obtain ⟨m', result'⟩ := res'
  cases result' <;> rfl

theorem settleEpochs_append (ts : String) (epochs more : List UInt64) {n : Node} (h : Steady n) :
    (settleEpochs ts n (epochs ++ more)).1 =
      (settleEpochs ts (settleEpochs ts n epochs).1 more).1 := by
  induction epochs generalizing n with
  | nil => rfl
  | cons epoch rest ih =>
    rw [List.cons_append, settleEpochs_cons h, settleEpochs_cons h]
    exact ih (h.settleEpoch epoch ts)

/-- Epochs settle alike on both. -/
theorem settleEpochs_twin (ts ts' : String) (epochs : List UInt64) {n n' : Node} (hn : Steady n)
    (hn' : Steady n') (h : Twin n.log n'.log) :
    Twin (settleEpochs ts n epochs).1.log (settleEpochs ts' n' epochs).1.log := by
  induction epochs generalizing n n' with
  | nil => exact h
  | cons epoch rest ih =>
    rw [settleEpochs_cons hn, settleEpochs_cons hn']
    exact ih (hn.settleEpoch epoch ts) (hn'.settleEpoch epoch ts')
      (settleEpoch_twin hn hn' h epoch ts ts')

end Node

end Cairn.Ports
