import Cairn.Ports.Node.Alike

/-!
# Jobs that share an epoch

A job is a set of objectives paid out of one history of units: the piecework
objectives with one verifier and one block, or a single other objective. What
settling a claim of a job reads are the records of the job, except for the set
of strings a batch has consumed, which the jobs of the batch share.
-/

namespace Cairn.Ports

open Cairn.Verified
open Cairn.Verified.AppendOnly
open Cairn.Ports.Canonical

namespace Log

section Records

/-- The settlements and frontiers among records, of these objectives. -/
def paymentsOf (ids : List String) (rs : List (String × Value)) : List (String × Value) :=
  rs.filter fun r => (r.1 = EntryKind.settlement.asStr || r.1 = EntryKind.frontier.asStr) &&
    ids.any fun id => payloadStr r.2 "objective_id" = some id

/-- The settlements and frontiers of these objectives. -/
def jobPayments (ids : List String) (log : List Entry) : List (String × Value) :=
  paymentsOf ids (records log)

/-- The claims on these objectives, each with the time it was admitted. -/
def jobClaims (ids : List String) (log : List Entry) : List (String × Claim) :=
  ((claims log).filter fun p => p.2.objectiveId ∈ ids).map fun p => (p.1.ts, p.2)

@[simp] theorem jobPayments_append (ids : List String) (xs ys : List Entry) :
    jobPayments ids (xs ++ ys) = jobPayments ids xs ++ jobPayments ids ys := by
  simp [jobPayments, paymentsOf]

/-- The payments of one objective, read off the payments of its job. -/
theorem map_payload_payments {ids : List String} (log : List Entry) {kind : EntryKind}
    (hkind : kind = .settlement ∨ kind = .frontier) {id : String} (hid : id ∈ ids) :
    ((ofKind log kind).filter fun e => payloadStr e.payload "objective_id" = some id).map
        Entry.payload =
      ((jobPayments ids log).filter fun r =>
        r.1 = kind.asStr && payloadStr r.2 "objective_id" = some id).map Prod.snd := by
  unfold jobPayments paymentsOf records ofKind
  rw [List.filter_filter, List.filter_filter, List.filter_map, List.map_map]
  congr 1
  apply List.filter_congr
  intro e _
  rw [Bool.eq_iff_iff]
  simp only [Function.comp_apply, Bool.and_eq_true, Bool.or_eq_true, decide_eq_true_eq,
    List.any_eq_true]
  constructor
  · rintro ⟨hobjective, hk⟩
    refine ⟨⟨hk, hobjective⟩, ?_, id, hid, hobjective⟩
    rw [hk, EntryKind.asStr_inj, EntryKind.asStr_inj]
    exact hkind
  · rintro ⟨⟨hk, hobjective⟩, -⟩
    exact ⟨hobjective, hk⟩

theorem settlementOf_isSome (log : List Entry) (id : String) :
    (settlementOf log id).isSome = !(((ofKind log .settlement).filter fun e =>
      payloadStr e.payload "objective_id" = some id).map Entry.payload).isEmpty := by
  unfold settlementOf
  rw [← List.head?_filter, Option.isSome_map, List.isEmpty_map]
  cases (ofKind log .settlement).filter fun e =>
    payloadStr e.payload "objective_id" = some id <;> rfl

theorem paidTotal_payloads (log : List Entry) (id : String) :
    paidTotal log id = ((((ofKind log .settlement).filter fun e =>
      payloadStr e.payload "objective_id" = some id).map Entry.payload).map fun v =>
        ((payloadU64 v "reward").getD 0).toNat).sum := by
  unfold paidTotal
  rw [List.map_map]
  rfl

theorem latestFrontier_payloads (log : List Entry) (id : String) :
    latestFrontier log id =
      match (((ofKind log .frontier).filter fun e =>
        payloadStr e.payload "objective_id" = some id).map Entry.payload).getLast? with
      | none => .ok none
      | some payload => (FrontierEntry.fromValue payload).map some := by
  unfold latestFrontier
  rw [List.getLast?_map]
  cases ((ofKind log .frontier).filter fun e =>
    payloadStr e.payload "objective_id" = some id).getLast? <;> rfl

/-- Equal payments of a job answer the queries about its objectives alike. -/
theorem queries_of_jobPayments {ids : List String} {log log' : List Entry}
    (h : jobPayments ids log = jobPayments ids log') {id : String} (hid : id ∈ ids) :
    latestFrontier log id = latestFrontier log' id ∧
      (settlementOf log id).isSome = (settlementOf log' id).isSome ∧
      paidTotal log id = paidTotal log' id := by
  rw [latestFrontier_payloads, latestFrontier_payloads, settlementOf_isSome, settlementOf_isSome,
    paidTotal_payloads, paidTotal_payloads]
  simp only [map_payload_payments _ (.inl rfl) hid, map_payload_payments _ (.inr rfl) hid, h,
    and_self]

section Digests

variable [Sha256]

/-- The verdicts about the claims on these objectives. -/
def jobVerdicts (ids : List String) (log : List Entry) : List Value :=
  ((ofKind log .verdict).filter fun e => (jobClaims ids log).any fun p =>
    payloadStr e.payload "claim_id" = some p.2.id).map Entry.payload

/-- The objectives of a job, given one of them. -/
def jobIds (log : List Entry) (objectiveId : String) : List String :=
  match (objectives log).get? objectiveId with
  | some objective =>
    if objective.piecework.isSome then pieceworkScope log objective else [objectiveId]
  | none => [objectiveId]

/-- Two logs have the same records of a job. -/
structure JobAgree (ids : List String) (log log' : List Entry) : Prop where
  job : ∀ id ∈ ids, jobIds log id = ids ∧ jobIds log' id = ids
  objectives : ∀ id ∈ ids, (objectives log).get? id = (Log.objectives log').get? id
  claims : jobClaims ids log = jobClaims ids log'
  verdicts : jobVerdicts ids log = jobVerdicts ids log'
  payments : jobPayments ids log = jobPayments ids log'

variable {id ts : String} {log : List Entry} {claim : Claim} {ids : List String}

/-- The objectives of a job are a job to each of them. -/
theorem jobIds_of_mem {objectiveId : String} (h : id ∈ jobIds log objectiveId) :
    jobIds log id = jobIds log objectiveId := by
  cases hknown : (objectives log).get? objectiveId with
  | none =>
    unfold jobIds at h
    rw [hknown, List.mem_singleton] at h
    rw [h]
  | some o =>
    by_cases hpiecework : o.piecework.isSome
    · have hids : jobIds log objectiveId = pieceworkScope log o := by
        unfold jobIds
        rw [hknown]
        exact if_pos hpiecework
      rw [hids] at h ⊢
      unfold pieceworkScope at h
      simp only [List.mem_map, List.mem_filter, Bool.and_eq_true, decide_eq_true_eq,
        Prod.exists, ← BTreeMap.get?_eq_some_iff] at h
      obtain ⟨id', o', ⟨hget, ⟨hsome, hblock⟩, hverifier⟩, rfl⟩ := h
      unfold jobIds
      rw [hget]
      dsimp only
      rw [if_pos hsome]
      unfold pieceworkScope
      rw [hblock, hverifier]
    · have hids : jobIds log objectiveId = [objectiveId] := by
        unfold jobIds
        rw [hknown]
        exact if_neg hpiecework
      rw [hids, List.mem_singleton] at h
      rw [h]

/-- The claims of a piecework job are the claims on its objectives. -/
theorem inJob_iff_mem_jobIds {o : Objective} {block : Value}
    (hknown : (objectives log).get? id = some o) (hblock : o.piecework = some block) (claim : Claim) :
    InJob log o.verifier block claim ↔ claim.objectiveId ∈ jobIds log id := by
  unfold jobIds
  rw [hknown]
  dsimp only
  rw [if_pos (by rw [hblock]; rfl), mem_pieceworkScope hblock]

omit [Sha256] in
theorem mem_jobClaims :
    (ts, claim) ∈ jobClaims ids log ↔
      ∃ e, (e, claim) ∈ claims log ∧ e.ts = ts ∧ claim.objectiveId ∈ ids := by
  unfold jobClaims
  simp only [List.mem_map, List.mem_filter, decide_eq_true_eq, Prod.mk.injEq, Prod.exists]
  constructor
  · rintro ⟨e, c, ⟨hmem, hid⟩, hts, rfl⟩
    exact ⟨e, hmem, hts, hid⟩
  · rintro ⟨e, hmem, hts, hid⟩
    exact ⟨e, claim, ⟨hmem, hid⟩, hts, rfl⟩

/-- The verdicts about one claim, read off the verdicts of its job. -/
theorem map_payload_verdicts (h : (ts, claim) ∈ jobClaims ids log) :
    ((ofKind log .verdict).filter fun e =>
        payloadStr e.payload "claim_id" = some claim.id).map Entry.payload =
      (jobVerdicts ids log).filter fun v => payloadStr v "claim_id" = some claim.id := by
  unfold jobVerdicts
  rw [List.filter_map, List.filter_filter]
  congr 1
  apply List.filter_congr
  intro e _
  rw [Bool.eq_iff_iff]
  simp only [Function.comp_apply, Bool.and_eq_true, decide_eq_true_eq, List.any_eq_true]
  exact ⟨fun hid => ⟨hid, _, h, hid⟩, And.left⟩

omit [Sha256] in
theorem recordedVerdict_payloads (log : List Entry) (claimId : String) :
    recordedVerdict log claimId = ((((ofKind log .verdict).filter fun e =>
      payloadStr e.payload "claim_id" = some claimId).map Entry.payload).getLast?).bind fun v =>
        (v.get "verdict").bind Verdict.fromValue := by
  unfold recordedVerdict
  rw [List.getLast?_map, Option.bind_map]
  rfl

theorem JobAgree.recordedVerdict {log' : List Entry} (h : JobAgree ids log log')
    (hclaim : (ts, claim) ∈ jobClaims ids log) :
    Log.recordedVerdict log claim.id = Log.recordedVerdict log' claim.id := by
  have hclaim' := hclaim
  rw [h.claims] at hclaim'
  rw [recordedVerdict_payloads, recordedVerdict_payloads, map_payload_verdicts hclaim,
    map_payload_verdicts hclaim', h.verdicts]

theorem artifactIdsBefore_jobClaims [Clock] (log : List Entry) (hid : id ∈ ids) (epoch : UInt64) :
    artifactIdsBefore log id epoch = ((jobClaims ids log).filter fun p =>
      (match epochOfTs p.1 with
        | some at_ => at_ < epoch
        | none => false) && p.2.objectiveId = id).map fun p => p.2.artifactId := by
  unfold artifactIdsBefore jobClaims
  rw [List.filter_map, List.map_map, List.filter_filter]
  congr 1
  apply List.filter_congr
  intro p _
  rw [Bool.eq_iff_iff]
  simp only [Function.comp_apply, Bool.and_eq_true, decide_eq_true_eq]
  constructor
  · rintro ⟨hepoch, hobjective⟩
    exact ⟨⟨hepoch, hobjective⟩, by rw [hobjective]; exact hid⟩
  · exact And.left

/-- The paid units of a job, read off its claims and payments. -/
def JobPaid (ids : List String) (log : List Entry) (piecework : Piecework) (key : String) : Prop :=
  ∃ p ∈ jobClaims ids log, (∃ r ∈ jobPayments ids log, r.1 = EntryKind.settlement.asStr ∧
    payloadStr r.2 "claim_id" = some p.2.id) ∧ key ∈ piecework.unitKeys p.2.artifact

theorem paidUnit_iff_jobPaid {verifier block : Value} (hstable : StableClaims log)
    (hpaid : PaidClaims log)
    (hjob : ∀ claim, InJob log verifier block claim ↔ claim.objectiveId ∈ ids)
    (piecework : Piecework) (key : String) :
    PaidUnit log log verifier block piecework key ↔ JobPaid ids log piecework key := by
  unfold PaidUnit JobPaid
  constructor
  · rintro ⟨⟨e, claim⟩, hp, hsettled, hin, hkey⟩
    rw [hjob] at hin
    refine ⟨(e.ts, claim), mem_jobClaims.mpr ⟨e, hp, rfl, hin⟩, ?_, hkey⟩
    unfold settledIds at hsettled
    obtain ⟨x, hx, hid⟩ := List.mem_filterMap.mp hsettled
    obtain ⟨hmem, hkind⟩ := mem_ofKind.mp hx
    obtain ⟨before, after, hlog⟩ := List.append_of_mem hmem
    obtain ⟨q, hq, hqid, hqobjective⟩ := hpaid before x after hlog hkind
    have hqin : q ∈ claims log := by
      rw [hlog, claims_append, List.mem_append]
      exact .inl hq
    -- the settlement names the claim, so it names the claim's objective
    have hsame : q.2 = claim := by
      apply hstable q hqin _ hp
      rw [hid] at hqid
      exact (Option.some.inj hqid).symm
    refine ⟨(x.kind, x.payload), ?_, hkind, hid⟩
    unfold jobPayments paymentsOf records
    rw [List.mem_filter]
    refine ⟨List.mem_map_of_mem hmem, ?_⟩
    simp only [Bool.and_eq_true, Bool.or_eq_true, decide_eq_true_eq, List.any_eq_true]
    exact ⟨.inl hkind, claim.objectiveId, hin, by rw [hqobjective, hsame]⟩
  · rintro ⟨⟨ts, claim⟩, hp, ⟨r, hr, hkind, hid⟩, hkey⟩
    obtain ⟨e, hmem, -, hin⟩ := mem_jobClaims.mp hp
    refine ⟨(e, claim), hmem, ?_, (hjob claim).mpr hin, hkey⟩
    unfold jobPayments paymentsOf records at hr
    obtain ⟨x, hx, rfl⟩ := List.mem_map.mp (List.mem_of_mem_filter hr)
    exact List.mem_filterMap.mpr ⟨x, mem_ofKind.mpr ⟨hx, hkind⟩, hid⟩

end Digests

end Records

section Keys

variable [Sha256]

/-- The job of a claim has paid a unit. -/
def KeyPaid (log : List Entry) (claim : Claim) (key : String) : Prop :=
  ∃ o block piecework, (objectives log).get? claim.objectiveId = some o ∧
    o.piecework = some block ∧ Piecework.fromValue block = .ok piecework ∧
    PaidUnit log log o.verifier block piecework key

/-- No claim of a batch names a unit, unpaid in its job, that an earlier claim
of another job names too. -/
def Unshared (log : List Entry) (batch : List Claim) : Prop :=
  batch.Pairwise fun d c => c.objectiveId ∉ jobIds log d.objectiveId →
    ∀ dkeys ckeys, unitKeysFor log d = some dkeys → unitKeysFor log c = some ckeys →
      ∀ key ∈ dkeys, key ∈ ckeys → KeyPaid log c key

variable {log : List Entry}

theorem unitKeysFor_eq_some {claim : Claim} {keys : List String} :
    unitKeysFor log claim = some keys ↔
      ∃ o block piecework, (objectives log).get? claim.objectiveId = some o ∧
        o.piecework = some block ∧ Piecework.fromValue block = .ok piecework ∧
        keys = piecework.unitKeys claim.artifact := by
  unfold unitKeysFor
  simp only [Option.bind_eq_bind, Option.bind_eq_some_iff, Option.pure_def, Option.some.injEq]
  constructor
  · rintro ⟨o, hget, block, hblock, piecework, hparse, rfl⟩
    exact ⟨o, block, piecework, hget, hblock, toOk_eq_some hparse, rfl⟩
  · rintro ⟨o, block, piecework, hget, hblock, hparse, rfl⟩
    exact ⟨o, hget, block, hblock, piecework, by rw [hparse]; rfl, rfl⟩

theorem unitKeysFor_congr {log' : List Entry} {claim : Claim}
    (h : (objectives log).get? claim.objectiveId = (objectives log').get? claim.objectiveId) :
    unitKeysFor log claim = unitKeysFor log' claim := by
  unfold unitKeysFor
  rw [h]

/-- A unit key starts with `piece:`. -/
theorem noveltyKey_head {p : Piecework} {unit : Value} {key : String}
    (h : p.noveltyKey unit = some key) : key.toList.head? = some 'p' := by
  unfold Piecework.noveltyKey at h
  cases hkey : p.key with
  | none =>
    rw [hkey] at h
    cases h
    simp
  | some k =>
    rw [hkey] at h
    cases k with
    | field name =>
      obtain ⟨v, -, rfl⟩ := Option.map_eq_some_iff.mp h
      simp
    | fields names =>
      simp only [Option.bind_eq_bind, Option.bind_eq_some_iff, Option.some.injEq] at h
      obtain ⟨values, -, rfl⟩ := h
      simp

omit [Sha256] in
theorem mem_foldl_dedup {α : Type} [DecidableEq α] (l out : List α) (x : α) :
    x ∈ l.foldl (fun out key => if key ∈ out then out else out ++ [key]) out ↔
      x ∈ out ∨ x ∈ l := by
  induction l generalizing out with
  | nil => simp
  | cons key rest ih =>
    rw [List.foldl_cons, ih]
    split_ifs with hmem
    · rw [List.mem_cons]
      constructor
      · rintro (h | h)
        · exact .inl h
        · exact .inr (.inr h)
      · rintro (h | rfl | h)
        · exact .inl h
        · exact .inl hmem
        · exact .inr h
    · rw [List.mem_append, List.mem_singleton, List.mem_cons, or_assoc]

/-- An artifact is not named like a unit. -/
theorem artifactId_not_mem_unitKeys (p : Piecework) (artifact : Value) (claim : Claim) :
    claim.artifactId ∉ p.unitKeys artifact := by
  intro hmem
  unfold Piecework.unitKeys at hmem
  rw [mem_foldl_dedup, List.mem_filterMap] at hmem
  obtain hmem | ⟨unit, -, hkey⟩ := hmem
  · cases hmem
  · have hhead := noveltyKey_head hkey
    unfold Claim.artifactId Value.digest digestBytes at hhead
    simp [DIGEST_PREFIX] at hhead

/-- The text whose digest names the artifact of a claim. -/
def artifactText (claim : Claim) : String :=
  (Value.object [("objective_id", .string claim.objectiveId),
    ("artifact", claim.artifact)]).canonicalString

/-- The texts whose digests name what settlement tells apart. -/
def SettlementTexts (log : List Entry) (text : String) : Prop :=
  RecordTexts log text ∨ ∃ p ∈ claims log, text = artifactText p.2

/-- Artifacts of different objectives have different names. -/
theorem artifactId_ne (hcol : NoCollision (SettlementTexts log)) {e e' : Entry} {c d : Claim}
    (hc : (e, c) ∈ claims log) (hd : (e', d) ∈ claims log) (hne : c.objectiveId ≠ d.objectiveId) :
    c.artifactId ≠ d.artifactId := by
  intro heq
  apply hne
  have htext : artifactText c = artifactText d :=
    hcol _ _ (.inr ⟨_, hc, rfl⟩) (.inr ⟨_, hd, rfl⟩) heq
  have hvalue := Value.canonicalString_injective htext
  have hfield := congrArg (fun v : Value => (v.get "objective_id").bind Value.asStr) hvalue
  simpa [Value.get_object, BTreeMap.lookupEntry] using hfield

end Keys

end Log

namespace Node

variable [World]

open Log

/-! ## Nodes between two claims -/

/-- What a node keeps to between the claims of a batch. -/
structure Steady (n : Node) : Prop where
  named : Named n.log
  units : UnitsOk n
  pools : Pools n.log

variable {claim : Claim} {e : Entry} {n m n' : Node} {log log' : List Entry} {objectiveId : String}
  {ids consumed consumed' : List String}

theorem Steady.settleOne (h : Steady n) (hclaim : (e, claim) ∈ claims n.log) (epoch : UInt64)
    (consumed : List String) (ts : String) : Steady (n.settleOne claim epoch consumed ts).1 := by
  have hsettled := n.settleOne_settled claim epoch consumed ts
  exact ⟨hsettled.named h.named hclaim, hsettled.units h.named h.units hclaim,
    hsettled.pools h.pools⟩

/-- A payment for an objective. -/
def IsPaymentFor (objectiveId : String) (e : Entry) : Prop :=
  IsPayment e ∧ payloadStr e.payload "objective_id" = some objectiveId

/-- Settling a claim pays for its objective only. -/
theorem settleOne_payments (n : Node) (claim : Claim) (epoch : UInt64) (consumed : List String)
    (ts : String) :
    ExtendsBy (IsPaymentFor claim.objectiveId) n.log (n.settleOne claim epoch consumed ts).1.log := by
  have hpay : ∀ (m : Node) reward, ExtendsBy (IsPaymentFor claim.objectiveId) n.log m.log →
      ExtendsBy (IsPaymentFor claim.objectiveId) n.log (m.pay claim reward ts).log := by
    intro m reward hm
    exact hm.concat ⟨.inl rfl, by simp⟩
  have hadvance : ∀ (m : Node) score paid, ExtendsBy (IsPaymentFor claim.objectiveId) n.log m.log →
      ExtendsBy (IsPaymentFor claim.objectiveId) n.log (m.advance claim score paid ts).log := by
    intro m score paid hm
    refine hm.concat ⟨.inr rfl, ?_⟩
    simp [payloadStr, FrontierEntry.toValue, Value.get_object, BTreeMap.lookupEntry]
  generalize hres : n.settleOne claim epoch consumed ts = res
  have hcases := n.settleOne_settled claim epoch consumed ts
  rw [hres] at hcases
  cases hcases with
  | unpaid => exact .refl _
  | unpaidUnit =>
    rw [log_paidUnitKeys]
    exact .refl _
  | overflowed => exact .refl _
  | whole => exact hpay n _ (.refl _)
  | improved =>
    unfold recordMove
    split_ifs
    · exact hpay _ _ (hadvance n _ _ (.refl _))
    · exact hadvance n _ _ (.refl _)
  | unit =>
    apply hpay
    rw [log_paidUnitKeys]
    exact .refl _

omit [World] in
/-- Payments change neither claims nor objectives. -/
theorem claims_of_payments (h : ExtendsBy (IsPaymentFor objectiveId) log log') :
    claims log' = claims log :=
  claims_of_payouts (h.mono fun _ he => .inl he.1)

theorem objectives_of_payments (h : ExtendsBy (IsPaymentFor objectiveId) log log') :
    objectives log' = objectives log := by
  unfold Log.objectives decoded
  rw [ofKind_payouts (h.mono fun _ he => .inl he.1) (by decide)]

theorem jobIds_of_payments (h : ExtendsBy (IsPaymentFor objectiveId) log log') (id : String) :
    jobIds log' id = jobIds log id := by
  unfold jobIds pieceworkScope
  rw [objectives_of_payments h]

omit [World] in
theorem jobClaims_of_payments (h : ExtendsBy (IsPaymentFor objectiveId) log log')
    (ids : List String) : jobClaims ids log' = jobClaims ids log := by
  unfold jobClaims
  rw [claims_of_payments h]

theorem jobVerdicts_of_payments (h : ExtendsBy (IsPaymentFor objectiveId) log log')
    (ids : List String) : jobVerdicts ids log' = jobVerdicts ids log := by
  unfold jobVerdicts
  rw [ofKind_payouts (h.mono fun _ he => .inl he.1) (by decide), jobClaims_of_payments h]

omit [World] in
theorem jobPayments_of_other (h : ExtendsBy (IsPaymentFor objectiveId) log log')
    (hid : objectiveId ∉ ids) : jobPayments ids log' = jobPayments ids log := by
  obtain ⟨new, rfl, hnew⟩ := h
  have hnone : jobPayments ids new = [] := by
    unfold jobPayments paymentsOf records
    rw [List.filter_eq_nil_iff]
    rintro r hr
    obtain ⟨e, he, rfl⟩ := List.mem_map.mp hr
    simp only [Bool.and_eq_true, List.any_eq_true, decide_eq_true_eq, (hnew e he).2,
      Option.some.injEq, not_and, not_exists]
    rintro - id hin rfl
    exact hid hin
  rw [jobPayments_append, hnone, List.append_nil]

/-- Payments for another job change nothing of this one. -/
theorem jobAgree_other {after : List Entry} (h : JobAgree ids log log')
    (hext : ExtendsBy (IsPaymentFor objectiveId) log after) (hid : objectiveId ∉ ids) :
    JobAgree ids after log' where
  job := by
    intro id hin
    rw [jobIds_of_payments hext]
    exact h.job id hin
  objectives := by
    intro id hin
    rw [objectives_of_payments hext]
    exact h.objectives id hin
  claims := by rw [jobClaims_of_payments hext, h.claims]
  verdicts := by rw [jobVerdicts_of_payments hext, h.verdicts]
  payments := by rw [jobPayments_of_other hext hid, h.payments]

/-- The same payments for this job on both logs. -/
theorem jobAgree_both {m' : Node} (h : JobAgree ids n.log n'.log)
    (hext : ExtendsBy (IsPaymentFor objectiveId) n.log m.log)
    (hext' : ExtendsBy (IsPaymentFor objectiveId) n'.log m'.log) (hsame : Parallel n m n' m') :
    JobAgree ids m.log m'.log where
  job := by
    intro id hin
    rw [jobIds_of_payments hext, jobIds_of_payments hext']
    exact h.job id hin
  objectives := by
    intro id hin
    rw [objectives_of_payments hext, objectives_of_payments hext']
    exact h.objectives id hin
  claims := by rw [jobClaims_of_payments hext, jobClaims_of_payments hext', h.claims]
  verdicts := by rw [jobVerdicts_of_payments hext, jobVerdicts_of_payments hext', h.verdicts]
  payments := by
    obtain ⟨new, new', hm, hm', hnew⟩ := hsame
    rw [hm, hm', jobPayments_append, jobPayments_append, h.payments]
    unfold jobPayments
    rw [hnew]

/-! ## What a batch consumed -/

/-- Two sets of consumed strings treat a claim alike. -/
def ConsumedAlike (log : List Entry) (claim : Claim) (consumed consumed' : List String) : Prop :=
  (unitKeysFor log claim = none →
    (claim.artifactId ∈ consumed ↔ claim.artifactId ∈ consumed')) ∧
  ∀ keys, unitKeysFor log claim = some keys → ∀ key ∈ keys,
    (key ∈ consumed ∨ KeyPaid log claim key ↔ key ∈ consumed' ∨ KeyPaid log claim key)

theorem keyPaid_iff {o : Objective} {block : Value} {piecework : Piecework}
    (hknown : (Log.objectives log).get? claim.objectiveId = some o)
    (hblock : o.piecework = some block) (hparse : Piecework.fromValue block = .ok piecework)
    (key : String) : KeyPaid log claim key ↔ PaidUnit log log o.verifier block piecework key := by
  constructor
  · rintro ⟨o', block', piecework', hknown', hblock', hparse', hpaid⟩
    rw [hknown] at hknown'
    cases hknown'
    rw [hblock] at hblock'
    cases hblock'
    rw [hparse] at hparse'
    cases hparse'
    exact hpaid
  · intro hpaid
    exact ⟨o, block, piecework, hknown, hblock, hparse, hpaid⟩

/-- What a job has paid stays paid. -/
theorem keyPaid_of_payments (h : ExtendsBy (IsPaymentFor objectiveId) log log') {key : String}
    (hpaid : KeyPaid log claim key) : KeyPaid log' claim key := by
  obtain ⟨o, block, piecework, hknown, hblock, hparse, p, hp, hsettled, ⟨o', hjob⟩, hkey⟩ := hpaid
  refine ⟨o, block, piecework, ?_, hblock, hparse, p, ?_, ?_, ⟨o', ?_⟩, hkey⟩
  · rw [objectives_of_payments h]
    exact hknown
  · rw [claims_of_payments h]
    exact hp
  · obtain ⟨new, rfl, -⟩ := h
    rw [settledIds_append]
    exact List.mem_append_left _ hsettled
  · rw [objectives_of_payments h]
    exact hjob

/-- What a job has paid is among the records of the job. -/
theorem paidUnit_iff_of_agree (h : JobAgree ids n.log n'.log) (hn : Named n.log)
    (hn' : Named n'.log) {id : String} (hid : id ∈ ids) {o : Objective} {block : Value}
    (hknown : (Log.objectives n.log).get? id = some o) (hblock : o.piecework = some block)
    (piecework : Piecework) (key : String) :
    PaidUnit n.log n.log o.verifier block piecework key ↔
      PaidUnit n'.log n'.log o.verifier block piecework key := by
  have hknown' := hknown
  rw [h.objectives id hid] at hknown'
  have hjob : ∀ claim, InJob n.log o.verifier block claim ↔ claim.objectiveId ∈ ids := by
    intro claim
    rw [inJob_iff_mem_jobIds hknown hblock, (h.job id hid).1]
  have hjob' : ∀ claim, InJob n'.log o.verifier block claim ↔ claim.objectiveId ∈ ids := by
    intro claim
    rw [inJob_iff_mem_jobIds hknown' hblock, (h.job id hid).2]
  rw [paidUnit_iff_jobPaid hn.stableClaims hn.paid hjob,
    paidUnit_iff_jobPaid hn'.stableClaims hn'.paid hjob']
  unfold JobPaid
  rw [h.claims, h.payments]

/-- Nodes that agree on a job look alike to its claims. -/
theorem alike_of_agree (h : JobAgree ids n.log n'.log) (hn : Steady n) (hn' : Steady n')
    (hclaim : (e, claim) ∈ Log.claims n.log) (hid : claim.objectiveId ∈ ids)
    (hconsumed : ConsumedAlike n.log claim consumed consumed') (epoch : UInt64) :
    Alike n n' claim epoch consumed consumed' := by
  have hjobClaim : (e.ts, claim) ∈ jobClaims ids n.log := mem_jobClaims.mpr ⟨e, hclaim, rfl, hid⟩
  obtain ⟨hfrontier, hsettled, htotal⟩ := queries_of_jobPayments h.payments hid
  constructor
  · exact h.objectives _ hid
  · unfold settlingVerdict
    rw [h.recordedVerdict hjobClaim]
  · exact hfrontier
  · exact hsettled
  · exact htotal
  · intro o hknown _ hpiecework
    have hnone : unitKeysFor n.log claim = none := by
      rw [Option.eq_none_iff_forall_not_mem]
      intro keys hkeys
      obtain ⟨o', block, -, hknown', hblock, -⟩ := unitKeysFor_eq_some.mp hkeys
      rw [hknown] at hknown'
      cases hknown'
      rw [hpiecework] at hblock
      cases hblock
    rw [hconsumed.1 hnone, artifactIdsBefore_jobClaims n.log hid, artifactIdsBefore_jobClaims _ hid,
      h.claims]
  · intro o block piecework hknown hblock hparse key hkey
    have hknown' := hknown
    rw [h.objectives _ hid] at hknown'
    have hkeys : unitKeysFor n.log claim = some (piecework.unitKeys claim.artifact) :=
      unitKeysFor_eq_some.mpr ⟨o, block, piecework, hknown, hblock, hparse, rfl⟩
    have hspec := (paidUnitKeys_spec hn.named hn.units.index hknown hblock hparse).2 key
    have hspec' := (paidUnitKeys_spec hn'.named hn'.units.index hknown' hblock hparse).2 key
    have hsame := paidUnit_iff_of_agree h hn.named hn'.named hid hknown hblock piecework key
    have hiff := hconsumed.2 _ hkeys key hkey
    rw [keyPaid_iff hknown hblock hparse] at hiff
    rw [hspec, hspec', ← hsame]
    exact hiff

theorem unitKeysFor_of_payments (h : ExtendsBy (IsPaymentFor objectiveId) log log') (claim : Claim) :
    unitKeysFor log' claim = unitKeysFor log claim :=
  unitKeysFor_congr (by rw [objectives_of_payments h])

/-- An objective belongs to its own job. -/
theorem self_mem_jobIds (log : List Entry) (id : String) : id ∈ jobIds log id := by
  unfold jobIds
  cases hknown : (Log.objectives log).get? id with
  | none => exact List.mem_singleton_self id
  | some o =>
    dsimp only
    by_cases hpiecework : o.piecework.isSome
    · rw [if_pos hpiecework]
      obtain ⟨block, hblock⟩ := Option.isSome_iff_exists.mp hpiecework
      unfold pieceworkScope
      simp only [List.mem_map, List.mem_filter, Bool.and_eq_true, decide_eq_true_eq]
      exact ⟨(id, o), ⟨BTreeMap.get?_eq_some_iff.mp hknown, ⟨hpiecework, rfl⟩, rfl⟩, rfl⟩
    · rw [if_neg hpiecework]
      exact List.mem_singleton_self id

theorem unshared_of_payments (h : ExtendsBy (IsPaymentFor objectiveId) log log')
    {batch : List Claim} (hbatch : Unshared log batch) : Unshared log' batch := by
  refine hbatch.imp fun {d c} hpair hother dkeys ckeys hd hc key hkey hkey' => ?_
  rw [jobIds_of_payments h] at hother
  rw [unitKeysFor_of_payments h] at hd hc
  exact keyPaid_of_payments h (hpair hother dkeys ckeys hd hc key hkey hkey')

/-- What a claim of another job consumes is nothing to this claim. -/
theorem consumedAlike_other {c d : Claim} {e' : Entry} (settled : Bool)
    (hcol : NoCollision (SettlementTexts n.log)) (hc : (e, c) ∈ Log.claims n.log)
    (hd : (e', d) ∈ Log.claims n.log) (hne : c.objectiveId ≠ d.objectiveId)
    (hshared : ∀ dkeys ckeys, unitKeysFor n.log d = some dkeys →
      unitKeysFor n.log c = some ckeys → ∀ key ∈ dkeys, key ∈ ckeys → KeyPaid n.log c key)
    (hext : ExtendsBy (IsPaymentFor d.objectiveId) n.log m.log)
    (h : ConsumedAlike n.log c consumed consumed') :
    ConsumedAlike m.log c (m.consume d settled consumed) consumed' := by
  unfold ConsumedAlike consume
  rw [unitKeysFor_of_payments hext, unitKeysFor_of_payments hext]
  have hdkeys : ∀ dkeys, unitKeysFor n.log d = some dkeys → c.artifactId ∉ dkeys := by
    intro dkeys hkeys
    obtain ⟨_, _, piecework, -, -, -, rfl⟩ := unitKeysFor_eq_some.mp hkeys
    exact artifactId_not_mem_unitKeys piecework _ c
  constructor
  · intro hnone
    rw [← h.1 hnone]
    cases hkeys : unitKeysFor n.log d with
    | none =>
      have hartifact := artifactId_ne hcol hc hd hne
      simp [hartifact]
    | some dkeys =>
      have hnot := hdkeys dkeys hkeys
      dsimp only
      split_ifs
      · simp [hnot]
      · rfl
  · intro keys hkeys key hkey
    have hold := h.2 keys hkeys key hkey
    have hgrow : KeyPaid n.log c key → KeyPaid m.log c key := keyPaid_of_payments hext
    have hdartifact : key ≠ d.artifactId := by
      rintro rfl
      obtain ⟨_, _, piecework, -, -, -, rfl⟩ := unitKeysFor_eq_some.mp hkeys
      exact artifactId_not_mem_unitKeys piecework _ d hkey
    cases hdk : unitKeysFor n.log d with
    | none =>
      dsimp only
      rw [List.mem_cons]
      tauto
    | some dkeys =>
      have hboth := hshared dkeys keys hdk hkeys key
      dsimp only
      split_ifs
      · rw [List.mem_append]
        tauto
      · tauto

/-- What a claim of this job consumes on both sides is the same. -/
theorem consumedAlike_both {m' : Node} {c d : Claim} (settled : Bool)
    (hsame : (Log.objectives m.log).get? d.objectiveId = (Log.objectives m'.log).get? d.objectiveId)
    (hext : ExtendsBy (IsPaymentFor objectiveId) n.log m.log)
    (h : ConsumedAlike n.log c consumed consumed') :
    ConsumedAlike m.log c (m.consume d settled consumed) (m'.consume d settled consumed') := by
  unfold ConsumedAlike consume
  rw [unitKeysFor_of_payments hext, ← unitKeysFor_congr hsame]
  constructor
  · intro hnone
    have hold := h.1 hnone
    cases unitKeysFor m.log d with
    | none =>
      dsimp only
      rw [List.mem_cons, List.mem_cons, hold]
    | some dkeys =>
      dsimp only
      split_ifs
      · rw [List.mem_append, List.mem_append, hold]
      · exact hold
  · intro keys hkeys key hkey
    have hold := h.2 keys hkeys key hkey
    have hgrow : KeyPaid n.log c key → KeyPaid m.log c key := keyPaid_of_payments hext
    cases unitKeysFor m.log d with
    | none =>
      dsimp only
      rw [List.mem_cons, List.mem_cons]
      tauto
    | some dkeys =>
      dsimp only
      split_ifs
      · rw [List.mem_append, List.mem_append]
        tauto
      · tauto

/-! ## The batch -/

theorem settleBatch_cons {epoch : UInt64} {ts : String} {outcome : Outcome} (rest : List Claim)
    (h : (n.settleOne claim epoch consumed ts).2 = .ok outcome) :
    (settleBatch epoch ts n consumed (claim :: rest)).1 =
      (settleBatch epoch ts (n.settleOne claim epoch consumed ts).1
        ((n.settleOne claim epoch consumed ts).1.consume claim outcome.settled consumed) rest).1 := by
  rw [settleBatch]
  generalize n.settleOne claim epoch consumed ts = res at *
  obtain ⟨m, result⟩ := res
  subst h
  dsimp only
  generalize settleBatch epoch ts m (m.consume claim outcome.settled consumed) rest = res
  obtain ⟨m', result'⟩ := res
  cases result' <;> rfl

/-- A batch leaves the records of a job as the claims of the job alone leave
them. -/
theorem settleBatch_agree {epoch : UInt64} (ts ts' : String) :
    ∀ (batch : List Claim) (n n' : Node) (consumed consumed' : List String), Steady n →
      Steady n' → JobAgree ids n.log n'.log → NoCollision (SettlementTexts n.log) →
      (∀ c ∈ batch, ∃ e, (e, c) ∈ Log.claims n.log) →
      (∀ c ∈ batch, c.objectiveId ∈ ids → ∃ e, (e, c) ∈ Log.claims n'.log) →
      Unshared n.log batch →
      (∀ c ∈ batch, c.objectiveId ∈ ids → ConsumedAlike n.log c consumed consumed') →
      JobAgree ids (settleBatch epoch ts n consumed batch).1.log
        (settleBatch epoch ts' n' consumed'
          (batch.filter fun c => c.objectiveId ∈ ids)).1.log := by
  intro batch
  induction batch with
  | nil =>
    intro n n' _ _ _ _ h _ _ _ _ _
    exact h
  | cons c rest ih =>
    intro n n' consumed consumed' hn hn' h hcol hclaims hclaims' hunshared hconsumed
    obtain ⟨e, hclaim⟩ := hclaims c (by simp)
    obtain ⟨outcome, houtcome⟩ := settleOne_ok hn.pools c epoch consumed ts
    have hext := n.settleOne_payments c epoch consumed ts
    have hsteady := hn.settleOne hclaim epoch consumed ts
    rw [settleBatch_cons rest houtcome]
    have hcol' : NoCollision
        (SettlementTexts (n.settleOne c epoch consumed ts).1.log) := by
      apply hcol.mono
      intro text htext
      unfold SettlementTexts RecordTexts at htext ⊢
      rw [claims_of_payments hext] at htext
      unfold decoded at htext ⊢
      rw [ofKind_payouts (hext.mono fun _ he => .inl he.1) (by decide)] at htext
      exact htext
    have hclaimsRest : ∀ d ∈ rest, ∃ e,
        (e, d) ∈ Log.claims (n.settleOne c epoch consumed ts).1.log := by
      intro d hd
      rw [claims_of_payments hext]
      exact hclaims d (by simp [hd])
    have hunsharedRest : Unshared (n.settleOne c epoch consumed ts).1.log rest :=
      unshared_of_payments hext (List.Pairwise.of_cons hunshared)
    by_cases hid : c.objectiveId ∈ ids
    · -- a claim of the job: both sides settle it, and alike
      obtain ⟨e', hclaim'⟩ := hclaims' c (by simp) hid
      obtain ⟨hparallel, hresult⟩ := settleOne_alike
        (alike_of_agree h hn hn' hclaim hid (hconsumed c (by simp) hid) epoch) ts ts'
      have hext' := n'.settleOne_payments c epoch consumed' ts'
      have hagree := jobAgree_both h hext hext' hparallel
      have houtcome' : (n'.settleOne c epoch consumed' ts').2 = .ok outcome := by
        rw [← hresult]
        exact houtcome
      rw [List.filter_cons_of_pos (by simpa using hid), settleBatch_cons _ houtcome']
      apply ih _ _ _ _ hsteady (hn'.settleOne hclaim' epoch consumed' ts') hagree hcol'
        hclaimsRest _ hunsharedRest
      · intro d hd hdid
        exact consumedAlike_both outcome.settled (hagree.objectives _ hid) hext
          (hconsumed d (by simp [hd]) hdid)
      · intro d hd hdid
        rw [claims_of_payments hext']
        exact hclaims' d (by simp [hd]) hdid
    · -- a claim of another job: only the left side settles it
      rw [List.filter_cons_of_neg (by simpa using hid)]
      apply ih _ _ _ _ hsteady hn' (jobAgree_other h hext hid) hcol' hclaimsRest _ hunsharedRest
      · intro d hd hdid
        obtain ⟨e', hd'⟩ := hclaims d (by simp [hd])
        have hne : d.objectiveId ≠ c.objectiveId := by
          rintro heq
          exact hid (heq ▸ hdid)
        apply consumedAlike_other outcome.settled hcol hd' hclaim hne _ hext
          (hconsumed d (by simp [hd]) hdid)
        apply (List.pairwise_cons.mp hunshared).1 d hd
        intro hin
        -- the job of `d` is the one at hand, so it does not hold `c`
        have hjob := jobIds_of_mem hin
        rw [(h.job _ hdid).1] at hjob
        apply hid
        rw [hjob]
        exact self_mem_jobIds _ _
      · intro d hd hdid
        exact hclaims' d (by simp [hd]) hdid

end Node

end Cairn.Ports
