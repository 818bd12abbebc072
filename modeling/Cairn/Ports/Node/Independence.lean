import Cairn.Ports.Node.Jobs
import Cairn.Ports.Node.Quiet
import Cairn.Verified.Sorted

/-!
# Jobs do not interfere

What a drain pays a job depends on the records of the job and on the anchor of
the epoch, as long as no claim of another job consumed its units: the unit
keys of every job go into one set for the whole batch.
-/

namespace Cairn.Ports

open Cairn.Verified
open Cairn.Verified.AppendOnly
open Cairn.Ports.Canonical

namespace Log

/-! ## The order of a batch -/

/-- The last verdict about a claim accepts it, or it is not accepted. -/
theorem mem_acceptedClaimIds {log : List Entry} {id : String} :
    id ∈ acceptedClaimIds log ↔ (recordedVerdict log id).any Verdict.accepted = true := by
  unfold acceptedClaimIds recordedVerdict
  induction ofKind log .verdict using List.reverseRecOn with
  | nil => simp
  | append_singleton es e ih =>
    rw [List.foldl_append, List.foldl_cons, List.foldl_nil, List.filter_append]
    generalize es.foldl acceptStep [] = accepted at ih ⊢
    unfold acceptStep
    cases hid : payloadStr e.payload "claim_id" with
    | none => simpa [hid] using ih
    | some claimId =>
      by_cases heq : claimId = id
      · subst heq
        have hlast : (es.filter (fun e => payloadStr e.payload "claim_id" = some claimId) ++
            [e].filter fun e => payloadStr e.payload "claim_id" = some claimId).getLast? =
            some e := by simp [hid]
        have haccept : isAccept e =
            ((e.payload.get "verdict").bind Verdict.fromValue).any Verdict.accepted := by
          unfold isAccept
          cases (e.payload.get "verdict").bind Verdict.fromValue <;> rfl
        rw [hlast]
        dsimp only
        rw [Option.bind_some, ← haccept]
        split_ifs with h
        · simp [h]
        · simp [h]
      · have hnone : [e].filter (fun e => payloadStr e.payload "claim_id" = some id) = [] := by
          simp [hid, heq]
        have hne : id ≠ claimId := fun h => heq h.symm
        rw [hnone, List.append_nil, ← ih]
        dsimp only
        split_ifs
        · simp [hne]
        · simp [hne]

section Order

variable [Sha256]

/-- The first claim of every accepted id, each with the time it was admitted. -/
def firstsOf (accepted : String → Bool) : List String → List (String × Claim) →
    List (String × Claim)
  | _, [] => []
  | seen, (ts, claim) :: rest =>
    if accepted claim.id = false ∨ claim.id ∈ seen then firstsOf accepted seen rest
    else (ts, claim) :: firstsOf accepted (claim.id :: seen) rest

variable {ids : List String}

/-- The claims of a job are met in the same order among the claims of a log. -/
theorem firstAccepted_job {accepted : List String} {accepts : String → Bool}
    (l : List (Entry × Claim)) :
    ∀ (seen seen' : List String),
      (∀ p ∈ l, ∀ q ∈ l, p.2.id = q.2.id → p.2 = q.2) →
      (∀ p ∈ l, p.2.objectiveId ∈ ids → (p.2.id ∈ accepted ↔ accepts p.2.id = true)) →
      (∀ p ∈ l, p.2.objectiveId ∈ ids → (p.2.id ∈ seen ↔ p.2.id ∈ seen')) →
      ((firstAccepted accepted seen l).filter fun p => p.2.objectiveId ∈ ids).map
          (fun p => (p.1.ts, p.2)) =
        firstsOf accepts seen' ((l.filter fun p => p.2.objectiveId ∈ ids).map
          fun p => (p.1.ts, p.2)) := by
  induction l with
  | nil =>
    intro _ _ _ _ _
    rfl
  | cons q rest ih =>
    obtain ⟨e, claim⟩ := q
    intro seen seen' hstable haccepts hseen
    have hrest := fun seen seen' => ih seen seen'
      (fun p hp q hq => hstable p (by simp [hp]) q (by simp [hq]))
      (fun p hp => haccepts p (by simp [hp]))
    unfold firstAccepted
    by_cases hid : claim.objectiveId ∈ ids
    · have haccept := haccepts (e, claim) (by simp) hid
      have hsame := hseen (e, claim) (by simp) hid
      rw [List.filter_cons_of_pos (by simpa using hid), List.map_cons, firstsOf]
      by_cases hskip : claim.id ∉ accepted ∨ claim.id ∈ seen
      · have hskip' : accepts claim.id = false ∨ claim.id ∈ seen' := by
          rw [← Bool.not_eq_true, ← haccept, ← hsame]
          exact hskip
        rw [if_pos hskip, if_pos hskip']
        exact hrest seen seen' fun p hp => hseen p (by simp [hp])
      · have hskip' : ¬(accepts claim.id = false ∨ claim.id ∈ seen') := by
          rw [← Bool.not_eq_true, ← haccept, ← hsame]
          exact hskip
        rw [if_neg hskip, if_neg hskip', List.filter_cons_of_pos (by simpa using hid),
          List.map_cons]
        congr 1
        apply hrest
        intro p hp hpid
        rw [List.mem_cons, List.mem_cons, hseen p (by simp [hp]) hpid]
    · rw [List.filter_cons_of_neg (by simpa using hid)]
      by_cases hskip : claim.id ∉ accepted ∨ claim.id ∈ seen
      · rw [if_pos hskip]
        exact hrest seen seen' fun p hp => hseen p (by simp [hp])
      · rw [if_neg hskip, List.filter_cons_of_neg (by simpa using hid)]
        apply hrest
        intro p hp hpid
        have hne : p.2.id ≠ claim.id := by
          intro heq
          rw [hstable p (by simp [hp]) (e, claim) (by simp) heq] at hpid
          exact hid hpid
        rw [List.mem_cons, hseen p (by simp [hp]) hpid]
        simp [hne]

variable [Clock]

theorem acceptedInEpoch_job {log : List Entry} (accepts : String → Bool)
    (hstable : StableClaims log) (haccepts : ∀ p ∈ claims log, p.2.objectiveId ∈ ids →
      (p.2.id ∈ acceptedClaimIds log ↔ accepts p.2.id = true)) (epoch : UInt64) :
    (acceptedInEpoch log epoch).filter (fun c => c.objectiveId ∈ ids) =
      ((firstsOf accepts [] (jobClaims ids log)).filter fun p =>
        epochOfTs p.1 = some epoch).map Prod.snd := by
  have hfirsts := firstAccepted_job (claims log) [] [] hstable haccepts (by simp)
  unfold jobClaims
  rw [← hfirsts]
  unfold acceptedInEpoch acceptedClaimsByEpoch
  induction firstAccepted (acceptedClaimIds log) [] (claims log) with
  | nil => rfl
  | cons p rest ih =>
    rw [List.filterMap_cons]
    by_cases hid : p.2.objectiveId ∈ ids
    · rw [List.filter_cons_of_pos (p := fun p : Entry × Claim => decide (p.2.objectiveId ∈ ids))
        (by simpa using hid), List.map_cons]
      cases hepoch : epochOfTs p.1.ts with
      | none =>
        rw [List.filter_cons_of_neg (by simp [hepoch])]
        exact ih
      | some at_ =>
        by_cases heq : at_ = epoch
        · rw [List.filter_cons_of_pos (by simp [hepoch, heq]), List.map_cons, ← ih]
          simp [heq, hid]
        · rw [List.filter_cons_of_neg (by simp [hepoch, heq]), ← ih]
          simp [heq]
    · rw [List.filter_cons_of_neg (p := fun p : Entry × Claim => decide (p.2.objectiveId ∈ ids))
        (by simpa using hid), ← ih]
      cases epochOfTs p.1.ts with
      | none => rfl
      | some at_ =>
        by_cases heq : at_ = epoch
        · simp [heq, hid]
        · simp [heq]

omit [Clock] in
theorem settlesBefore_total (epoch : UInt64) (anchor : String) (a b : Claim) :
    settlesBefore epoch anchor a b ∨ settlesBefore epoch anchor b a := by
  unfold settlesBefore
  obtain hlt | heq | hgt := lt_trichotomy (settlementRank epoch anchor a.commitmentHash)
    (settlementRank epoch anchor b.commitmentHash)
  · exact .inl (.inl hlt)
  · obtain hle | hle := le_total a.id b.id
    · exact .inl (.inr ⟨heq, hle⟩)
    · exact .inr (.inr ⟨heq.symm, hle⟩)
  · exact .inr (.inl hgt)

omit [Clock] in
theorem settlesBefore_trans (epoch : UInt64) (anchor : String) (a b c : Claim)
    (h : settlesBefore epoch anchor a b) (h' : settlesBefore epoch anchor b c) :
    settlesBefore epoch anchor a c := by
  unfold settlesBefore at *
  -- only their order matters, not how the ranks are computed
  generalize settlementRank epoch anchor a.commitmentHash = x at h ⊢
  generalize settlementRank epoch anchor b.commitmentHash = y at h h'
  generalize settlementRank epoch anchor c.commitmentHash = z at h' ⊢
  obtain hlt | ⟨heq, hle⟩ := h
  · obtain hlt' | ⟨heq', -⟩ := h'
    · exact .inl (lt_trans hlt hlt')
    · exact .inl (heq' ▸ hlt)
  · obtain hlt' | ⟨heq', hle'⟩ := h'
    · exact .inl (heq ▸ hlt')
    · exact .inr ⟨heq.trans heq', le_trans hle hle'⟩

/-- Under one anchor the claims of a job settle in the order of the job. -/
theorem batchOf_agree {log log' : List Entry} (h : JobAgree ids log log')
    (hstable : StableClaims log) (hstable' : StableClaims log') {epoch : UInt64}
    (hanchor : anchorOfEpoch log epoch = anchorOfEpoch log' epoch) :
    (batchOf log epoch).filter (fun c => c.objectiveId ∈ ids) =
      (batchOf log' epoch).filter fun c => c.objectiveId ∈ ids := by
  have haccepts : ∀ p ∈ claims log, p.2.objectiveId ∈ ids → (p.2.id ∈ acceptedClaimIds log ↔
      (recordedVerdict log p.2.id).any Verdict.accepted = true) :=
    fun p _ _ => mem_acceptedClaimIds
  have haccepts' : ∀ p ∈ claims log', p.2.objectiveId ∈ ids → (p.2.id ∈ acceptedClaimIds log' ↔
      (recordedVerdict log p.2.id).any Verdict.accepted = true) := by
    rintro ⟨e, claim⟩ hp hid
    have hmem : (e.ts, claim) ∈ jobClaims ids log' := mem_jobClaims.mpr ⟨e, hp, rfl, hid⟩
    rw [← h.claims] at hmem
    rw [mem_acceptedClaimIds, h.recordedVerdict hmem]
  unfold batchOf
  rw [filter_insertionSort _ _ (settlesBefore_total _ _) (settlesBefore_trans _ _),
    filter_insertionSort _ _ (settlesBefore_total _ _) (settlesBefore_trans _ _),
    acceptedInEpoch_job (fun id => (recordedVerdict log id).any Verdict.accepted)
      hstable haccepts,
    acceptedInEpoch_job (fun id => (recordedVerdict log id).any Verdict.accepted)
      hstable' haccepts', h.claims, hanchor]

end Order

end Log

namespace Node

variable [World]

open Log

/-! ## Steady nodes -/

variable {n : Node}

theorem Steady.append_batch (h : Steady n) (epoch : UInt64) (anchor : String) (order : List String)
    (ts : String) : Steady (n.append .batch (batchValue epoch anchor order) ts) := by
  have hnamed : Named (n.append .batch (batchValue epoch anchor order) ts).log :=
    h.named.concat_payout (.inr rfl) (by simp)
  refine ⟨hnamed, h.units.append h.named hnamed.stableIds (by simp), ?_⟩
  rw [log_append]
  apply h.pools.append_other
  intro e he
  rw [List.mem_singleton] at he
  subst he
  simp

/-- A drain is steady at every epoch it comes to. -/
theorem Steady.settleEpochs (h : Steady n) (epochs : List UInt64) (ts : String) :
    Steady (Node.settleEpochs ts n epochs).1 := by
  apply settleEpochs_induction (P := Steady) _ _ epochs h
  · intro start m claim epoch consumed hbatch hext hm
    obtain ⟨e, hclaim⟩ := exists_claim_of_mem_batchOf hbatch hext
    exact hm.settleOne hclaim epoch consumed ts
  · intro m epoch anchor order hm
    exact hm.append_batch epoch anchor order ts

theorem log_settleEpochs_extends (n : Node) (epochs : List UInt64) (ts : String) :
    ExtendsBy IsPayout n.log (Node.settleEpochs ts n epochs).1.log := by
  apply settleEpochs_induction (P := fun m => ExtendsBy IsPayout n.log m.log) _ _ epochs
    (ExtendsBy.refl n.log)
  · intro start m claim epoch consumed _ _ hm
    exact hm.trans ((m.settleOne_log claim epoch consumed ts).mono fun e he => .inl he)
  · intro m epoch anchor order hm
    exact hm.concat (.inr rfl)

/-- A node that settles the due epochs one by one, after a run from an empty
log and the epochs before. -/
theorem steady_run {l : Ledger} (hempty : l.entries = []) (ops : List Op) (done : List UInt64)
    (ts : String)
    (hcol : NoCollision (SettlementTexts (Node.settleEpochs ts ((new l).run ops) done).1.log)) :
    Steady (Node.settleEpochs ts ((new l).run ops) done).1 := by
  have hgrown := (log_settleEpochs_extends ((new l).run ops) done ts).isPrefix
  have hrun : NoCollision (RecordTexts ((new l).run ops).log) := by
    apply hcol.mono
    intro text htext
    exact .inl (htext.of_prefix hgrown)
  have hreaches := (new l).run_reaches ops
  have hnew : (new l).log = [] := hempty
  obtain ⟨hnamed, hunits⟩ := hreaches.units hnew rfl rfl hrun
  exact Steady.settleEpochs ⟨hnamed, hunits, hreaches.pools hnew hnamed.stableIds⟩ done ts

/-! ## One epoch, two logs -/

/-- A batch record is no record of a job. -/
theorem jobAgree_batch {ids : List String} {n' : Node} (h : JobAgree ids n.log n'.log)
    (epoch : UInt64) (anchor anchor' : String) (order order' : List String) (ts ts' : String) :
    JobAgree ids (n.append .batch (batchValue epoch anchor order) ts).log
      (n'.append .batch (batchValue epoch anchor' order') ts').log := by
  have hframe : ∀ (m : Node) anchor order ts,
      claims (m.append .batch (batchValue epoch anchor order) ts).log = claims m.log ∧
      Log.objectives (m.append .batch (batchValue epoch anchor order) ts).log =
        Log.objectives m.log ∧
      ofKind (m.append .batch (batchValue epoch anchor order) ts).log .verdict =
        ofKind m.log .verdict ∧
      jobPayments ids (m.append .batch (batchValue epoch anchor order) ts).log =
        jobPayments ids m.log := by
    intro m anchor order ts
    have hext : ExtendsBy IsPayout m.log
        (m.append .batch (batchValue epoch anchor order) ts).log :=
      (ExtendsBy.refl _).concat (.inr rfl)
    refine ⟨claims_of_payouts hext, ?_, ofKind_payouts hext (by decide), ?_⟩
    · unfold Log.objectives decoded
      rw [ofKind_payouts hext (by decide)]
    · rw [log_append, jobPayments_append]
      simp [jobPayments, paymentsOf, records]
  obtain ⟨hclaims, hobjectives, hverdicts, hpayments⟩ := hframe n anchor order ts
  obtain ⟨hclaims', hobjectives', hverdicts', hpayments'⟩ := hframe n' anchor' order' ts'
  constructor
  · intro id hin
    unfold jobIds pieceworkScope
    rw [hobjectives, hobjectives']
    exact h.job id hin
  · intro id hin
    rw [hobjectives, hobjectives']
    exact h.objectives id hin
  · unfold jobClaims
    rw [hclaims, hclaims']
    exact h.claims
  · have hverdict := h.verdicts
    have hclaim := h.claims
    unfold jobVerdicts jobClaims at *
    rw [hverdicts, hverdicts', hclaims, hclaims']
    exact hverdict
  · rw [hpayments, hpayments']
    exact h.payments

/-- An epoch leaves what its batch leaves, and the batch record. -/
theorem settleEpoch_eq (h : Steady n) (epoch : UInt64) (ts : String) :
    (n.settleEpoch epoch ts).1 = (settleBatch epoch ts n [] (batchOf n.log epoch)).1.append .batch
      (batchValue epoch (anchorOfEpoch n.log epoch) ((batchOf n.log epoch).map Claim.id)) ts := by
  obtain ⟨outcomes, hok⟩ := settleBatch_ok epoch ts (batchOf n.log epoch) n [] h.pools
  unfold settleEpoch
  dsimp only
  generalize settleBatch epoch ts n [] (batchOf n.log epoch) = res at *
  obtain ⟨m, result⟩ := res
  subst hok
  rfl

/-- A log agrees with itself on every job it has. -/
theorem jobAgree_refl (log : List Entry) (objectiveId : String) :
    JobAgree (jobIds log objectiveId) log log where
  job := fun _ hid => ⟨jobIds_of_mem hid, jobIds_of_mem hid⟩
  objectives := fun _ _ => rfl
  claims := rfl
  verdicts := rfl
  payments := rfl

/-- The batch of an epoch leaves the records of a job as the claims of the job
alone leave them, on any log that agrees on the job. -/
theorem settleBatch_job {n' : Node} {ids : List String} (hn : Steady n) (hn' : Steady n')
    (hcol : NoCollision (SettlementTexts n.log)) (hagree : JobAgree ids n.log n'.log)
    {epoch : UInt64} (hunshared : Unshared n.log (batchOf n.log epoch)) (ts ts' : String) :
    JobAgree ids (settleBatch epoch ts n [] (batchOf n.log epoch)).1.log
      (settleBatch epoch ts' n' []
        ((batchOf n.log epoch).filter fun c => c.objectiveId ∈ ids)).1.log := by
  have hmem : ∀ c ∈ batchOf n.log epoch, ∃ e, (e, c) ∈ Log.claims n.log :=
    fun c hc => exists_claim_of_mem_batchOf hc (.refl _)
  apply settleBatch_agree ts ts' _ n n' [] [] hn hn' hagree hcol hmem _ hunshared
  · intro c _ _
    exact ⟨fun _ => Iff.rfl, fun _ _ _ _ => Iff.rfl⟩
  · intro c hc hid
    obtain ⟨e, he⟩ := hmem c hc
    have hclaim : (e.ts, c) ∈ jobClaims ids n.log := mem_jobClaims.mpr ⟨e, he, rfl, hid⟩
    rw [hagree.claims] at hclaim
    obtain ⟨e', he', -⟩ := mem_jobClaims.mp hclaim
    exact ⟨e', he'⟩

end Node

/-! ## The sample's epoch -/

theorem sample_settlementTexts : letI := sampleWorld
    NoCollision (Log.SettlementTexts ((Node.new (sampleLog [])).run sampleOps).log) := by
  let _ := sampleWorld
  apply @noCollision_of_nodup _ ([sampleObjective.toValue.canonicalString,
    sampleObjective.verifier.canonicalString,
    (Value.object [("unit_price", u64Value 5)]).canonicalString,
    sampleClaim.toValue.canonicalString] ++ [Log.artifactText sampleClaim])
  · have hobjective : sampleObjective.toValue.digest = sampleObjectiveId :=
      Value.digest_ofLengths sampleRunDigests (n := 185) (by decide +kernel) (by decide)
    show [sampleObjective.toValue.digest, sampleObjective.verifier.digest, (Value.object _).digest,
      sampleClaim.toValue.digest, (Value.object _).digest].Nodup
    rw [hobjective, sampleClaim_digest_run]
    rw [show sampleClaim.objectiveId = sampleObjectiveId from rfl, sampleClaim_artifact]
    decide +kernel
  · rintro text (htext | ⟨p, hp, rfl⟩)
    · exact List.mem_append_left _ (sample_recordText htext)
    · rw [sample_claims p hp]
      exact List.mem_append_right _ (List.mem_singleton_self _)

/-- The records of the runs below and their entries, by the length of the text
that is hashed. -/
def sampleSharedDigests : List (Nat × Nat) :=
  [(1, 0x4e07408562bedb8b60ce05c1decfe3ad16b72230967de01f640b7e4729b49fce),
    (8, 0x6c48d01682830244fbd86973d8efd3ed5038db54609923ded23953d25d3d5194),
    (22, 0xaac5ea79e63726323fc70838f1dddd0527d9932aae24f4861989c734c5bcc86c),
    (31, 0xe8167bab91cf013e4e1245b30a18f560541f480158b9e4ba6423d84f1ff4dfe0),
    (32, 0x014e0fb5141c1e6a92516c263d46551e435a12c902036957e40dd0c114f72cf5),
    (79, 0xa280c3043bfd446af80f85a833ddcf418bf00bf08696a9199f8b7a9b7df92181),
    (80, 0x7c05527bb79f5eb1cd7ec611729a60007fd896f250e212148492ab25761b6e56),
    (114, 0xd64020571610bcd18951637e4c9a5e4dd5e3fdc7f2f19bad2624adf308dd8e5b),
    (131, 0x83d83c75d7080bb57c3688c25f8e32714160e835775d63350b9cf76c2c9fb400),
    (200, 0x3c0a57370ad51e058e02871135f687adef6bd1e7bb3a3e9e46b877343ed1bcac),
    (208, 0x1af2b4cc38ba791907add3c1258ab4a43b26c28429d8fddfbcba3c8a49296229),
    (212, 0xe05529db5b6e77cd104f6c72204e4a9585f7ac79b1dc7580b8751917b1b1cf2e),
    (226, 0xa8c342cb8bd5f584a2d52c6a6d014d2655d7ac6acc0e14b27ea4da30a6e50732),
    (247, 0x5c7c38fa72bf25756fbc0766ec3af77db3556bc0ff5b81d50e9667478ff891c9),
    (248, 0x7d12d4b1e548b628f6d0c86eb210dd27efb9a0bd16388aef4fa077dd0df64ae5),
    (258, 0x3c6cfa4800de06ee511910c489e66bc152421772e1c940d540da017d168864ce),
    (262, 0xf6a53b6bbcd943c4221c5f68e3c6c557b9f393fd5d28d2f1d0c10940f6248569),
    (279, 0x25f44a93171364cf70922f5dd7fea95e9ce0974f28ccbf9294b2601f4a92e1d0),
    (332, 0xee47c1b832b992c109a603e2f0a44bf3f69fb4f4fd0fe77cd2a0d3c1d453b218),
    (352, 0x4fff9e904e777f710dc6c36d2881f416a7c4b8ab3e62122ee9da3fc2f2720f5d),
    (355, 0x270fc265a6936d1ef1384045995ef170286684cfca1234736282e5d4cf2940ef),
    (357, 0x2b28d263e545aa8545525ac286b821793ca9eeb10414787a8c372e55f13c8c25),
    (359, 0x1db32a20ec959e7641f68c46f9fbaa5d23ef9bc5ccf1b07954dd1f231a06ba7b),
    (360, 0x4225438d34cb7c310b8d56257585711011e1a64de8898e6e3841892888c2d6bf),
    (370, 0x5cafd8a9b0ee2c0da2bf2bcf2c70708320fabe11722e5374cd5ea1ff3894d413),
    (377, 0x48308a722c891739163b4b25d1f5baf10bafb132f6a941095498bbb798c8c613),
    (388, 0xdddfcae10a24fb33299736097decf81f4d77bf83c5c5f0aa169431a3ace3b307),
    (396, 0xc09194c41f86bb46d8c740d49da7679fb216929241b7620aa1bdca26e7b2e6a7),
    (397, 0x2d14397319824f69bbc0d79a3dfc194925bd7aa5a3fec3c7aa04cf021f9e7927)]

/-- The two texts of one length: they rank the commitments in the epoch. -/
def sampleRankDigests : List (String × Nat) :=
  [("6c48d01682830244fbd86973d8efd3ed5038db54609923ded23953d25d3d5194" ++
      "sha256:a280c3043bfd446af80f85a833ddcf418bf00bf08696a9199f8b7a9b7df92181",
      0x6b9020fa7e4172fe463260690cba988e4973d2045d9f65f4940896daa7a2107a),
    ("6c48d01682830244fbd86973d8efd3ed5038db54609923ded23953d25d3d5194" ++
      "sha256:7c05527bb79f5eb1cd7ec611729a60007fd896f250e212148492ab25761b6e56",
      0x57136680b943c9e1c7181517ca5e7f0dee394a55d1d4e6676b45e44bec3c0ce1)]

@[reducible] def sampleSharedHash : Sha256 where
  hash data :=
    if data.size = 135 then (Sha256.ofTable sampleRankDigests).hash data
    else (Sha256.ofLengths sampleSharedDigests).hash data

@[reducible] def sampleSharedWorld : World :=
  { sampleWorld with toSha256 := sampleSharedHash }

/-- A job that pays for every new factor. -/
def sampleFactorJob : Objective :=
  { sampleObjective with
    piecework := some (.object [("key", .string "factor"), ("unit_price", u64Value 5)]) }

/-- Another job, that pays five times as much for the same. -/
def sampleDearJob : Objective :=
  { sampleFactorJob with
    statement := "split n once more"
    reward := 100
    piecework := some (.object [("key", .string "factor"), ("unit_price", u64Value 25)]) }

def sampleFactorJobId : String :=
  "sha256:3c0a57370ad51e058e02871135f687adef6bd1e7bb3a3e9e46b877343ed1bcac"

def sampleDearJobId : String :=
  "sha256:e05529db5b6e77cd104f6c72204e4a9585f7ac79b1dc7580b8751917b1b1cf2e"

/-- Alice's claim on the first job. -/
def sampleFactorClaim : Claim :=
  { sampleClaim with objectiveId := sampleFactorJobId }

/-- Robert's claim on the second, for the factor that Alice has. -/
def sampleDearClaim : Claim :=
  { sampleClaim with
    objectiveId := sampleDearJobId
    submitter := "robert"
    artifact := .object [("factor", u64Value 3), ("method", .string "trial")] }

def sampleTalkative : Registry where
  run _ _ := { status := .accept, detail := "3 divides n", evidence := .object [] }
  transform _ _ _ value _ := .ok value

/-- Both jobs are posted and committed to, and Alice reveals her claim. -/
def sampleFactorOps : letI := sampleSharedWorld; List Op :=
  letI := sampleSharedWorld
  [.postObjective sampleFactorJob "2026-01-01T00:00:00Z",
    .postObjective sampleDearJob "2026-01-01T00:00:00Z",
    .commit ⟨sampleFactorJobId, "alice",
      "sha256:a280c3043bfd446af80f85a833ddcf418bf00bf08696a9199f8b7a9b7df92181",
      "2026-01-01T00:00:00Z", none, none⟩ "2026-01-01T00:00:00Z",
    .commit ⟨sampleDearJobId, "robert",
      "sha256:7c05527bb79f5eb1cd7ec611729a60007fd896f250e212148492ab25761b6e56",
      "2026-01-01T00:00:00Z", none, none⟩ "2026-01-01T00:00:00Z",
    .reveal sampleRegistry sampleFactorClaim "2026-01-01T00:10:00Z"]

/-! The digests of the two jobs and their claims. -/

theorem sampleSharedHash_hash {data : ByteArray} (h : data.size ≠ 135) :
    sampleSharedHash.hash data = (Sha256.ofLengths sampleSharedDigests).hash data := if_neg h

theorem sampleSharedHash_rank {data : ByteArray} (h : data.size = 135) :
    sampleSharedHash.hash data = (Sha256.ofTable sampleRankDigests).hash data := if_pos h

theorem sampleShared_digest {v : Value} {n : Nat} {text : String} (hsize : v.tree.size = n)
    (hn : n ≠ 135)
    (htext : DIGEST_PREFIX ++ String.ofList (hexEncode (digestOfNat
      (((sampleSharedDigests.find? fun row => row.1 = n).map Prod.snd).getD 0)).toList) = text) :
    @Value.digest sampleSharedHash v = text := by
  have hdata : v.canonicalBytes.size ≠ 135 := by rwa [Value.size_canonicalBytes, hsize]
  rw [← Value.digest_ofLengths sampleSharedDigests hsize htext]
  show DIGEST_PREFIX ++
    String.ofList (hexEncode (sampleSharedHash.hash v.canonicalBytes).toList) = _
  rw [sampleSharedHash_hash hdata]
  rfl

section Sample

attribute [local instance] sampleSharedWorld

theorem sampleShared_digests :
    (sampleFactorJob.id = sampleFactorJobId ∧ sampleDearJob.id = sampleDearJobId) ∧
    (sampleFactorClaim.id =
        "sha256:1af2b4cc38ba791907add3c1258ab4a43b26c28429d8fddfbcba3c8a49296229" ∧
      sampleDearClaim.id =
        "sha256:a8c342cb8bd5f584a2d52c6a6d014d2655d7ac6acc0e14b27ea4da30a6e50732") ∧
    (u64Value 3).digest =
      "sha256:4e07408562bedb8b60ce05c1decfe3ad16b72230967de01f640b7e4729b49fce" := by
  refine ⟨⟨?_, ?_⟩, ⟨?_, ?_⟩, ?_⟩
  · exact sampleShared_digest (n := 200) (by decide +kernel) (by decide) (by decide)
  · exact sampleShared_digest (n := 212) (by decide +kernel) (by decide) (by decide)
  · exact sampleShared_digest (n := 208) (by decide +kernel) (by decide) (by decide)
  · exact sampleShared_digest (n := 226) (by decide +kernel) (by decide) (by decide)
  · exact sampleShared_digest (n := 1) (by decide +kernel) (by decide) (by decide)

theorem sampleFactorJob_id : sampleFactorJob.id = sampleFactorJobId := sampleShared_digests.1.1

theorem sampleDearJob_id : sampleDearJob.id = sampleDearJobId := sampleShared_digests.1.2

theorem sampleShared_hashes :
    sampleFactorClaim.commitmentHash =
        "sha256:a280c3043bfd446af80f85a833ddcf418bf00bf08696a9199f8b7a9b7df92181" ∧
      sampleDearClaim.commitmentHash =
        "sha256:7c05527bb79f5eb1cd7ec611729a60007fd896f250e212148492ab25761b6e56" := by
  have hfactor : (Value.object [("objective_id", .string sampleFactorClaim.objectiveId),
      ("artifact", sampleFactorClaim.artifact)]).digest =
        "sha256:d64020571610bcd18951637e4c9a5e4dd5e3fdc7f2f19bad2624adf308dd8e5b" :=
    sampleShared_digest (n := 114) (by decide +kernel) (by decide) (by decide)
  have hdear : (Value.object [("objective_id", .string sampleDearClaim.objectiveId),
      ("artifact", sampleDearClaim.artifact)]).digest =
        "sha256:83d83c75d7080bb57c3688c25f8e32714160e835775d63350b9cf76c2c9fb400" :=
    sampleShared_digest (n := 131) (by decide +kernel) (by decide) (by decide)
  unfold Claim.commitmentHash commitmentHash commitmentPreimage
  rw [hfactor, hdear]
  exact ⟨by decide +kernel, by decide +kernel⟩

/-! ## The ledgers -/

def sampleFactorCommit : Commitment :=
  ⟨sampleFactorJobId, "alice",
    "sha256:a280c3043bfd446af80f85a833ddcf418bf00bf08696a9199f8b7a9b7df92181",
    "2026-01-01T00:00:00Z", none, none⟩

def sampleDearCommit : Commitment :=
  ⟨sampleDearJobId, "robert",
    "sha256:7c05527bb79f5eb1cd7ec611729a60007fd896f250e212148492ab25761b6e56",
    "2026-01-01T00:00:00Z", none, none⟩

/-- The times of the run. -/
theorem sampleShared_times :
    epochOfTs "2026-01-01T00:10:00Z" = some 2945377 ∧
    (∀ commitment, commitment = sampleFactorCommit ∨ commitment = sampleDearCommit →
      Log.commitEpoch commitment "2026-01-01T00:00:00Z" = .ok 2945376) ∧
    (∀ claim, claim = sampleFactorClaim ∨ claim = sampleDearClaim →
      Log.revealEpoch [] claim "2026-01-01T00:10:00Z" = .ok 2945377) ∧
    ∀ commitment, commitment = sampleFactorCommit ∨ commitment = sampleDearCommit →
      ∀ e : Entry, e.payload = commitment.toValue → e.ts = "2026-01-01T00:00:00Z" →
        Log.checkOpens e 2945377 = .ok () := by
  refine ⟨by decide +kernel, ?_, ?_, ?_⟩
  · rintro commitment (rfl | rfl)
    · exact toOk_eq_some (by decide +kernel)
    · exact toOk_eq_some (by decide +kernel)
  · rintro claim (rfl | rfl)
    · exact toOk_eq_some (by decide +kernel)
    · exact toOk_eq_some (by decide +kernel)
  · intro commitment hcommitment e hpayload hts
    unfold Log.checkOpens
    rw [hpayload, hts]
    rcases hcommitment with rfl | rfl
    · exact toOk_eq_some (by decide +kernel)
    · exact toOk_eq_some (by decide +kernel)

def sampleSharedOne : Ledger :=
  ((Node.new (sampleLog [])).append .objective sampleFactorJob.toValue
    "2026-01-01T00:00:00Z").ledger

def sampleSharedTwo : Ledger :=
  ((Node.new sampleSharedOne).append .objective sampleDearJob.toValue "2026-01-01T00:00:00Z").ledger

def sampleSharedThree : Ledger :=
  ((Node.new sampleSharedTwo).append .commitment sampleFactorCommit.toValue
    "2026-01-01T00:00:00Z").ledger

def sampleSharedFour : Ledger :=
  ((Node.new sampleSharedThree).append .commitment sampleDearCommit.toValue
    "2026-01-01T00:00:00Z").ledger

def sampleFactorVerdict : Value :=
  verdictValue sampleFactorClaim (sampleRegistry.run sampleFactorJob.verifier
    sampleFactorClaim.artifact)

def sampleDearVerdict : Value :=
  verdictValue sampleDearClaim (sampleTalkative.run sampleDearJob.verifier
    sampleDearClaim.artifact)

def sampleSharedSix : Ledger :=
  (((Node.new sampleSharedFour).append .claim sampleFactorClaim.toValue
    "2026-01-01T00:10:00Z").append .verdict sampleFactorVerdict "2026-01-01T00:10:00Z").ledger

def sampleSharedEight : Ledger :=
  (((Node.new sampleSharedSix).append .claim sampleDearClaim.toValue
    "2026-01-01T00:10:00Z").append .verdict sampleDearVerdict "2026-01-01T00:10:00Z").ledger

theorem sampleFactorJob_decodes :
    Objective.fromValue sampleFactorJob.toValue = .ok sampleFactorJob := by
  have hvalid : sampleFactorJob.validate = .ok () := by decide
  rw [Objective.fromValue_toValue,
    Objective.stripNulls_of_noNulls (Objective.noNulls_of_validate hvalid), hvalid]
  rfl

theorem sampleDearJob_decodes :
    Objective.fromValue sampleDearJob.toValue = .ok sampleDearJob := by
  have hvalid : sampleDearJob.validate = .ok () := by decide
  rw [Objective.fromValue_toValue,
    Objective.stripNulls_of_noNulls (Objective.noNulls_of_validate hvalid), hvalid]
  rfl

theorem sampleShared_objectives {log : List Entry}
    (h : (Log.ofKind log .objective).map Entry.payload =
      [sampleFactorJob.toValue, sampleDearJob.toValue]) :
    Log.objectives log = BTreeMap.ofList
      [(sampleFactorJobId, sampleFactorJob), (sampleDearJobId, sampleDearJob)] := by
  rw [@Log.objectives_of_payloads _ log [sampleFactorJob, sampleDearJob] h]
  · rw [← sampleFactorJob_id, ← sampleDearJob_id]
    rfl
  · intro o ho
    simp only [List.mem_cons, List.not_mem_nil, or_false] at ho
    rcases ho with rfl | rfl
    · exact sampleFactorJob_decodes
    · exact sampleDearJob_decodes

theorem sampleShared_known {log : List Entry}
    (h : (Log.ofKind log .objective).map Entry.payload =
      [sampleFactorJob.toValue, sampleDearJob.toValue]) :
    (Log.objectives log).get? sampleFactorJobId = some sampleFactorJob ∧
      (Log.objectives log).get? sampleDearJobId = some sampleDearJob := by
  rw [sampleShared_objectives h]
  exact ⟨rfl, rfl⟩

/-- A node that has settled nothing, with its ledger. -/
structure SampleAt (n : Node) (l : Ledger) : Prop where
  ledger : n.ledger = l
  index : n.pieceworkIndex = .empty

variable {l : Ledger} {n : Node}

theorem SampleAt.log (h : SampleAt n l) : n.log = l.entries := by
  rw [Node.log, h.ledger]

theorem SampleAt.append (h : SampleAt n l) (kind : EntryKind) (payload : Value) (ts : String) :
    SampleAt (n.append kind payload ts) ((Node.new l).append kind payload ts).ledger := by
  rcases n with ⟨ledger, index, counted, drains⟩
  cases h.ledger
  exact ⟨rfl, h.index⟩

theorem sampleFactorJob_posts (h : SampleAt n (sampleLog [])) :
    SampleAt (n.postObjective sampleFactorJob "2026-01-01T00:00:00Z").1 sampleSharedOne := by
  have hcheck : Log.checkObjective n.log sampleFactorJob = .ok () := by
    rw [h.log]
    exact toOk_eq_some (by decide)
  rw [Node.postObjective_eq _ hcheck]
  exact h.append _ _ _

theorem sampleDearJob_posts (h : SampleAt n sampleSharedOne) :
    SampleAt (n.postObjective sampleDearJob "2026-01-01T00:00:00Z").1 sampleSharedTwo := by
  have hkind : Log.ofKind n.log .objective =
      [(sampleLog []).nextEntry "objective" sampleFactorJob.toValue "2026-01-01T00:00:00Z"] := by
    rw [h.log]
    rfl
  have hposted : Log.isPosted n.log sampleDearJob.id = false := by
    unfold Log.isPosted
    rw [hkind, List.any_cons, List.any_nil, Node.payload_nextEntry, sampleFactorJob_decodes,
      sampleDearJob_id]
    dsimp only
    rw [sampleFactorJob_id, ← Objective.id, sampleFactorJob_id]
    decide
  have hcheck : Log.checkObjective n.log sampleDearJob = .ok () := by
    unfold Log.checkObjective
    rw [hposted, h.log]
    exact toOk_eq_some (by decide)
  rw [Node.postObjective_eq _ hcheck]
  exact h.append _ _ _

theorem sampleShared_commits (h : SampleAt n l) {commitment : Commitment}
    (hcommitment : commitment = sampleFactorCommit ∨ commitment = sampleDearCommit)
    (hobjectives : (Log.ofKind l.entries .objective).map Entry.payload =
      [sampleFactorJob.toValue, sampleDearJob.toValue]) (hclaims : Log.ofKind l.entries .claim = []) :
    SampleAt (n.commit commitment "2026-01-01T00:00:00Z").1
      ((Node.new l).append .commitment commitment.toValue "2026-01-01T00:00:00Z").ledger := by
  have hcheck : Log.checkCommit n.log commitment = .ok () := by
    unfold Log.checkCommit
    rw [h.log]
    rcases hcommitment with rfl | rfl
    · rw [show sampleFactorCommit.objectiveId = sampleFactorJobId from rfl,
        (sampleShared_known hobjectives).1]
      rfl
    · rw [show sampleDearCommit.objectiveId = sampleDearJobId from rfl,
        (sampleShared_known hobjectives).2]
      rfl
  have hepoch := sampleShared_times.2.1 commitment hcommitment
  have hdue : Log.dueEpochs n.log 2945376 = [] := by
    apply Log.dueEpochs_eq_nil
    rw [h.log, hclaims]
    intro e he
    cases he
  rcases Node.commit_eq hepoch hdue hcheck with ⟨drains, hcommit⟩
  rw [hcommit]
  exact ⟨(h.append _ _ _).ledger, h.index⟩

/-- Each claim opens its commitment, whatever follows. -/
theorem sampleShared_opens {claim : Claim}
    (h : claim = sampleFactorClaim ∨ claim = sampleDearClaim) :
    ∃ entry, (∀ rest, Log.matchingCommitmentEntry (sampleSharedFour.entries ++ rest) claim =
      some entry) ∧ Log.checkOpens entry 2945377 = .ok () := by
  have hkinds : Log.ofKind sampleSharedFour.entries .commitment =
      [sampleSharedTwo.nextEntry "commitment" sampleFactorCommit.toValue "2026-01-01T00:00:00Z",
        sampleSharedThree.nextEntry "commitment" sampleDearCommit.toValue
          "2026-01-01T00:00:00Z"] := rfl
  rcases h with rfl | rfl
  · refine ⟨sampleSharedTwo.nextEntry "commitment" sampleFactorCommit.toValue
      "2026-01-01T00:00:00Z", fun rest => ?_,
        sampleShared_times.2.2.2 _ (.inl rfl) _ rfl rfl⟩
    unfold Log.matchingCommitmentEntry
    rw [Log.ofKind_append, hkinds, sampleShared_hashes.1]
    exact List.find?_cons_of_pos (by rw [Node.payload_nextEntry]; decide)
  · refine ⟨sampleSharedThree.nextEntry "commitment" sampleDearCommit.toValue
      "2026-01-01T00:00:00Z", fun rest => ?_,
        sampleShared_times.2.2.2 _ (.inr rfl) _ rfl rfl⟩
    unfold Log.matchingCommitmentEntry
    rw [Log.ofKind_append, hkinds, sampleShared_hashes.2, List.cons_append,
      List.find?_cons_of_neg (by rw [Node.payload_nextEntry]; decide)]
    exact List.find?_cons_of_pos (by rw [Node.payload_nextEntry]; decide)

theorem sampleShared_reveals {n : Node} {l : Ledger} (h : SampleAt n l) {rest : List Entry}
    {claim : Claim} {objective : Objective} (registry : Registry)
    (hlog : l.entries = sampleSharedFour.entries ++ rest)
    (hclaim : claim = sampleFactorClaim ∧ objective = sampleFactorJob ∨
      claim = sampleDearClaim ∧ objective = sampleDearJob)
    (hobjectives : Log.ofKind rest .objective = [])
    (hclaims : ∀ e ∈ Log.ofKind rest .claim, e.ts = "2026-01-01T00:10:00Z")
    (hbatches : Log.ofKind rest .batch = []) :
    SampleAt (n.reveal registry claim "2026-01-01T00:10:00Z").1
      (((Node.new l).append .claim claim.toValue "2026-01-01T00:10:00Z").append .verdict
        (verdictValue claim (registry.run objective.verifier claim.artifact))
          "2026-01-01T00:10:00Z").ledger := by
  have hsame : claim.createdAt = "2026-01-01T00:10:00Z" ∧ claim.cites = [] ∧
      claim.relations = [] ∧ objective.requireSignedSubmitter = false ∧
        objective.ratchet.isNone = true := by
    rcases hclaim with ⟨rfl, rfl⟩ | ⟨rfl, rfl⟩
    · exact ⟨rfl, rfl, rfl, rfl, rfl⟩
    · exact ⟨rfl, rfl, rfl, rfl, rfl⟩
  have hgrown : n.log = sampleSharedFour.entries ++ rest := h.log.trans hlog
  have hposted : (Log.ofKind n.log .objective).map Entry.payload =
      [sampleFactorJob.toValue, sampleDearJob.toValue] := by
    rw [hgrown, Log.ofKind_append, hobjectives]
    rfl
  have hknown : (Log.objectives n.log).get? claim.objectiveId = some objective := by
    rcases hclaim with ⟨rfl, rfl⟩ | ⟨rfl, rfl⟩
    · exact (sampleShared_known hposted).1
    · exact (sampleShared_known hposted).2
  rcases sampleShared_opens (hclaim.imp And.left And.left) with ⟨entry, hentry, hopens⟩
  have hepoch := sampleShared_times.1
  have hadmitted : Log.revealEpoch n.log claim "2026-01-01T00:10:00Z" = .ok 2945377 := by
    rw [← hsame.1, Node.revealEpoch_own n.log [], hsame.1]
    exact sampleShared_times.2.2.1 claim (hclaim.imp And.left And.left)
  have hdue : Log.dueEpochs n.log 2945377 = [] := by
    apply Log.dueEpochs_eq_nil
    intro e he
    rw [hgrown, Log.ofKind_append] at he
    rw [hclaims e he, hepoch]
  have hfresh : (2945377 : UInt64) ∉ Log.drainedEpochs n.log := by
    rw [hgrown, Log.drainedEpochs, Log.ofKind_append, hbatches]
    exact List.not_mem_nil
  have hcheck := Log.checkReveal_eq hknown (by rw [hsame.2.2.2.1]; intro h; cases h) hopens hfresh
    hsame.2.2.2.2 hsame.2.1
  rw [hsame.2.2.1] at hcheck
  rcases (Node.reveal_eq registry (hsame.1 ▸ hadmitted) (hgrown ▸ hentry rest) hdue).2
    objective hcheck with ⟨drains, hreveal⟩
  rw [hsame.1] at hreveal
  rw [hreveal]
  have hafter := (h.append .claim claim.toValue "2026-01-01T00:10:00Z").append .verdict
    (verdictValue claim (registry.run objective.verifier claim.artifact)) "2026-01-01T00:10:00Z"
  exact ⟨hafter.ledger, hafter.index⟩

theorem sampleFactorOps_eq : sampleFactorOps =
    [.postObjective sampleFactorJob "2026-01-01T00:00:00Z",
      .postObjective sampleDearJob "2026-01-01T00:00:00Z",
      .commit sampleFactorCommit "2026-01-01T00:00:00Z",
      .commit sampleDearCommit "2026-01-01T00:00:00Z",
      .reveal sampleRegistry sampleFactorClaim "2026-01-01T00:10:00Z"] := rfl

theorem sampleFactorOps_at :
    SampleAt ((Node.new (sampleLog [])).run sampleFactorOps) sampleSharedSix := by
  rw [sampleFactorOps_eq, Node.run_cons, Node.run_cons, Node.run_cons, Node.run_cons,
    Node.run_cons, Node.run_nil, Node.step, Node.step, Node.step, Node.step, Node.step]
  have htwo := sampleDearJob_posts (sampleFactorJob_posts (n := Node.new (sampleLog [])) ⟨rfl, rfl⟩)
  have hfour := sampleShared_commits (sampleShared_commits htwo (.inl rfl) rfl rfl) (.inr rfl)
    rfl rfl
  exact @sampleShared_reveals _ _ hfour [] _ _ sampleRegistry rfl (.inl ⟨rfl, rfl⟩) rfl
    (fun e he => by cases he) rfl

theorem sampleDearClaim_reveals (h : SampleAt n sampleSharedSix) :
    SampleAt (n.step (.reveal sampleTalkative sampleDearClaim "2026-01-01T00:10:00Z"))
      sampleSharedEight := by
  rw [Node.step]
  exact @sampleShared_reveals _ _ h [
    sampleSharedFour.nextEntry "claim" sampleFactorClaim.toValue "2026-01-01T00:10:00Z",
    ((Node.new sampleSharedFour).append .claim sampleFactorClaim.toValue
      "2026-01-01T00:10:00Z").ledger.nextEntry "verdict" sampleFactorVerdict
        "2026-01-01T00:10:00Z"] _ _ sampleTalkative rfl (.inr ⟨rfl, rfl⟩) rfl
    (fun e he => by rw [List.mem_singleton.mp (show e ∈ [_] from he)]; rfl) rfl

/-! ## What the epoch pays -/

theorem sampleFactorClaim_decodes : Claim.fromValue sampleFactorClaim.toValue =
    .ok sampleFactorClaim := Claim.fromValue_toValue_iff.mpr ⟨rfl, toOk_eq_some (by decide)⟩

theorem sampleDearClaim_decodes : Claim.fromValue sampleDearClaim.toValue =
    .ok sampleDearClaim := Claim.fromValue_toValue_iff.mpr ⟨rfl, toOk_eq_some (by decide)⟩

theorem sampleSharedSix_claims : Log.claims sampleSharedSix.entries =
    [(sampleSharedFour.nextEntry "claim" sampleFactorClaim.toValue "2026-01-01T00:10:00Z",
      sampleFactorClaim)] := by
  unfold Log.claims Log.decoded
  show List.filterMap _ [_] = _
  rw [List.filterMap_cons, Node.payload_nextEntry, sampleFactorClaim_decodes]
  rfl

theorem sampleSharedEight_claims : Log.claims sampleSharedEight.entries =
    [(sampleSharedFour.nextEntry "claim" sampleFactorClaim.toValue "2026-01-01T00:10:00Z",
        sampleFactorClaim),
      (sampleSharedSix.nextEntry "claim" sampleDearClaim.toValue "2026-01-01T00:10:00Z",
        sampleDearClaim)] := by
  unfold Log.claims Log.decoded
  show List.filterMap _ [_, _] = _
  rw [List.filterMap_cons, Node.payload_nextEntry, sampleFactorClaim_decodes]
  rw [List.filterMap_cons, Node.payload_nextEntry, sampleDearClaim_decodes]
  rfl

theorem sampleShared_verdicts : ∃ v w : Entry,
    (v.payload = sampleFactorVerdict ∧ Log.isAccept v = true) ∧
      (w.payload = sampleDearVerdict ∧ Log.isAccept w = true) ∧
      Log.ofKind sampleSharedSix.entries .verdict = [v] ∧
      Log.ofKind sampleSharedEight.entries .verdict = [v, w] := by
  refine ⟨_, _, ⟨?_, ?_⟩, ⟨?_, ?_⟩, rfl, rfl⟩
  · rfl
  · exact isAccept_verdictValue rfl rfl rfl
  · rfl
  · exact isAccept_verdictValue rfl rfl rfl

theorem sampleSharedSix_batch :
    Log.acceptedClaimsByEpoch sampleSharedSix.entries = [(2945377, sampleFactorClaim)] := by
  rcases sampleShared_verdicts with ⟨v, w, hv, hw, hsix, height⟩
  have hepoch := sampleShared_times.1
  unfold Log.acceptedClaimsByEpoch
  rw [Log.acceptedClaimIds_one hsix hv.1 hv.2, sampleSharedSix_claims, Log.firstAccepted,
    if_neg (by simp), Log.firstAccepted, List.filterMap_cons, Node.ts_nextEntry, hepoch]
  rfl

theorem sampleSharedEight_batch :
    Log.acceptedClaimsByEpoch sampleSharedEight.entries =
      [(2945377, sampleFactorClaim), (2945377, sampleDearClaim)] := by
  rcases sampleShared_verdicts with ⟨v, w, hv, hw, hsix, height⟩
  have hepoch := sampleShared_times.1
  have hne : sampleDearClaim.id ≠ sampleFactorClaim.id := by
    rw [sampleShared_digests.2.1.1, sampleShared_digests.2.1.2]
    decide
  have haccepted : Log.acceptedClaimIds sampleSharedEight.entries =
      [sampleDearClaim.id, sampleFactorClaim.id] := by
    rw [Log.acceptedClaimIds, height, List.foldl_cons, List.foldl_cons, List.foldl_nil,
      Log.acceptStep_accept hv.1 hv.2, Log.acceptStep_accept hw.1 hw.2, List.insert_nil,
      List.insert_of_not_mem (by simpa using hne)]
  unfold Log.acceptedClaimsByEpoch
  rw [haccepted, sampleSharedEight_claims, Log.firstAccepted, if_neg (by simp), Log.firstAccepted,
    if_neg (by simp [hne]), Log.firstAccepted, List.filterMap_cons, Node.ts_nextEntry,
    List.filterMap_cons, Node.ts_nextEntry, hepoch]
  rfl

theorem sampleShared_anchor (epoch : UInt64) :
    Log.anchorOfEpoch sampleSharedSix.entries epoch = "" ∧
      Log.anchorOfEpoch sampleSharedEight.entries epoch = "" :=
  ⟨Log.anchorOfEpoch_eq_empty rfl rfl _, Log.anchorOfEpoch_eq_empty rfl rfl _⟩

theorem sampleShared_ranks :
    settlementRank 2945377 ""
      "sha256:a280c3043bfd446af80f85a833ddcf418bf00bf08696a9199f8b7a9b7df92181" =
        "6b9020fa7e4172fe463260690cba988e4973d2045d9f65f4940896daa7a2107a" ∧
    settlementRank 2945377 ""
      "sha256:7c05527bb79f5eb1cd7ec611729a60007fd896f250e212148492ab25761b6e56" =
        "57136680b943c9e1c7181517ca5e7f0dee394a55d1d4e6676b45e44bec3c0ce1" := by
  have hbeacon : beacon 2945377 "" =
      "6c48d01682830244fbd86973d8efd3ed5038db54609923ded23953d25d3d5194" := by decide +kernel
  have hrank : ∀ (key : String) (d : Nat), key.utf8ByteSize = 71 →
      (sampleRankDigests.find? fun row => row.1 =
        "6c48d01682830244fbd86973d8efd3ed5038db54609923ded23953d25d3d5194" ++ key).map Prod.snd =
          some d →
      settlementRank 2945377 "" key = String.ofList (hexEncode (digestOfNat d).toList) := by
    intro key d hsize hrow
    have hlength : ("6c48d01682830244fbd86973d8efd3ed5038db54609923ded23953d25d3d5194" ++
        key).toUTF8.size = 135 := by
      show ("6c48d01682830244fbd86973d8efd3ed5038db54609923ded23953d25d3d5194" ++
        key).utf8ByteSize = 135
      rw [String.utf8ByteSize_append, hsize]
      decide +kernel
    unfold settlementRank hexDigest
    rw [hbeacon]
    show String.ofList (hexEncode (sampleSharedHash.hash _).toList) = _
    rw [sampleSharedHash_rank hlength, Sha256.hash_ofTable, hrow]
    rfl
  constructor
  · rw [hrank "sha256:a280c3043bfd446af80f85a833ddcf418bf00bf08696a9199f8b7a9b7df92181"
      0x6b9020fa7e4172fe463260690cba988e4973d2045d9f65f4940896daa7a2107a (by decide +kernel) ?_]
    · decide +kernel
    · unfold sampleRankDigests
      rw [List.find?_cons_of_pos (by simp)]
      rfl
  · rw [hrank "sha256:7c05527bb79f5eb1cd7ec611729a60007fd896f250e212148492ab25761b6e56"
      0x57136680b943c9e1c7181517ca5e7f0dee394a55d1d4e6676b45e44bec3c0ce1 (by decide +kernel) ?_]
    · decide +kernel
    · unfold sampleRankDigests
      rw [List.find?_cons_of_neg (by simp), List.find?_cons_of_pos (by simp)]
      rfl

/-- Robert's claim comes first. -/
theorem sampleShared_order :
    Log.batchOf sampleSharedSix.entries 2945377 = [sampleFactorClaim] ∧
      Log.batchOf sampleSharedEight.entries 2945377 = [sampleDearClaim, sampleFactorClaim] := by
  have hbefore : ¬Log.settlesBefore 2945377 "" sampleFactorClaim sampleDearClaim := by
    unfold Log.settlesBefore
    rw [sampleShared_hashes.1, sampleShared_hashes.2, sampleShared_ranks.1, sampleShared_ranks.2]
    decide +kernel
  unfold Log.batchOf Log.acceptedInEpoch
  rw [(sampleShared_anchor _).1, (sampleShared_anchor _).2, sampleSharedSix_batch,
    sampleSharedEight_batch]
  constructor
  · rfl
  · show [sampleFactorClaim, sampleDearClaim].insertionSort _ = _
    rw [List.insertionSort_cons, List.insertionSort_cons, List.insertionSort_nil,
      List.orderedInsert_nil, List.orderedInsert_cons, if_neg hbefore, List.orderedInsert_nil]

/-- Both claims are for one unit. -/
def sampleUnit : String :=
  "piece:factor:sha256:4e07408562bedb8b60ce05c1decfe3ad16b72230967de01f640b7e4729b49fce"

theorem sampleShared_unitKey {p : Piecework} (hkey : p.key = some (.field "factor"))
    (hitems : p.items = none) {artifact : Value}
    (hfactor : artifact.get "factor" = some (u64Value 3)) :
    p.unitKeys artifact = [sampleUnit] := by
  unfold Piecework.unitKeys Piecework.unitsIn
  rw [hitems]
  dsimp only
  rw [List.filterMap_cons]
  unfold Piecework.noveltyKey
  rw [hkey]
  dsimp only
  rw [hfactor, Option.map_some, sampleShared_digests.2.2]
  rfl

theorem sampleFactor_piecework :
    Piecework.fromValue (.object [("key", .string "factor"), ("unit_price", u64Value 5)]) =
      .ok { unitPrice := 5, units := none, key := some (.field "factor"), items := none } := by
  decide

theorem sampleDear_piecework :
    Piecework.fromValue (.object [("key", .string "factor"), ("unit_price", u64Value 25)]) =
      .ok { unitPrice := 25, units := none, key := some (.field "factor"), items := none } := by
  decide

theorem sampleShared_posted : (Log.ofKind sampleSharedSix.entries .objective).map Entry.payload =
      [sampleFactorJob.toValue, sampleDearJob.toValue] ∧
    (Log.ofKind sampleSharedEight.entries .objective).map Entry.payload =
      [sampleFactorJob.toValue, sampleDearJob.toValue] := ⟨rfl, rfl⟩

/-- Alone, Alice is paid. -/
theorem sampleFactor_settles (h : SampleAt n sampleSharedSix) (ts : String) :
    Log.jobPayments [sampleFactorJobId] (n.settleEpoch 2945377 ts).1.log =
      [("settlement", settlementValue sampleFactorJobId sampleFactorClaim.id "alice" 5)] := by
  have hposted := sampleShared_posted.1
  rw [← h.log] at hposted
  have hknown := (sampleShared_known hposted).1
  have hkeys := @sampleShared_unitKey ⟨5, none, some (.field "factor"), none⟩ rfl rfl
    sampleFactorClaim.artifact rfl
  have hone := @Node.settleOne_piecework _ _ sampleFactorClaim _ _ _ 2945377 [] ts hknown rfl rfl
    sampleFactor_piecework
  have htotal : Log.paidTotal n.log sampleFactorClaim.objectiveId = 0 := by
    rw [h.log]
    rfl
  rcases @Node.settleUnit_fresh _ n _ sampleFactorJob _ 5 (n.settlingVerdict sampleFactorClaim) ts (by rw [hkeys]; simp)
    (Node.paidUnitKeys_eq_nil h.index (by rw [h.log]; rfl) _ _)
    (by rw [hkeys, htotal]; decide) (by decide) with ⟨outcome, hsettled, hpay⟩
  rw [hpay] at hone
  have hsame := n.log_paidUnitKeys sampleFactorJob ⟨5, none, some (.field "factor"), none⟩
  generalize (n.paidUnitKeys sampleFactorJob _).1 = m at hone hsame
  unfold Node.settleEpoch
  dsimp only
  rw [h.log, sampleShared_order.1, (sampleShared_anchor _).1, Node.settleBatch, hone]
  dsimp only
  rw [Node.settleBatch]
  show Log.jobPayments _ (m.log ++ [_] ++ [_]) = _
  rw [Log.jobPayments_append, Log.jobPayments_append, hsame, h.log]
  rfl

/-- After Robert, she is not. -/
theorem sampleDear_settles (h : SampleAt n sampleSharedEight) (ts : String) :
    Log.jobPayments [sampleFactorJobId] (n.settleEpoch 2945377 ts).1.log = [] := by
  have hposted := sampleShared_posted.2
  rw [← h.log] at hposted
  have hknown := sampleShared_known hposted
  have hdear := @sampleShared_unitKey ⟨25, none, some (.field "factor"), none⟩ rfl rfl
    sampleDearClaim.artifact rfl
  have hfactor := @sampleShared_unitKey ⟨5, none, some (.field "factor"), none⟩ rfl rfl
    sampleFactorClaim.artifact rfl
  have hone := @Node.settleOne_piecework _ _ sampleDearClaim _ _ _ 2945377 [] ts hknown.2 rfl rfl
    sampleDear_piecework
  have htotal : Log.paidTotal n.log sampleDearClaim.objectiveId = 0 := by
    rw [h.log]
    rfl
  rcases @Node.settleUnit_fresh _ n _ sampleDearJob _ 25 (n.settlingVerdict sampleDearClaim) ts (by rw [hdear]; simp)
    (Node.paidUnitKeys_eq_nil h.index (by rw [h.log]; rfl) _ _)
    (by rw [hdear, htotal]; decide) (by decide) with ⟨outcome, hsettled, hpay⟩
  rw [hpay] at hone
  have hsame := n.log_paidUnitKeys sampleDearJob ⟨25, none, some (.field "factor"), none⟩
  generalize (n.paidUnitKeys sampleDearJob _).1 = m at hone hsame
  -- what Robert's payment leaves: the objectives, and a set with the unit in it
  generalize hafter : (m.pay sampleDearClaim 25 ts).count sampleDearClaim sampleDearJob _ = k at hone
  have hlog : ∃ e, e.kind = "settlement" ∧ e.payload = settlementValue sampleDearJobId
      sampleDearClaim.id "robert" 25 ∧ k.log = n.log ++ [e] := by
    rw [← hafter, ← hsame]
    exact ⟨_, rfl, rfl, rfl⟩
  rcases hlog with ⟨e, hkind, hpayload, hlog⟩
  have hobjectives : Log.objectives k.log = Log.objectives n.log := by
    rw [hlog, Log.objectives_append_of_none]
    rw [Log.ofKind, List.filter_cons_of_neg (by rw [hkind]; decide), List.filter_nil]
  have hunits : Log.unitKeysFor k.log sampleDearClaim = some [sampleUnit] :=
    Log.unitKeysFor_eq_some.mpr
      ⟨_, _, _, hobjectives ▸ hknown.2, rfl, sampleDear_piecework, hdear.symm⟩
  have htwo := @Node.settleOne_piecework _ k sampleFactorClaim _ _ _ 2945377 [sampleUnit] ts
    (hobjectives ▸ hknown.1) rfl rfl sampleFactor_piecework
  rcases @Node.settleUnit_consumed _ k _ sampleFactorJob _ [sampleUnit] (k.settlingVerdict sampleFactorClaim) ts (by rw [hfactor]; simp)
    (by rw [hfactor]; exact fun key hkey => hkey) with ⟨other, hnone⟩
  rw [hnone] at htwo
  have hkeep := k.log_paidUnitKeys sampleFactorJob ⟨5, none, some (.field "factor"), none⟩
  generalize (k.paidUnitKeys sampleFactorJob _).1 = last at htwo hkeep
  unfold Node.settleEpoch
  dsimp only
  rw [h.log, sampleShared_order.2, (sampleShared_anchor _).2, Node.settleBatch, hone]
  dsimp only
  rw [Node.consume, hunits, hsettled]
  dsimp only
  rw [if_pos rfl, List.nil_append, Node.settleBatch, htwo]
  dsimp only
  rw [Node.settleBatch]
  show Log.jobPayments _ (last.log ++ [_]) = _
  rw [Log.jobPayments_append, hkeep, hlog, Log.jobPayments_append, h.log]
  have hother : Log.jobPayments [sampleFactorJobId] [e] = [] := by
    rw [Log.jobPayments, records, List.map_singleton, hkind, hpayload]
    rfl
  rw [hother]
  rfl

/-! ## Before the epoch is drained -/

theorem sampleShared_jobIds (h : (Log.ofKind l.entries .objective).map Entry.payload =
    [sampleFactorJob.toValue, sampleDearJob.toValue]) :
    Log.jobIds l.entries sampleFactorJobId = [sampleFactorJobId] := by
  rw [Log.jobIds, (sampleShared_known h).1]
  dsimp only
  rw [if_pos (by decide), Log.pieceworkScope, sampleShared_objectives h]
  rfl

theorem sampleShared_jobClaims :
    Log.jobClaims [sampleFactorJobId] sampleSharedSix.entries =
        [("2026-01-01T00:10:00Z", sampleFactorClaim)] ∧
      Log.jobClaims [sampleFactorJobId] sampleSharedEight.entries =
        [("2026-01-01T00:10:00Z", sampleFactorClaim)] := by
  rw [Log.jobClaims, Log.jobClaims, sampleSharedSix_claims, sampleSharedEight_claims]
  exact ⟨rfl, rfl⟩

theorem sampleShared_jobVerdicts :
    Log.jobVerdicts [sampleFactorJobId] sampleSharedSix.entries = [sampleFactorVerdict] ∧
      Log.jobVerdicts [sampleFactorJobId] sampleSharedEight.entries = [sampleFactorVerdict] := by
  rcases sampleShared_verdicts with ⟨v, w, hv, hw, hsix, height⟩
  have hmine : payloadStr v.payload "claim_id" = some sampleFactorClaim.id := by
    rw [hv.1, sampleFactorVerdict, payloadStr_verdictValue]
  have hother : payloadStr w.payload "claim_id" ≠ some sampleFactorClaim.id := by
    rw [hw.1, sampleDearVerdict, payloadStr_verdictValue, sampleShared_digests.2.1.1,
      sampleShared_digests.2.1.2]
    decide
  rw [Log.jobVerdicts, Log.jobVerdicts, sampleShared_jobClaims.1, sampleShared_jobClaims.2, hsix,
    height, List.filter_cons_of_pos (by simp [hmine]), List.filter_cons_of_pos (by simp [hmine]),
    List.filter_cons_of_neg (by simp [hother]), List.filter_nil, List.map_singleton, hv.1]
  exact ⟨rfl, rfl⟩

theorem sampleShared_differ {n' : Node} (height : SampleAt n sampleSharedEight)
    (hsix : SampleAt n' sampleSharedSix) (ts : String) :
    Log.JobAgree (Log.jobIds n.log sampleFactorJobId) n.log n'.log ∧
      Log.anchorOfEpoch n.log 2945377 = Log.anchorOfEpoch n'.log 2945377 ∧
      ¬Log.JobAgree (Log.jobIds n.log sampleFactorJobId) (n.settleEpoch 2945377 ts).1.log
        (n'.settleEpoch 2945377 ts).1.log := by
  rcases sampleShared_posted with ⟨hpostedSix, hpostedEight⟩
  have hjob := sampleShared_jobIds hpostedEight
  rw [height.log, hsix.log, hjob]
  refine ⟨?_, ?_, fun hafter => ?_⟩
  · constructor
    · intro id hid
      rw [List.mem_singleton.mp hid]
      exact ⟨hjob, sampleShared_jobIds hpostedSix⟩
    · intro id hid
      rw [List.mem_singleton.mp hid, (sampleShared_known hpostedSix).1,
        (sampleShared_known hpostedEight).1]
    · rw [sampleShared_jobClaims.1, sampleShared_jobClaims.2]
    · rw [sampleShared_jobVerdicts.1, sampleShared_jobVerdicts.2]
    · have hunpaid : Log.jobPayments [sampleFactorJobId] sampleSharedEight.entries = [] := rfl
      rw [hunpaid]
      rfl
  · rw [(sampleShared_anchor _).1, (sampleShared_anchor _).2]
  · have hpayments := hafter.payments
    rw [sampleDear_settles height, sampleFactor_settles hsix] at hpayments
    cases hpayments

end Sample

end Cairn.Ports
