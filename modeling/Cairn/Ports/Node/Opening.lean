import Cairn.Ports.Canonical.Size
import Cairn.Ports.Node.Run
import Mathlib.Logic.Relation

/-!
# Commitments and the claims that open them

A claim is in the log only because an earlier commitment fixed its contents in
an earlier epoch. Nothing here depends on the order of calls: `reveal` finds
the commitment it checks in the log, and every entry of a log was admitted on
the entries before it.
-/

namespace Cairn.Ports

open Cairn.Verified
open Cairn.Ports.Canonical

namespace Commitment

variable [Envelopes]

theorem get_toValue (c : Commitment) (key : String) :
    c.toValue.get key =
      ((if key = "signature" then c.signature.map .string else none).or
        (if key = "envelope" then c.envelope.map Envelopes.toValue else none)).or
        (BTreeMap.lookupEntry key
          [("created_at", .string c.createdAt), ("hash", .string c.hash),
            ("submitter", .string c.submitter), ("objective_id", .string c.objectiveId),
            ("type", .string "commitment")]) := by
  rw [toValue, Value.get_object]
  simp only [signingFields, List.reverse_append, lookupEntry_append, reverse_optField,
    lookupEntry_optField, Option.or_assoc]
  rfl

end Commitment

/-- The parts of a claim a commitment fixes are read off its record. -/
theorem Claim.parts_of_toValue {c d : Claim} (h : c.toValue = d.toValue) :
    c.objectiveId = d.objectiveId ∧ c.submitter = d.submitter ∧ c.artifact = d.artifact ∧
      c.nonce = d.nonce ∧ c.cites = d.cites := by
  have hget : ∀ key, c.toValue.get key = d.toValue.get key := fun key => by rw [h]
  have hid := hget "objective_id"
  have hsubmitter := hget "submitter"
  have hartifact := hget "artifact"
  have hnonce := hget "nonce"
  have hcites := c.citesOf_toValue
  rw [h, d.citesOf_toValue] at hcites
  simp [Claim.get_toValue, BTreeMap.lookupEntry] at hid hsubmitter hartifact hnonce
  exact ⟨hid, hsubmitter, hartifact, hnonce, (Except.ok.inj hcites).symm⟩

namespace Node

variable [World]

/-- What stands in the log before a claim entry. -/
structure Opened (before : List Entry) (e : Entry) (claim : Claim) : Prop where
  payload : e.payload = claim.toValue
  /-- An earlier commitment, admitted in the epoch it declares. -/
  commitment : ∃ k ∈ before, k.kind = EntryKind.commitment.asStr ∧
    ∃ commitment : Commitment, k.payload = commitment.toValue ∧
      commitment.hash = claim.commitmentHash ∧ commitment.objectiveId = claim.objectiveId ∧
      commitment.submitter = claim.submitter ∧
      ∃ committed revealed, epochOfTs k.ts = some committed ∧
        epochOfTs commitment.createdAt = some committed ∧ epochOfTs e.ts = some revealed ∧
        committed < revealed
  /-- The epoch of the claim has no batch. -/
  undrained : ∀ epoch, epochOfTs e.ts = some epoch → epoch ∉ Log.drainedEpochs before
  /-- Every cited id is an accepted claim. -/
  cites : ∀ cited ∈ claim.cites, Log.isAcceptedClaim before cited = true
  /-- A claim on a ratchet with a frontier cites the frontier's claim. -/
  frontier : ∃ objective, (Log.objectives before).get? claim.objectiveId = some objective ∧
    (objective.ratchet.isSome → ∀ frontier,
      Log.latestFrontier before claim.objectiveId = .ok (some frontier) →
        frontier.claimId ∈ claim.cites)
  /-- The submitter cannot blur the commitment's preimage. -/
  plainSubmitter : '|' ∉ claim.submitter.toList

/-! ## Reading the checks -/

variable {epoch : UInt64} {ts : String} {claim : Claim} {log after before : List Entry} {e : Entry}
  {kind : EntryKind} {m n : Node}

theorem epochOfTimestamp_ok {record : String} :
    epochOfTimestamp record ts = .ok epoch ↔ epochOfTs ts = some epoch := okOr_eq_ok

omit [World] in
theorem validateCommitmentSubmitter_ok {submitter : String}
    (h : validateCommitmentSubmitter submitter = .ok ()) : '|' ∉ submitter.toList := by
  unfold validateCommitmentSubmitter at h
  split_ifs at h with hbar
  simpa using hbar

theorem revealEpoch_ok (h : Log.revealEpoch log claim ts = .ok epoch) :
    '|' ∉ claim.submitter.toList ∧ epochOfTs ts = some epoch := by
  unfold Log.revealEpoch at h
  simp only [bind_eq_ok, mapError_eq_ok, ensure_eq_ok, epochOfTimestamp_ok] at h
  obtain ⟨_, hsubmitter, _, -, admitted, hadmitted, _, -, _, -, hret⟩ := h
  cases hret
  exact ⟨validateCommitmentSubmitter_ok hsubmitter, hadmitted⟩

theorem commitEpoch_ok {commitment : Commitment} (h : Log.commitEpoch commitment ts = .ok epoch) :
    epochOfTs commitment.createdAt = some epoch ∧ epochOfTs ts = some epoch := by
  unfold Log.commitEpoch at h
  simp only [bind_eq_ok, mapError_eq_ok, ensure_eq_ok, epochOfTimestamp_ok] at h
  obtain ⟨_, -, _, -, declared, hdeclared, admitted, hadmitted, _, rfl, hret⟩ := h
  cases hret
  exact ⟨hdeclared, hadmitted⟩

theorem checkOpens_ok {entry : Entry} {revealed : UInt64}
    (h : Log.checkOpens entry revealed = .ok ()) :
    ∃ committed, epochOfTs entry.ts = some committed ∧ committed < revealed := by
  unfold Log.checkOpens at h
  simp only [bind_eq_ok, ensure_eq_ok, epochOfTimestamp_ok] at h
  obtain ⟨declared, -, committed, hcommitted, _, -, hlt⟩ := h
  exact ⟨committed, hcommitted, hlt⟩

theorem matchingCommitmentEntry_some {k : Entry}
    (h : Log.matchingCommitmentEntry log claim = some k) :
    k ∈ log ∧ k.kind = EntryKind.commitment.asStr ∧
      payloadStr k.payload "objective_id" = some claim.objectiveId ∧
      payloadStr k.payload "submitter" = some claim.submitter ∧
      payloadStr k.payload "hash" = some claim.commitmentHash := by
  unfold Log.matchingCommitmentEntry at h
  have hmem := List.mem_of_find?_eq_some h
  have hmatch := List.find?_some h
  unfold Log.ofKind at hmem
  rw [List.mem_filter] at hmem
  simp only [Bool.and_eq_true, decide_eq_true_eq] at hmatch hmem
  exact ⟨hmem.1, hmem.2, hmatch.1.1, hmatch.1.2, hmatch.2⟩

omit [World] in
theorem epochIsDrained_false (h : Log.epochIsDrained log epoch = false) :
    epoch ∉ Log.drainedEpochs log := by
  unfold Log.epochIsDrained at h
  simpa using h

/-! ## Every claim was opened -/

/-- The entry of a kind no drain writes was admitted under that kind. -/
theorem Reaches.admitted_as (hempty : n.log = []) (h : Reaches n m)
    (hlog : m.log = before ++ e :: after) (hkind : e.kind = kind.asStr)
    (hnot : kind ≠ .settlement ∧ kind ≠ .frontier ∧ kind ≠ .batch) :
    Admits before kind e.payload e.ts := by
  obtain hpayout | ⟨kind', hkind', hadmits⟩ := h.admitted hempty hlog
  · unfold IsPayout IsPayment at hpayout
    rw [hkind] at hpayout
    simp only [EntryKind.asStr_inj] at hpayout
    simp_all
  · rw [hkind, EntryKind.asStr_inj] at hkind'
    rw [hkind']
    exact hadmits

/-- A commitment entry holds the commitment that was admitted. -/
theorem Reaches.commitment_entry (hempty : n.log = []) (h : Reaches n m) {k : Entry}
    (hk : k ∈ m.log) (hkind : k.kind = EntryKind.commitment.asStr) :
    ∃ commitment : Commitment, k.payload = commitment.toValue ∧
      ∃ epoch, epochOfTs commitment.createdAt = some epoch ∧ epochOfTs k.ts = some epoch := by
  obtain ⟨before, after, hlog⟩ := List.append_of_mem hk
  have hadmits := h.admitted_as hempty hlog hkind (by decide)
  generalize k.payload = payload at hadmits ⊢
  cases hadmits with
  | commitment declared check => exact ⟨_, rfl, _, commitEpoch_ok declared⟩

theorem Reaches.opened (hempty : n.log = []) (h : Reaches n m) (hlog : m.log = before ++ e :: after)
    (hkind : e.kind = EntryKind.claim.asStr) : ∃ claim, Opened before e claim := by
  have hadmits := h.admitted_as hempty hlog hkind (by decide)
  generalize hpayload : e.payload = payload at hadmits
  cases hadmits with
  | @claim claim earlier epoch objective _ hearlier hadmitted hcheck =>
    obtain ⟨hsubmitter, hrevealed⟩ := revealEpoch_ok hadmitted
    have hok := Log.checkReveal_ok hcheck
    obtain ⟨k, hfound, hopens⟩ := hok.opens
    obtain ⟨hk, hkkind, hid, hsub, hhash⟩ := matchingCommitmentEntry_some hfound
    have hbefore : k ∈ before := hearlier.subset hk
    have hinLog : k ∈ m.log := by
      rw [hlog]
      exact List.mem_append_left _ hbefore
    obtain ⟨commitment, hcommitment, declared, hdeclared, hk_ts⟩ :=
      h.commitment_entry hempty hinLog hkkind
    obtain ⟨committed, hcommitted, hlt⟩ := checkOpens_ok hopens
    have heq : declared = committed := Option.some.inj (hk_ts.symm.trans hcommitted)
    rw [hcommitment] at hid hsub hhash
    simp [payloadStr, Commitment.get_toValue, BTreeMap.lookupEntry] at hid hsub hhash
    refine ⟨claim, hpayload, ⟨k, hbefore, hkkind, commitment, hcommitment, hhash, hid, hsub,
      committed, epoch, hcommitted, heq ▸ hdeclared, hrevealed, hlt⟩, ?_, hok.cites,
      ⟨objective, hok.known, hok.frontier⟩, hsubmitter⟩
    intro epoch' hepoch'
    rw [hrevealed] at hepoch'
    cases hepoch'
    exact epochIsDrained_false hok.undrained

/-! ## One commitment, one artifact -/

/-- The entries of a log that hold claims. -/
def claimEntries (log : List Entry) : List Entry := Log.ofKind log .claim

omit [World] in
theorem mem_claimEntries : e ∈ claimEntries log ↔ e ∈ log ∧ e.kind = EntryKind.claim.asStr := by
  simp [claimEntries, Log.ofKind]

/-- The texts whose digests name the claims of a log and their commitments. -/
def ClaimTexts (log : List Entry) (text : String) : Prop :=
  ∃ e ∈ claimEntries log, text = e.payload.canonicalString ∨
    ∃ claim : Claim, e.payload = claim.toValue ∧
      CommitmentTexts claim.objectiveId claim.submitter claim.artifact claim.nonce text

theorem Reaches.plainSubmitter (hempty : n.log = []) (h : Reaches n m) (he : e ∈ claimEntries m.log)
    (hpayload : e.payload = claim.toValue) : '|' ∉ claim.submitter.toList := by
  rw [mem_claimEntries] at he
  obtain ⟨before, after, hlog⟩ := List.append_of_mem he.1
  obtain ⟨claim', hopened⟩ := h.opened hempty hlog he.2
  have hparts := Claim.parts_of_toValue (hpayload.symm.trans hopened.payload)
  rw [hparts.2.1]
  exact hopened.plainSubmitter

theorem Reaches.binding (hempty : n.log = []) (h : Reaches n m)
    (hcol : NoCollision (ClaimTexts m.log)) {e' : Entry} (he : e ∈ claimEntries m.log)
    (he' : e' ∈ claimEntries m.log) {claim' : Claim} (hpayload : e.payload = claim.toValue)
    (hpayload' : e'.payload = claim'.toValue) (hhash : claim.commitmentHash = claim'.commitmentHash) :
    claim.objectiveId = claim'.objectiveId ∧ claim.submitter = claim'.submitter ∧
      claim.artifact = claim'.artifact ∧ claim.nonce = claim'.nonce :=
  commitmentHash_inj (h.plainSubmitter hempty he hpayload) (h.plainSubmitter hempty he' hpayload')
    hcol (fun _ ht => ⟨e, he, .inr ⟨claim, hpayload, ht⟩⟩)
    (fun _ ht => ⟨e', he', .inr ⟨claim', hpayload', ht⟩⟩) hhash

/-! ## Citations have no cycle -/

/-- The claim with id `x` cites `y`. -/
def Cites (log : List Entry) (x y : String) : Prop :=
  ∃ e ∈ claimEntries log, e.payload.digest = x ∧
    ∃ claim : Claim, e.payload = claim.toValue ∧ y ∈ claim.cites

/-- Where a claim first stands in the log. -/
def firstPosition (log : List Entry) (id : String) : Nat :=
  log.findIdx fun e => e.kind = EntryKind.claim.asStr && e.payload.digest = id

/-- Two claim entries with one digest hold one record. -/
theorem payload_eq_of_digest (hcol : NoCollision (ClaimTexts log)) {e' : Entry}
    (he : e ∈ claimEntries log) (he' : e' ∈ claimEntries log)
    (h : e.payload.digest = e'.payload.digest) : e.payload = e'.payload :=
  Value.canonicalString_injective (hcol _ _ ⟨e, he, .inl rfl⟩ ⟨e', he', .inl rfl⟩ h)

/-- An accepted claim is an earlier entry. -/
theorem Reaches.firstPosition_lt (hempty : n.log = []) (h : Reaches n m)
    (hlog : m.log = before ++ after) {id : String}
    (haccepted : Log.isAcceptedClaim before id = true) :
    firstPosition m.log id < before.length := by
  unfold Log.isAcceptedClaim Log.claimIds Log.claims Log.decoded at haccepted
  simp only [Bool.and_eq_true, decide_eq_true_eq, List.mem_map, List.mem_filterMap,
    Option.map_eq_some_iff] at haccepted
  obtain ⟨⟨p, ⟨e, he, claim, hdecodes, rfl⟩, hid⟩, -⟩ := haccepted
  rw [← claimEntries, mem_claimEntries] at he
  obtain ⟨first, rest, hbefore⟩ := List.append_of_mem he.1
  have hsplit : m.log = first ++ e :: (rest ++ after) := by
    rw [hlog, hbefore, List.append_assoc, List.cons_append]
  obtain ⟨claim', hopened⟩ := h.opened hempty hsplit he.2
  have hfrom := toOk_eq_some hdecodes
  rw [hopened.payload, Claim.fromValue_toValue_iff] at hfrom
  have hdigest : e.payload.digest = id := by
    rw [hopened.payload, ← hfrom.1]
    exact hid
  rw [hlog]
  exact AppendOnly.findIdx_append_lt he.1 (by simp [he.2, hdigest])

theorem Reaches.cites_descend (hempty : n.log = []) (h : Reaches n m)
    (hcol : NoCollision (ClaimTexts m.log)) {x y : String} (hcites : Cites m.log x y) :
    firstPosition m.log y < firstPosition m.log x := by
  obtain ⟨e, he, hx, claim, hpayload, hy⟩ := hcites
  have hmem := mem_claimEntries.mp he
  -- The first entry of `x` holds the same record, so it cites `y` too.
  obtain ⟨before, first, after, hlog, hfirst, hlength⟩ :=
    AppendOnly.exists_split_findIdx hmem.1
      (p := fun e => e.kind = EntryKind.claim.asStr && e.payload.digest = x) (by simp [hmem.2, hx])
  simp only [Bool.and_eq_true, decide_eq_true_eq] at hfirst
  have hfirstMem : first ∈ claimEntries m.log :=
    mem_claimEntries.mpr ⟨by rw [hlog]; simp, hfirst.1⟩
  have hsame := payload_eq_of_digest hcol he hfirstMem (hx.trans hfirst.2.symm)
  obtain ⟨claim', hopened⟩ := h.opened hempty hlog hfirst.1
  have hparts := Claim.parts_of_toValue
    ((hpayload.symm.trans hsame).trans hopened.payload)
  rw [hparts.2.2.2.2] at hy
  unfold firstPosition at *
  rw [← hlength]
  exact h.firstPosition_lt hempty hlog (hopened.cites y hy)

theorem Reaches.cites_acyclic (hempty : n.log = []) (h : Reaches n m)
    (hcol : NoCollision (ClaimTexts m.log)) (x : String) :
    ¬Relation.TransGen (Cites m.log) x x := by
  have hdescend : ∀ {a b}, Relation.TransGen (Cites m.log) a b →
      firstPosition m.log b < firstPosition m.log a := by
    intro a b hab
    induction hab with
    | single hstep => exact h.cites_descend hempty hcol hstep
    | tail _ hstep ih => exact (h.cites_descend hempty hcol hstep).trans ih
  intro hcycle
  exact lt_irrefl _ (hdescend hcycle)

/-- In the log of any run from an empty log, every claim opens an earlier
commitment; without a SHA-256 collision a commitment opens to one artifact, and
citations have no cycle. -/
theorem claims_bound (l : Ledger) (hempty : l.entries = []) (ops : List Op) :
    (∀ before e after, ((new l).run ops).log = before ++ e :: after →
      e.kind = EntryKind.claim.asStr → ∃ claim, Opened before e claim) ∧
    (NoCollision (ClaimTexts ((new l).run ops).log) →
      (∀ e ∈ claimEntries ((new l).run ops).log, ∀ e' ∈ claimEntries ((new l).run ops).log,
        ∀ claim claim' : Claim, e.payload = claim.toValue → e'.payload = claim'.toValue →
          claim.commitmentHash = claim'.commitmentHash →
          claim.objectiveId = claim'.objectiveId ∧ claim.submitter = claim'.submitter ∧
            claim.artifact = claim'.artifact ∧ claim.nonce = claim'.nonce) ∧
      ∀ x, ¬Relation.TransGen (Cites ((new l).run ops).log) x x) := by
  have hreaches := (new l).run_reaches ops
  have hnew : (new l).log = [] := hempty
  constructor
  · intro before e after hlog hkind
    exact hreaches.opened hnew hlog hkind
  · intro hcol
    constructor
    · intro e he e' he' claim claim' hpayload hpayload' hhash
      exact hreaches.binding hnew hcol he he' hpayload hpayload' hhash
    · exact hreaches.cites_acyclic hnew hcol

/-! ## A run with one claim -/

theorem ofKind_post {α : Type} (n : Node) (check : Except RuleViolation Unit) {kind' : EntryKind}
    (payload : Value) (ts : String) (result : α) (h : kind ≠ kind') :
    Log.ofKind (n.post check kind payload ts result).1.log kind' = Log.ofKind n.log kind' := by
  cases check with
  | error error => rfl
  | ok u =>
    show Log.ofKind (n.append kind payload ts).log kind' = _
    simp [Log.ofKind, h]

theorem ofKind_commit (n : Node) (commitment : Commitment) (ts : String)
    (hpayout : kind ≠ .settlement ∧ kind ≠ .frontier ∧ kind ≠ .batch) (h : kind ≠ .commitment) :
    Log.ofKind (n.commit commitment ts).1.log kind = Log.ofKind n.log kind := by
  unfold commit
  cases Log.commitEpoch commitment ts with
  | error error => rfl
  | ok epoch =>
    have hdrain := ofKind_payouts (n.settleDue_log epoch ts) hpayout
    dsimp only
    generalize n.settleDue epoch ts = res at *
    obtain ⟨m, result⟩ := res
    cases result with
    | error error => exact hdrain
    | ok outcomes => exact (ofKind_post m _ _ ts _ (Ne.symm h)).trans hdrain

/-- A reveal writes its claim and a verdict. -/
theorem mem_ofKind_reveal (n : Node) (registry : Registry) (claim : Claim) (ts : String)
    (hpayout : kind ≠ .settlement ∧ kind ≠ .frontier ∧ kind ≠ .batch) (hverdict : kind ≠ .verdict)
    (h : e ∈ Log.ofKind (n.reveal registry claim ts).1.log kind) :
    e ∈ Log.ofKind n.log kind ∨ kind = .claim ∧ e.payload = claim.toValue := by
  unfold reveal at h
  cases hepoch : Log.revealEpoch n.log claim ts with
  | error error =>
    rw [hepoch] at h
    exact .inl h
  | ok epoch =>
    have hdrain := ofKind_payouts (n.settleDue_log epoch ts) hpayout
    rw [hepoch] at h
    dsimp only at h
    generalize n.settleDue epoch ts = res at *
    obtain ⟨m, result⟩ := res
    cases result with
    | error error => exact .inl (hdrain ▸ h)
    | ok outcomes =>
      dsimp only at h hdrain
      cases hcheck : Log.checkReveal m.log claim epoch
          (Log.matchingCommitmentEntry n.log claim) with
      | error error =>
        rw [hcheck] at h
        exact .inl (hdrain ▸ h)
      | ok objective =>
        rw [hcheck] at h
        simp only [log_append, Log.ofKind_append, List.mem_append, hdrain] at h
        obtain (h | h) | h := h
        · exact .inl h
        · rw [Log.mem_ofKind, List.mem_singleton] at h
          obtain ⟨rfl, hkind⟩ := h
          rw [kind_nextEntry, EntryKind.asStr_inj] at hkind
          exact .inr ⟨hkind.symm, rfl⟩
        · rw [Log.mem_ofKind, List.mem_singleton] at h
          obtain ⟨rfl, hkind⟩ := h
          rw [kind_nextEntry, EntryKind.asStr_inj] at hkind
          exact absurd hkind.symm hverdict

end Node

def sampleObjectiveId : String :=
  "sha256:bb860a74f05a88db13e8fb46becbc6d0a5e4ff79de580cd4839df9c2cdd18596"

/-- An objective that pays five units for every factor. -/
def sampleObjective : Objective :=
  { Objective.new "factor" "split n" (.object [("kind", .string "certificate")]) 10 "fund"
      "2026-01-01T00:00:00Z" none none with
    piecework := some (.object [("unit_price", u64Value 5)]) }

def sampleClaim : Claim where
  objectiveId := sampleObjectiveId
  submitter := "alice"
  artifact := .object [("factor", u64Value 3)]
  nonce := "n"
  createdAt := "2026-01-01T00:10:00Z"
  cites := []
  relations := []
  signature := none

/-- The SHA-256 of the texts the sample's run hashes; no two have one length. -/
def sampleRunDigests : List (Nat × Nat) :=
  [(185, 0xbb860a74f05a88db13e8fb46becbc6d0a5e4ff79de580cd4839df9c2cdd18596),
    (208, 0xc6fc2d8cb6e463516c905b88bfac3ea497a3ef44adc2d85c593fa03749cf5f07),
    (114, 0x1057eec0f6361bed5b9865ddf8dec2f84190ec88d885137a0d76cf33cce037d1),
    (79, 0x5637889395a5f5dea95f2ee984084fe55a2746ec29a4b10d7a5b4f69ec89dd14),
    (247, 0xf48f445b7cb0847c2125d0672ea92fda3a650749f4b58a24c90742f9daedc636),
    (12, 0x078a284bd21d80ddb22b44050faaad556b86ba7e5915bb40cfc3584cbea95be3),
    (22, 0xaac5ea79e63726323fc70838f1dddd0527d9932aae24f4861989c734c5bcc86c),
    (16, 0x72062608d2321480196202bf006f05c53a104e985c40e5665f94f3af469e8386),
    (264, 0x3e0a5e328143a5fff559edd915aa0db4da5962942c0502ff974b2836da5b9175),
    (396, 0x51c66c772070c0268b4f4bc68a7c622c0e51055fa8267744c59c9b6fcb61ea0c),
    (352, 0x4b84efd882b7a27e7dfec2e300af8307350bbc567638997903238afc389856cc),
    (377, 0x061424bb35735618eb1c4339ef2ec4cbe100591b2e7af2e12b4883af7161d6f8),
    (355, 0xf91dbd8bbe5fa2dc5f443ebe5f9238904da2dc196092726a57de62a921ac5649),
    (258, 0x3c8d51c99e4f264711998786f5602087fc167aa6cbf556c6ccf92c57eea2bb00)]

/-- Ten-minute epochs, one epoch of finality, nothing signed and nothing
sealed. -/
@[reducible] def sampleWorld : World where
  toSha256 := .ofLengths sampleRunDigests
  epochSeconds := 600
  finalityEpochs := 1
  epochSeconds_pos := by decide
  verifyValue _ _ _ := false
  Envelope := Empty
  toValue := Empty.elim
  fromValue _ := .error "no envelope"
  threshold := Empty.elim
  shareIndices := Empty.elim
  openSealed _ _ _ e := e.elim
  hmac _ _ := digestOfNat 0
  vdfVerify _ _ _ _ := false
  drandVerify _ _ := .error .doesNotVerify
  printable _ := true

/-- Every verifier accepts. -/
def sampleRegistry : Registry where
  run _ _ := { status := .accept, detail := "", evidence := .object [] }
  transform _ _ _ value _ := .ok value

/-- Post an objective, commit to a claim, reveal it and drain. -/
def sampleOps : letI := sampleWorld; List Op :=
  letI := sampleWorld
  [.postObjective sampleObjective "2026-01-01T00:00:00Z",
    .commit ⟨sampleObjectiveId, "alice",
      "sha256:5637889395a5f5dea95f2ee984084fe55a2746ec29a4b10d7a5b4f69ec89dd14",
      "2026-01-01T00:00:00Z", none, none⟩ "2026-01-01T00:00:00Z",
    .reveal sampleRegistry sampleClaim "2026-01-01T00:10:00Z",
    .settleDue 2945380 "2026-01-01T00:40:00Z"]

theorem sampleOps_eq : letI := sampleWorld
    sampleOps = [.postObjective sampleObjective "2026-01-01T00:00:00Z",
      .commit ⟨sampleObjectiveId, "alice",
        "sha256:5637889395a5f5dea95f2ee984084fe55a2746ec29a4b10d7a5b4f69ec89dd14",
        "2026-01-01T00:00:00Z", none, none⟩ "2026-01-01T00:00:00Z",
      .reveal sampleRegistry sampleClaim "2026-01-01T00:10:00Z",
      .settleDue 2945380 "2026-01-01T00:40:00Z"] := rfl

theorem sampleOps_claims : letI := sampleWorld
    ∀ e ∈ Node.claimEntries ((Node.new (sampleLog [])).run sampleOps).log,
      e.payload = sampleClaim.toValue := by
  let _ := sampleWorld
  intro e he
  unfold Node.claimEntries at he
  rw [sampleOps_eq, Node.run_cons, Node.run_cons, Node.run_cons, Node.run_cons, Node.run_nil,
    Node.step, Node.step, Node.step, Node.step] at he
  rw [Node.ofKind_payouts (Node.settleDue_log _ _ _) (by decide)] at he
  obtain he | ⟨-, he⟩ := Node.mem_ofKind_reveal _ _ _ _ (by decide) (by decide) he
  · rw [Node.ofKind_commit _ _ _ (by decide) (by decide), Node.postObjective,
      Node.ofKind_post _ _ _ _ _ (by decide)] at he
    cases he
  · exact he

/-! The digests of the sample's claim. -/

theorem sampleClaim_digest_run : letI := sampleWorld
    sampleClaim.toValue.digest =
      "sha256:c6fc2d8cb6e463516c905b88bfac3ea497a3ef44adc2d85c593fa03749cf5f07" := by
  let _ := sampleWorld
  exact Value.digest_ofLengths sampleRunDigests (n := 208) (by decide +kernel) (by decide)

theorem sampleClaim_artifact : letI := sampleWorld
    (Value.object [("objective_id", .string sampleObjectiveId),
      ("artifact", sampleClaim.artifact)]).digest =
        "sha256:1057eec0f6361bed5b9865ddf8dec2f84190ec88d885137a0d76cf33cce037d1" := by
  let _ := sampleWorld
  exact Value.digest_ofLengths sampleRunDigests (n := 114) (by decide +kernel) (by decide)

/-- The texts of the sample's claim, with the digests they have. -/
theorem sample_claimTexts : letI := sampleWorld
    NoCollision (Node.ClaimTexts ((Node.new (sampleLog [])).run sampleOps).log) := by
  let _ := sampleWorld
  apply @noCollision_of_nodup _ [sampleClaim.toValue.canonicalString,
    commitmentPreimage sampleObjectiveId "alice" sampleClaim.artifact "n",
    (Value.object [("objective_id", .string sampleObjectiveId),
      ("artifact", sampleClaim.artifact)]).canonicalString]
  · show [sampleClaim.toValue.digest, digestText (commitmentPreimage sampleObjectiveId "alice"
      sampleClaim.artifact "n"), (Value.object _).digest].Nodup
    rw [commitmentPreimage, sampleClaim_artifact, sampleClaim_digest_run]
    decide +kernel
  · rintro text ⟨e, he, hpayload | ⟨claim, hclaim, htext⟩⟩
    · rw [hpayload, sampleOps_claims e he]
      simp
    · obtain ⟨hid, hsubmitter, hartifact, hnonce, -⟩ :=
        Claim.parts_of_toValue ((sampleOps_claims e he).symm.trans hclaim)
      unfold CommitmentTexts at htext
      rw [← hid, ← hsubmitter, ← hartifact, ← hnonce] at htext
      obtain rfl | rfl := htext
      · exact List.mem_cons_of_mem _ List.mem_cons_self
      · exact List.mem_cons_of_mem _ (List.mem_cons_of_mem _ List.mem_cons_self)

theorem claims_bound_sample : letI := sampleWorld
    ¬Relation.TransGen (Node.Cites ((Node.new (sampleLog [])).run sampleOps).log)
      sampleClaim.toValue.digest sampleClaim.toValue.digest := by
  let _ := sampleWorld
  exact ((Node.claims_bound (sampleLog []) rfl sampleOps).2 sample_claimTexts).2 _

end Cairn.Ports
