import Cairn.Ports.Node.Batches
import Cairn.Ports.Node.Opening

/-!
# Calls when nothing is due

Before the epoch of its claims is over, a log has nothing to drain, and a commit
or a reveal appends its own records or nothing.
-/

namespace Cairn.Ports

open Cairn.Verified
open Cairn.Ports.Canonical

variable [World]

variable {epoch : UInt64} {n : Node} {claim : Claim} {entry e : Entry} {log : List Entry}
  {verdict : Verdict}

theorem Node.settleDue_idle (hdue : Log.dueEpochs n.log epoch = []) (ts : String) :
    ∃ drains, n.settleDue epoch ts = ({ n with drains := drains }, .ok []) := by
  refine ⟨n.drains ++ [{ length := n.log.length, now := epoch }], ?_⟩
  unfold Node.settleDue
  show Node.settleEpochs ts _ (Log.dueEpochs n.log epoch) = _
  rw [hdue, Node.settleEpochs]

variable {n : Node} {claim : Claim} {objective : Objective} {piecework : Piecework}

theorem Node.postObjective_eq (ts : String)
    (hcheck : Log.checkObjective n.log objective = .ok ()) :
    (n.postObjective objective ts).1 = n.append .objective objective.toValue ts := by
  unfold Node.postObjective Node.post
  rw [hcheck]

/-- Only the mark of the empty drain tells it from an append. -/
theorem Node.commit_eq {commitment : Commitment} {ts : String}
    (hepoch : Log.commitEpoch commitment ts = .ok epoch) (hdue : Log.dueEpochs n.log epoch = [])
    (hcheck : Log.checkCommit n.log commitment = .ok ()) :
    ∃ drains, (n.commit commitment ts).1 =
      { n.append .commitment commitment.toValue ts with drains := drains } := by
  rcases Node.settleDue_idle hdue ts with ⟨drains, hidle⟩
  have hsame : Log.checkCommit (Node.log { n with drains := drains }) commitment = .ok () := hcheck
  refine ⟨drains, ?_⟩
  unfold Node.commit
  rw [hepoch]
  dsimp only
  rw [hidle]
  unfold Node.post
  dsimp only
  rw [hsame]
  rfl

theorem Node.commit_ledger {commitment : Commitment} {ts : String}
    (hepoch : Log.commitEpoch commitment ts = .ok epoch) (hdue : Log.dueEpochs n.log epoch = [])
    (hcheck : Log.checkCommit n.log commitment = .ok ()) :
    (n.commit commitment ts).1.ledger =
      (n.append .commitment commitment.toValue ts).ledger := by
  rcases Node.commit_eq hepoch hdue hcheck with ⟨drains, h⟩
  rw [h]

theorem Node.reveal_eq (registry : Registry)
    (hopens : Log.revealEpoch n.log claim claim.createdAt = .ok epoch)
    (hentry : Log.matchingCommitmentEntry n.log claim = some entry)
    (hdue : Log.dueEpochs n.log epoch = []) :
    (∀ error, Log.checkReveal n.log claim epoch (some entry) = .error error →
      (n.reveal registry claim claim.createdAt).1.ledger = n.ledger) ∧
    ∀ objective, Log.checkReveal n.log claim epoch (some entry) = .ok objective →
      ∃ drains, (n.reveal registry claim claim.createdAt).1 =
        { (n.append .claim claim.toValue claim.createdAt).append .verdict
          (verdictValue claim (registry.run objective.verifier claim.artifact))
          claim.createdAt with drains := drains } := by
  rcases Node.settleDue_idle hdue claim.createdAt with ⟨drains, hidle⟩
  have hsame : Log.checkReveal (Node.log { n with drains := drains }) claim epoch (some entry) =
      Log.checkReveal n.log claim epoch (some entry) := rfl
  unfold Node.reveal
  rw [hopens]
  dsimp only
  rw [hidle, hentry]
  dsimp only
  rw [hsame]
  constructor
  · intro error herror
    rw [herror]
  · intro objective hok
    rw [hok]
    exact ⟨drains, rfl⟩

theorem Node.reveal_ledger (registry : Registry)
    (hopens : Log.revealEpoch n.log claim claim.createdAt = .ok epoch)
    (hentry : Log.matchingCommitmentEntry n.log claim = some entry)
    (hdue : Log.dueEpochs n.log epoch = []) :
    (∀ error, Log.checkReveal n.log claim epoch (some entry) = .error error →
      (n.reveal registry claim claim.createdAt).1.ledger = n.ledger) ∧
    ∀ objective, Log.checkReveal n.log claim epoch (some entry) = .ok objective →
      (n.reveal registry claim claim.createdAt).1.ledger =
        ((n.append .claim claim.toValue claim.createdAt).append .verdict
          (verdictValue claim (registry.run objective.verifier claim.artifact))
          claim.createdAt).ledger := by
  have heq := Node.reveal_eq registry hopens hentry hdue
  refine ⟨heq.1, fun objective hok => ?_⟩
  rcases heq.2 objective hok with ⟨drains, h⟩
  rw [h]

/-- At a claim's own time the log is not asked which epoch it is for. -/
theorem Node.revealEpoch_own (log log' : List Entry) (claim : Claim) :
    Log.revealEpoch log claim claim.createdAt = Log.revealEpoch log' claim claim.createdAt := by
  unfold Log.revealEpoch epochOfTimestamp
  cases epochOfTs claim.createdAt with
  | none => rfl
  | some epoch => simp [okOr, bind, Except.bind]

/-- Nothing is due before its epoch is over. -/
theorem Log.dueEpochs_eq_nil {now : UInt64}
    (h : ∀ e ∈ Log.ofKind log .claim, epochOfTs e.ts = some now) : Log.dueEpochs log now = [] := by
  rw [List.eq_nil_iff_forall_not_mem]
  intro epoch hdue
  rcases Node.mem_dueEpochs.mp hdue with ⟨⟨claim, hclaim⟩, -, hfinal, -⟩
  have hfound := (Log.mem_acceptedClaimsByEpoch hclaim).1
  unfold Log.claimEpoch Log.claimEntry at hfound
  rw [Option.bind_eq_some_iff] at hfound
  rcases hfound with ⟨e, he, hepoch⟩
  rcases Option.map_eq_some_iff.mp he with ⟨p, hp, rfl⟩
  rcases Log.mem_decoded.mp (List.mem_of_find?_eq_some hp) with ⟨hmem, hkind, -⟩
  rw [h p.1 (Log.mem_ofKind.mpr ⟨hmem, hkind⟩)] at hepoch
  have hsame : now = epoch := Option.some.inj hepoch
  rw [hsame] at hfinal
  unfold satAdd at hfinal
  have hlt := epoch.toNat_lt
  have hsize : UInt64.size = 2 ^ 64 := rfl
  omega

/-- What is left to check of a claim that opens, when its objective pays by the
unit and it cites nothing. -/
theorem Log.checkReveal_eq
    (hknown : (Log.objectives log).get? claim.objectiveId = some objective)
    (hsigned : objective.requireSignedSubmitter → (signedSubmitter claim.submitter).isSome)
    (hopens : Log.checkOpens entry epoch = .ok ()) (hfresh : epoch ∉ Log.drainedEpochs log)
    (hratchet : objective.ratchet.isNone = true) (hcites : claim.cites = []) :
    Log.checkReveal log claim epoch (some entry) =
      (Log.checkKnown (fun id => id ∈ Log.claimIds log) .unknownRelationTarget
        (claim.relations.map ClaimRelation.target)).map fun _ => objective := by
  have hundrained : Log.epochIsDrained log epoch = false := decide_eq_false hfresh
  unfold Log.checkReveal Log.checkFrontierCitation
  rw [hknown, hcites]
  simp only [okOr, ensure, if_pos hsigned, hopens, hundrained, hratchet, bind, Except.bind]
  cases Log.checkKnown (fun id => id ∈ Log.claimIds log) .unknownRelationTarget
    (claim.relations.map ClaimRelation.target) with
  | error error => rfl
  | ok u => rfl

theorem payloadStr_verdictValue (claim : Claim) (verdict : Verdict) :
    payloadStr (verdictValue claim verdict) "claim_id" = some claim.id := by
  rw [payloadStr, verdictValue, Value.get_object]
  simp [BTreeMap.lookupEntry]

theorem isAccept_verdictValue (h : e.payload = verdictValue claim verdict)
    (hread : Verdict.fromValue verdict.toValue = some verdict) (haccept : verdict.accepted = true) :
    Log.isAccept e = true := by
  rw [Log.isAccept, h, verdictValue, Value.get_object]
  simp [BTreeMap.lookupEntry, hread, haccept]

theorem Log.acceptStep_accept (hpayload : e.payload = verdictValue claim verdict)
    (haccept : Log.isAccept e = true) (accepted : List String) :
    Log.acceptStep accepted e = accepted.insert claim.id := by
  rw [Log.acceptStep, hpayload, payloadStr_verdictValue]
  dsimp only
  rw [if_pos haccept]

/-- The ids a log with one verdict accepts. -/
theorem Log.acceptedClaimIds_one (hone : Log.ofKind log .verdict = [e])
    (hpayload : e.payload = verdictValue claim verdict) (haccept : Log.isAccept e = true) :
    Log.acceptedClaimIds log = [claim.id] := by
  rw [Log.acceptedClaimIds, hone, List.foldl_cons, List.foldl_nil,
    Log.acceptStep_accept hpayload haccept]
  rfl

/-- Without beacons and batches an epoch has no anchor. -/
theorem Log.anchorOfEpoch_eq_empty (hbeacon : Log.ofKind log .beacon = [])
    (hbatch : Log.ofKind log .batch = []) (epoch : UInt64) : Log.anchorOfEpoch log epoch = "" := by
  have hnone : Log.ofKind (Log.within log log.length) .beacon = [] := by
    rw [Log.ofKind, Log.within, List.filter_comm]
    show List.filter _ (Log.ofKind log .beacon) = []
    rw [hbeacon, List.filter_nil]
  have hlinks : ∀ (es : List Entry) (head : String), (∀ e ∈ es, e ∈ log) →
      Log.linksFrom (some epoch) head es = [] := by
    intro es
    induction es with
    | nil => exact fun _ _ => rfl
    | cons e es ih =>
      intro head hmem
      have hkind : e.kind ≠ EntryKind.batch.asStr := by
        intro heq
        have hin := Log.mem_ofKind.mpr ⟨hmem e List.mem_cons_self, heq⟩
        rw [hbatch] at hin
        cases hin
      rw [Log.linksFrom, if_pos hkind]
      exact ih head fun x hx => hmem x (List.mem_cons_of_mem _ hx)
  unfold Log.anchorOfEpoch Log.anchorOfEpochWithin Log.epochBeaconWithin
  rw [hnone]
  show Log.epochChainHeadBefore log log.length (some epoch) = ""
  unfold Log.epochChainHeadBefore Log.epochLinksBefore
  rw [hlinks _ _ fun e he => List.mem_of_mem_take he]
  rfl

omit [World] in
/-- Records that are read back, read off the payloads of their kind. -/
theorem Log.decoded_of_payloads {α ε : Type} {kind : EntryKind} {decode : Value → Except ε α}
    {encode : α → Value} {as : List α} (h : (Log.ofKind log kind).map Entry.payload = as.map encode)
    (hread : ∀ a ∈ as, decode (encode a) = .ok a) :
    (Log.decoded kind decode log).map Prod.snd = as := by
  unfold Log.decoded
  generalize Log.ofKind log kind = es at h
  induction es generalizing as with
  | nil =>
    cases as with
    | nil => rfl
    | cons a as => cases h
  | cons e es ih =>
    cases as with
    | nil => cases h
    | cons a as =>
      rw [List.map_cons, List.map_cons, List.cons.injEq] at h
      have hrest := ih (fun b hb => hread b (List.mem_cons_of_mem _ hb)) h.2
      rw [List.filterMap_cons, h.1, hread a List.mem_cons_self]
      exact congrArg (List.cons a) hrest

theorem Log.objectives_of_payloads {log : List Entry} {os : List Objective}
    (h : (Log.ofKind log .objective).map Entry.payload = os.map Objective.toValue)
    (hread : ∀ o ∈ os, Objective.fromValue o.toValue = .ok o) :
    Log.objectives log = BTreeMap.ofList (os.map fun o => (o.id, o)) := by
  rw [← Log.decoded_of_payloads h hread, List.map_map]
  rfl

/-- A commitment that is not sealed is read back. -/
theorem Commitment.fromValue_toValue_plain {c : Commitment} (hplain : c.envelope = none)
    (hsubmitter : validateCommitmentSubmitter c.submitter = .ok ()) :
    Commitment.fromValue c.toValue = .ok c := by
  have hobject : expectObject c.toValue "commitment" = .ok c.toValue := expectObject_object _ _
  have henvelope : Commitment.envelopeOf c.toValue = .ok none := by
    unfold Commitment.envelopeOf
    rw [Commitment.get_toValue, hplain]
    simp [BTreeMap.lookupEntry]
  have hid : requiredString c.toValue "commitment" "objective_id" = .ok c.objectiveId :=
    requiredString_of_get (by rw [Commitment.get_toValue]; simp [BTreeMap.lookupEntry])
  have hsubmits : requiredString c.toValue "commitment" "submitter" = .ok c.submitter :=
    requiredString_of_get (by rw [Commitment.get_toValue]; simp [BTreeMap.lookupEntry])
  have hhash : requiredString c.toValue "commitment" "hash" = .ok c.hash :=
    requiredString_of_get (by rw [Commitment.get_toValue]; simp [BTreeMap.lookupEntry])
  have hcreated : requiredString c.toValue "commitment" "created_at" = .ok c.createdAt :=
    requiredString_of_get (by rw [Commitment.get_toValue]; simp [BTreeMap.lookupEntry])
  have hsignature : optionalString c.toValue "commitment" "signature" = .ok c.signature :=
    optionalString_of_get (by rw [Commitment.get_toValue]; simp [BTreeMap.lookupEntry])
  unfold Commitment.fromValue
  rw [hobject]
  simp only [bind, Except.bind, henvelope, hid, hsubmits, hhash, hcreated, hsignature, hsubmitter]
  rw [← hplain]
  rfl

/-! ## A first unit -/

omit [World] in
theorem Log.ofKind_eq_nil_iff {kind : EntryKind} :
    Log.ofKind log kind = [] ↔ ∀ e ∈ log, e.kind ≠ kind.asStr := by
  simp [Log.ofKind]

/-- Only settlements pay units. -/
theorem paid_foldl_scanEntry {scope : List String} {es : List Entry}
    (h : ∀ e ∈ es, e.kind ≠ EntryKind.settlement.asStr) (index : PaidUnitIndex) :
    (es.foldl (Node.scanEntry scope piecework) index).paid = index.paid := by
  induction es generalizing index with
  | nil => rfl
  | cons e es ih =>
    rw [List.foldl_cons, ih fun x hx => h x (List.mem_cons_of_mem _ hx)]
    unfold Node.scanEntry
    split
    · split
      · split <;> rfl
      · rfl
    · rw [if_neg (h e List.mem_cons_self)]

/-- Nothing is paid yet to a node that asks for the first time. -/
theorem Node.paidUnitKeys_eq_nil (hindex : n.pieceworkIndex = .empty)
    (hnone : Log.ofKind n.log .settlement = []) (objective : Objective) (piecework : Piecework) :
    (n.paidUnitKeys objective piecework).2 = [] := by
  unfold Node.paidUnitKeys
  cases objective.piecework with
  | none => rfl
  | some block =>
    rw [hindex]
    dsimp only
    rw [paid_foldl_scanEntry]
    · rw [show (BTreeMap.empty : BTreeMap String PaidUnitIndex).get? (jobOf objective block) =
        none from rfl, Option.getD_none, ite_self]
      rfl
    · intro e he
      exact Log.ofKind_eq_nil_iff.mp hnone e (List.mem_of_mem_drop he)

theorem Node.settleOne_piecework {block : Value}
    (epoch : UInt64) (consumed : List String) (ts : String)
    (known : (Log.objectives n.log).get? claim.objectiveId = some objective)
    (noRatchet : objective.ratchet = none) (isJob : objective.piecework = some block)
    (parses : Piecework.fromValue block = .ok piecework) :
    n.settleOne claim epoch consumed ts =
      n.settleUnit claim (n.settlingVerdict claim) objective piecework consumed ts := by
  unfold Node.settleOne
  rw [known]
  dsimp only
  rw [noRatchet, isJob]
  dsimp only
  rw [parses]

/-- Units that nobody was paid for are paid. -/
theorem Node.settleUnit_fresh
    {reward : UInt64} (verdict : Verdict) (ts : String)
    (hkeys : piecework.unitKeys claim.artifact ≠ [])
    (hpaid : (n.paidUnitKeys objective piecework).2 = [])
    (hreward : piecework.payoutFor (piecework.unitKeys claim.artifact).length
      ((tryUInt64 (objective.reward.toNat - Log.paidTotal n.log claim.objectiveId)).getD 0) =
        reward) (hpays : reward ≠ 0) :
    ∃ outcome, outcome.settled = true ∧ n.settleUnit claim verdict objective piecework [] ts =
      (((n.paidUnitKeys objective piecework).1.pay claim reward ts).count claim objective
        (piecework.unitKeys claim.artifact), .ok outcome) := by
  have hall : ((piecework.unitKeys claim.artifact).filter fun key =>
      key ∉ ([] : List String) && key ∉ ([] : List String)) = piecework.unitKeys claim.artifact := by
    simp
  unfold Node.settleUnit
  simp only [Node.log_paidUnitKeys, hpaid]
  rw [hall, if_neg hkeys, if_neg hkeys, hreward, if_neg hpays]
  exact ⟨_, rfl, rfl⟩

/-- Units that the batch has taken pay nothing. -/
theorem Node.settleUnit_consumed
    {consumed : List String} (verdict : Verdict) (ts : String)
    (hkeys : piecework.unitKeys claim.artifact ≠ [])
    (hall : ∀ key ∈ piecework.unitKeys claim.artifact, key ∈ consumed) :
    ∃ outcome, n.settleUnit claim verdict objective piecework consumed ts =
      ((n.paidUnitKeys objective piecework).1, .ok outcome) := by
  have hnone : ((piecework.unitKeys claim.artifact).filter fun key =>
      key ∉ consumed && key ∉ (n.paidUnitKeys objective piecework).2) = [] := by
    rw [List.filter_eq_nil_iff]
    intro key hkey
    simp [hall key hkey]
  unfold Node.settleUnit
  dsimp only
  rw [if_neg hkeys, if_pos hnone]
  exact ⟨_, rfl⟩

end Cairn.Ports
