import Cairn.Ports.Node.Run

/-!
# No pool is overspent

What the settlements of an objective add up to, under each of the three rules.
An objective is named by its digest; as long as no two decoded objectives share
one (`StableIds`), what a settlement is charged to does not change.
-/

namespace Cairn.Ports

open Cairn.Verified
open Cairn.Ports.Canonical

/-! ## Reading the payloads of a drain -/

@[simp] theorem get_settlementValue (objectiveId claimId submitter : String) (reward : UInt64)
    (key : String) :
    (settlementValue objectiveId claimId submitter reward).get key =
      BTreeMap.lookupEntry key [("reward", u64Value reward), ("submitter", .string submitter),
        ("claim_id", .string claimId), ("objective_id", .string objectiveId)] := by
  rw [settlementValue, Value.get_object]
  rfl

@[simp] theorem payloadStr_settlementValue_objectiveId (objectiveId claimId submitter : String)
    (reward : UInt64) :
    payloadStr (settlementValue objectiveId claimId submitter reward) "objective_id" =
      some objectiveId := by
  simp [payloadStr, BTreeMap.lookupEntry]

@[simp] theorem payloadStr_settlementValue_claimId (objectiveId claimId submitter : String)
    (reward : UInt64) :
    payloadStr (settlementValue objectiveId claimId submitter reward) "claim_id" =
      some claimId := by
  simp [payloadStr, BTreeMap.lookupEntry]

@[simp] theorem payloadStr_settlementValue_submitter (objectiveId claimId submitter : String)
    (reward : UInt64) :
    payloadStr (settlementValue objectiveId claimId submitter reward) "submitter" =
      some submitter := by
  simp [payloadStr, BTreeMap.lookupEntry]

@[simp] theorem payloadU64_settlementValue (objectiveId claimId submitter : String)
    (reward : UInt64) :
    payloadU64 (settlementValue objectiveId claimId submitter reward) "reward" = some reward := by
  simp [payloadU64, BTreeMap.lookupEntry]

@[simp] theorem payloadStr_frontier (f : FrontierEntry) :
    payloadStr f.toValue "objective_id" = some f.objectiveId := by
  simp [payloadStr, FrontierEntry.toValue, Value.get_object, BTreeMap.lookupEntry]

namespace Log

/-! ## Objectives by id -/

section Ids

variable [Sha256]

/-- Decoded objectives with one id are one objective. -/
def StableIds (log : List Entry) : Prop :=
  ∀ p ∈ decoded .objective Objective.fromValue log,
    ∀ q ∈ decoded .objective Objective.fromValue log, p.2.id = q.2.id → p.2 = q.2

variable {log : List Entry} {o : Objective}

theorem StableIds.of_prefix {log' : List Entry} (h : StableIds log') (hp : log <+: log') :
    StableIds log := by
  obtain ⟨rest, rfl⟩ := hp
  intro p hp q hq
  exact h p (by simp [hp]) q (by simp [hq])

theorem exists_of_get?_objectives {id : String} (h : (objectives log).get? id = some o) :
    ∃ e, (e, o) ∈ decoded .objective Objective.fromValue log ∧ o.id = id := by
  have hmem := BTreeMap.mem_of_get?_ofList h
  rw [List.mem_map] at hmem
  obtain ⟨⟨e, o'⟩, hp, hpair⟩ := hmem
  cases hpair
  exact ⟨e, hp, rfl⟩

theorem StableIds.get?_of_mem (h : StableIds log) {e : Entry}
    (hmem : (e, o) ∈ decoded .objective Objective.fromValue log) :
    (objectives log).get? o.id = some o := by
  have hsome : ((objectives log).get? o.id).isSome :=
    BTreeMap.isSome_get?_ofList_of_mem (List.mem_map_of_mem (f := fun p => (p.2.id, p.2)) hmem)
  obtain ⟨o', hget⟩ := Option.isSome_iff_exists.mp hsome
  obtain ⟨e', hmem', hid⟩ := exists_of_get?_objectives hget
  have hsame : o' = o := h _ hmem' _ hmem hid
  rw [hget, hsame]

/-- What an id names does not change as the log grows. -/
theorem StableIds.get?_append {new : List Entry} (h : StableIds (log ++ new)) {id : String}
    (hget : (objectives log).get? id = some o) : (objectives (log ++ new)).get? id = some o := by
  obtain ⟨e, hmem, rfl⟩ := exists_of_get?_objectives hget
  exact h.get?_of_mem (e := e) (by simp [hmem])

theorem objectives_append_of_none {new : List Entry} (h : ofKind new .objective = []) :
    objectives (log ++ new) = objectives log := by
  simp [objectives, decoded, h]

end Ids

/-! ## The settlements and frontiers of an objective -/

def settlementsOf (log : List Entry) (objectiveId : String) : List Entry :=
  (ofKind log .settlement).filter fun e => payloadStr e.payload "objective_id" = some objectiveId

def frontiersOf (log : List Entry) (objectiveId : String) : List Entry :=
  (ofKind log .frontier).filter fun e => payloadStr e.payload "objective_id" = some objectiveId

/-- The reward a settlement records. -/
def rewardOf (e : Entry) : Nat := ((payloadU64 e.payload "reward").getD 0).toNat

theorem paidTotal_eq (log : List Entry) (objectiveId : String) :
    paidTotal log objectiveId = ((settlementsOf log objectiveId).map rewardOf).sum := rfl

@[simp] theorem settlementsOf_append (xs ys : List Entry) (objectiveId : String) :
    settlementsOf (xs ++ ys) objectiveId =
      settlementsOf xs objectiveId ++ settlementsOf ys objectiveId := by
  simp [settlementsOf]

@[simp] theorem frontiersOf_append (xs ys : List Entry) (objectiveId : String) :
    frontiersOf (xs ++ ys) objectiveId =
      frontiersOf xs objectiveId ++ frontiersOf ys objectiveId := by
  simp [frontiersOf]

@[simp] theorem paidTotal_append (xs ys : List Entry) (objectiveId : String) :
    paidTotal (xs ++ ys) objectiveId = paidTotal xs objectiveId + paidTotal ys objectiveId := by
  simp [paidTotal_eq]

theorem latestFrontier_eq (log : List Entry) (objectiveId : String) :
    latestFrontier log objectiveId =
      match (frontiersOf log objectiveId).getLast? with
      | none => .ok none
      | some e => (FrontierEntry.fromValue e.payload).map some := rfl

variable {log : List Entry}

theorem settlementOf_eq_none {objectiveId : String} :
    settlementOf log objectiveId = none ↔ settlementsOf log objectiveId = [] := by
  simp [settlementOf, settlementsOf, List.filter_eq_nil_iff]

/-! ## The invariant -/

section Invariant

variable [Sha256]

/-- What an objective has paid. -/
structure Pool (log : List Entry) (id : String) (o : Objective) : Prop where
  paid_le : paidTotal log id ≤ o.reward.toNat
  once : o.ratchet = none → o.piecework = none → (settlementsOf log id).length ≤ 1
  frontier : ∀ block, o.ratchet = some block → ∃ ratchet held,
    Ratchet.fromValue block = .ok ratchet ∧ ratchet.reward = o.reward ∧
    latestFrontier log id = .ok held ∧ paidTotal log id = (Node.paidBefore held).toNat ∧
    ∀ f, held = some f → ratchet.cumulative f.score = .ok f.paidCumulative

/-- Every objective of the log keeps to its pool, and nothing is paid out of
an unknown one. -/
structure Pools (log : List Entry) : Prop where
  pool : ∀ id o, (objectives log).get? id = some o → Pool log id o
  settlement : ∀ e ∈ ofKind log .settlement, ∃ id, payloadStr e.payload "objective_id" = some id ∧
    ((objectives log).get? id).isSome
  frontier : ∀ e ∈ ofKind log .frontier, ∃ id, payloadStr e.payload "objective_id" = some id ∧
    ((objectives log).get? id).isSome

variable {id : String} {log : List Entry} {o : Objective}

omit [Sha256] in
/-- An objective's pool depends on its settlements and frontiers. -/
theorem Pool.congr {log' : List Entry} (h : Pool log id o)
    (hs : settlementsOf log' id = settlementsOf log id)
    (hf : frontiersOf log' id = frontiersOf log id) : Pool log' id o := by
  have hpaid : paidTotal log' id = paidTotal log id := by rw [paidTotal_eq, paidTotal_eq, hs]
  have hlatest : latestFrontier log' id = latestFrontier log id := by
    rw [latestFrontier_eq, latestFrontier_eq, hf]
  exact {
    paid_le := by rw [hpaid]; exact h.paid_le
    once := by rw [hs]; exact h.once
    frontier := by rw [hpaid, hlatest]; exact h.frontier }

theorem pools_nil : Pools [] where
  pool := by
    intro id o h
    exact absurd h (by simp [objectives, decoded, ofKind, BTreeMap.ofList, BTreeMap.get?, BTreeMap.empty, BTreeMap.lookupEntry])
  settlement := by simp [ofKind]
  frontier := by simp [ofKind]

/-- Entries of other kinds move no pool. -/
theorem Pools.append_other {new : List Entry} (h : Pools log)
    (hnew : ∀ e ∈ new, e.kind ≠ EntryKind.objective.asStr ∧ e.kind ≠ EntryKind.settlement.asStr ∧
      e.kind ≠ EntryKind.frontier.asStr) : Pools (log ++ new) := by
  have ho : ofKind new .objective = [] := ofKind_eq_nil fun e he => (hnew e he).1
  have hs : ofKind new .settlement = [] := ofKind_eq_nil fun e he => (hnew e he).2.1
  have hf : ofKind new .frontier = [] := ofKind_eq_nil fun e he => (hnew e he).2.2
  have hobjectives : objectives (log ++ new) = objectives log := objectives_append_of_none ho
  constructor
  · intro id o hget
    rw [hobjectives] at hget
    apply (h.pool id o hget).congr
    · simp [settlementsOf, hs]
    · simp [frontiersOf, hf]
  · intro e he
    rw [ofKind_append, hs, List.append_nil] at he
    rw [hobjectives]
    exact h.settlement e he
  · intro e he
    rw [ofKind_append, hf, List.append_nil] at he
    rw [hobjectives]
    exact h.frontier e he

/-- An unknown id has paid nothing. -/
theorem Pools.unknown (h : Pools log) (hnone : (objectives log).get? id = none) :
    settlementsOf log id = [] ∧ frontiersOf log id = [] := by
  constructor
  · unfold settlementsOf
    rw [List.filter_eq_nil_iff]
    intro e he hid
    obtain ⟨id', hid', hsome⟩ := h.settlement e he
    rw [decide_eq_true_eq, hid'] at hid
    cases hid
    simp [hnone] at hsome
  · unfold frontiersOf
    rw [List.filter_eq_nil_iff]
    intro e he hid
    obtain ⟨id', hid', hsome⟩ := h.frontier e he
    rw [decide_eq_true_eq, hid'] at hid
    cases hid
    simp [hnone] at hsome

/-- The ratchet of an objective is usable and pays the objective's reward. -/
def RatchetChecked (o : Objective) : Prop :=
  ∀ block, o.ratchet = some block →
    ∃ ratchet, Ratchet.fromValue block = .ok ratchet ∧ ratchet.reward = o.reward

omit [Sha256] in
/-- Nothing has been paid yet. -/
theorem Pool.fresh (hchecked : RatchetChecked o) (hs : settlementsOf log id = [])
    (hf : frontiersOf log id = []) : Pool log id o := by
  have hpaid : paidTotal log id = 0 := by simp [paidTotal_eq, hs]
  have hlatest : latestFrontier log id = .ok none := by simp [latestFrontier_eq, hf]
  constructor
  · rw [hpaid]
    exact Nat.zero_le _
  · intro _ _
    simp [hs]
  · intro block hblock
    obtain ⟨ratchet, hparse, hreward⟩ := hchecked block hblock
    exact ⟨ratchet, none, hparse, hreward, hlatest, by rw [hpaid]; rfl, by simp⟩

theorem Pools.append_objective {e : Entry} (h : Pools log) (hstable : StableIds (log ++ [e]))
    (hkind : e.kind = EntryKind.objective.asStr)
    (hchecked : ∀ o, Objective.fromValue e.payload = .ok o → RatchetChecked o) :
    Pools (log ++ [e]) := by
  have hs : ofKind [e] .settlement = [] := by simp [ofKind, hkind]
  have hf : ofKind [e] .frontier = [] := by simp [ofKind, hkind]
  have hmono : ∀ id, ((objectives log).get? id).isSome →
      ((objectives (log ++ [e])).get? id).isSome := by
    intro id hsome
    obtain ⟨o, ho⟩ := Option.isSome_iff_exists.mp hsome
    rw [hstable.get?_append ho]
    rfl
  constructor
  · intro id o hget
    have hpool : Pool log id o := by
      cases hbefore : (objectives log).get? id with
      | some o' =>
        have hsame := hstable.get?_append hbefore
        rw [hget] at hsame
        cases hsame
        exact h.pool id o hbefore
      | none =>
        obtain ⟨e', hmem, rfl⟩ := exists_of_get?_objectives hget
        rw [decoded_append, List.mem_append] at hmem
        obtain hmem | hmem := hmem
        · have hold := (hstable.of_prefix (List.prefix_append _ _)).get?_of_mem hmem
          rw [hbefore] at hold
          cases hold
        · rw [mem_decoded] at hmem
          obtain ⟨hin, -, hdecode⟩ := hmem
          rw [List.mem_singleton] at hin
          cases hin
          obtain ⟨hnos, hnof⟩ := h.unknown hbefore
          exact Pool.fresh (hchecked o hdecode) hnos hnof
    apply hpool.congr
    · simp [settlementsOf, hs]
    · simp [frontiersOf, hf]
  · intro e' he'
    rw [ofKind_append, hs, List.append_nil] at he'
    obtain ⟨id, hid, hsome⟩ := h.settlement e' he'
    exact ⟨id, hid, hmono id hsome⟩
  · intro e' he'
    rw [ofKind_append, hf, List.append_nil] at he'
    obtain ⟨id, hid, hsome⟩ := h.frontier e' he'
    exact ⟨id, hid, hmono id hsome⟩

/-- Payouts of one objective leave the other pools alone. -/
theorem Pools.append_payout {new : List Entry} (h : Pools log)
    (hknown : (objectives log).get? id = some o)
    (hnew : ∀ e ∈ new, (e.kind = EntryKind.settlement.asStr ∨ e.kind = EntryKind.frontier.asStr) ∧
      payloadStr e.payload "objective_id" = some id) (hpool : Pool (log ++ new) id o) :
    Pools (log ++ new) := by
  have ho : ofKind new .objective = [] := by
    apply ofKind_eq_nil
    intro e he hkind
    obtain ⟨hk | hk, -⟩ := hnew e he
    · rw [hk, EntryKind.asStr_inj] at hkind
      exact absurd hkind (by decide)
    · rw [hk, EntryKind.asStr_inj] at hkind
      exact absurd hkind (by decide)
  have hobjectives : objectives (log ++ new) = objectives log := objectives_append_of_none ho
  have hother : ∀ id' ≠ id, ∀ e ∈ new, payloadStr e.payload "objective_id" ≠ some id' := by
    intro id' hne e he hid'
    rw [(hnew e he).2] at hid'
    exact hne (Option.some.inj hid').symm
  constructor
  · intro id' o' hget
    rw [hobjectives] at hget
    by_cases hid : id' = id
    · subst hid
      rw [hknown] at hget
      cases hget
      exact hpool
    · apply (h.pool id' o' hget).congr
      · rw [settlementsOf_append, List.append_right_eq_self]
        unfold settlementsOf
        rw [List.filter_eq_nil_iff]
        intro e he
        simpa using hother id' hid e (mem_ofKind.mp he).1
      · rw [frontiersOf_append, List.append_right_eq_self]
        unfold frontiersOf
        rw [List.filter_eq_nil_iff]
        intro e he
        simpa using hother id' hid e (mem_ofKind.mp he).1
  · intro e he
    rw [hobjectives]
    rw [ofKind_append, List.mem_append] at he
    obtain he | he := he
    · exact h.settlement e he
    · exact ⟨id, (hnew e (mem_ofKind.mp he).1).2, by rw [hknown]; rfl⟩
  · intro e he
    rw [hobjectives]
    rw [ofKind_append, List.mem_append] at he
    obtain he | he := he
    · exact h.frontier e he
    · exact ⟨id, (hnew e (mem_ofKind.mp he).1).2, by rw [hknown]; rfl⟩

end Invariant

/-- The entry of a settlement, as the queries see it. -/
structure IsSettlement (e : Entry) (id claimId submitter : String) (reward : UInt64) : Prop where
  kind : e.kind = EntryKind.settlement.asStr
  payload : e.payload = settlementValue id claimId submitter reward

/-- The entry of a frontier, as the queries see it. -/
structure IsFrontier (e : Entry) (f : FrontierEntry) : Prop where
  kind : e.kind = EntryKind.frontier.asStr
  payload : e.payload = f.toValue

variable {claimId id submitter : String} {e : Entry} {reward : UInt64}

theorem IsSettlement.settlementsOf (h : IsSettlement e id claimId submitter reward) :
    Log.settlementsOf [e] id = [e] := by
  simp [Log.settlementsOf, ofKind, h.kind, h.payload]

theorem IsSettlement.frontiersOf (h : IsSettlement e id claimId submitter reward) :
    Log.frontiersOf [e] id = [] := by
  simp [Log.frontiersOf, ofKind, h.kind]

theorem IsSettlement.paidTotal (h : IsSettlement e id claimId submitter reward) :
    Log.paidTotal [e] id = reward.toNat := by
  simp [paidTotal_eq, h.settlementsOf, rewardOf, h.payload]

variable {f : FrontierEntry}

theorem IsFrontier.settlementsOf (h : IsFrontier e f) :
    Log.settlementsOf [e] f.objectiveId = [] := by
  simp [Log.settlementsOf, ofKind, h.kind]

theorem IsFrontier.frontiersOf (h : IsFrontier e f) : Log.frontiersOf [e] f.objectiveId = [e] := by
  simp [Log.frontiersOf, ofKind, h.kind, h.payload]

theorem toNat_tryUInt64 {n : Nat} {m : UInt64} (h : tryUInt64 n = some m) : m.toNat = n := by
  unfold tryUInt64 at h
  split_ifs at h with hfits
  cases h
  exact UInt64.toNat_ofNat_of_lt' hfits

theorem tryUInt64_of_lt {n : Nat} (h : n < UInt64.size) : tryUInt64 n = some (UInt64.ofNat n) :=
  if_pos h

variable {block : Value} {held : Option FrontierEntry} {o : Objective} {ratchet : Ratchet}

/-- What a ratchet has paid is what its frontier stands at. -/
theorem Pool.paidOf (h : Pool log id o) (hblock : o.ratchet = some block)
    (hparse : Ratchet.fromValue block = .ok ratchet) (hheld : latestFrontier log id = .ok held) :
    ratchet.reward = o.reward ∧ 0 < ratchet.span ∧
      paidTotal log id = (Node.paidBefore held).toNat ∧
      ratchet.paidOf (held.map FrontierEntry.score) = (Node.paidBefore held).toNat := by
  obtain ⟨ratchet', held', hparse', hreward, hheld', hpaid, hcumulative⟩ := h.frontier block hblock
  rw [hparse] at hparse'
  cases hparse'
  rw [hheld] at hheld'
  cases hheld'
  have hspan := Ratchet.span_pos_of_validate (Ratchet.fromValue_valid hparse)
  refine ⟨hreward, hspan, hpaid, ?_⟩
  cases held with
  | none => rfl
  | some f => exact (Ratchet.toNat_cumulative hspan (hcumulative f rfl)).symm

/-- A move of the frontier by what it earns keeps the pool of a ratchet. -/
theorem Pool.move {new : List Entry} (h : Pool log id o) (hblock : o.ratchet = some block)
    (hparse : Ratchet.fromValue block = .ok ratchet) (hheld : latestFrontier log id = .ok held)
    (himproves : ratchet.improves (held.map FrontierEntry.score) f.score = true)
    (hpays : ratchet.payout (held.map FrontierEntry.score) f.score = .ok reward)
    (hadds : Node.paidAfter held reward = some f.paidCumulative)
    (hpaid : paidTotal new id = reward.toNat)
    (hlatest : latestFrontier (log ++ new) id = .ok (some f)) : Pool (log ++ new) id o := by
  obtain ⟨hreward, hspan, hbefore, hold⟩ := h.paidOf hblock hparse hheld
  obtain ⟨reward', hpays', hsum⟩ := Ratchet.payout_eq hspan himproves
  rw [hpays] at hpays'
  cases hpays'
  have hafter : f.paidCumulative.toNat = ratchet.paidAt f.score := by
    rw [toNat_tryUInt64 hadds]
    omega
  have htotal : paidTotal (log ++ new) id = f.paidCumulative.toNat := by
    rw [paidTotal_append, hpaid]
    omega
  constructor
  · rw [htotal, hafter, ← hreward]
    exact ratchet.paidAt_le_reward f.score
  · intro hnone
    rw [hblock] at hnone
    cases hnone
  · intro block' hblock'
    rw [hblock] at hblock'
    cases hblock'
    refine ⟨ratchet, some f, hparse, hreward, hlatest, htotal, ?_⟩
    intro f' hf'
    cases hf'
    rw [Ratchet.cumulative_eq hspan, ← hafter, UInt64.ofNat_toNat]

/-- The frontier last written is the latest. -/
theorem IsFrontier.latestFrontier {new : List Entry} (h : IsFrontier e f)
    (hnew : Log.frontiersOf new f.objectiveId = []) :
    Log.latestFrontier (log ++ e :: new) f.objectiveId = .ok (some f) := by
  have hlast : (Log.frontiersOf (log ++ e :: new) f.objectiveId).getLast? = some e := by
    rw [← List.singleton_append, frontiersOf_append, frontiersOf_append, h.frontiersOf, hnew,
      List.append_nil, List.getLast?_concat]
  rw [latestFrontier_eq, hlast]
  simp only [h.payload, FrontierEntry.fromValue_toValue, Except.map]

/-- The move of a ratchet never overflows. -/
theorem Pool.move_fits {score : Int64} (h : Pool log id o) (hblock : o.ratchet = some block)
    (hparse : Ratchet.fromValue block = .ok ratchet) (hheld : latestFrontier log id = .ok held)
    (himproves : ratchet.improves (held.map FrontierEntry.score) score = true) :
    ∃ reward paid, ratchet.payout (held.map FrontierEntry.score) score = .ok reward ∧
      Node.paidAfter held reward = some paid := by
  obtain ⟨hreward, hspan, hbefore, hold⟩ := h.paidOf hblock hparse hheld
  obtain ⟨reward, hpays, hsum⟩ := Ratchet.payout_eq hspan himproves
  have hle := ratchet.paidAt_le_reward score
  have hlt := ratchet.reward.toNat_lt
  refine ⟨reward, _, hpays, tryUInt64_of_lt ?_⟩
  simp only [UInt64.size]
  omega

end Log

namespace Node

variable [World]

open Log

theorem isSettlement_pay (l : Ledger) (claim : Claim) (reward : UInt64) (ts : String) :
    IsSettlement (l.nextEntry EntryKind.settlement.asStr
      (settlementValue claim.objectiveId claim.id claim.submitter reward) ts)
      claim.objectiveId claim.id claim.submitter reward := ⟨rfl, rfl⟩

variable {claim : Claim} {n : Node} {o : Objective}

/-- One payment on a pool that can bear it. -/
theorem pools_pay (h : Pools n.log) {reward : UInt64} (ts : String)
    (hknown : (objectives n.log).get? claim.objectiveId = some o) (hratchet : o.ratchet = none)
    (hle : paidTotal n.log claim.objectiveId + reward.toNat ≤ o.reward.toNat)
    (honce : o.piecework = none → settlementsOf n.log claim.objectiveId = []) :
    Pools (n.pay claim reward ts).log := by
  have he := isSettlement_pay n.ledger claim reward ts
  unfold pay
  rw [log_append]
  apply h.append_payout hknown
  · intro e hmem
    rw [List.mem_singleton] at hmem
    subst hmem
    exact ⟨.inl rfl, by simp⟩
  · constructor
    · rw [paidTotal_append, he.paidTotal]
      exact hle
    · intro _ hpiecework
      rw [settlementsOf_append, honce hpiecework, he.settlementsOf]
      simp
    · intro block hblock
      rw [hratchet] at hblock
      cases hblock

theorem pools_recordMove (h : Pools n.log) {block : Value} {ratchet : Ratchet}
    {held : Option FrontierEntry} {score : Int64} {reward paidCumulative : UInt64} (ts : String)
    (hknown : (objectives n.log).get? claim.objectiveId = some o) (hblock : o.ratchet = some block)
    (hparse : Ratchet.fromValue block = .ok ratchet)
    (hheld : latestFrontier n.log claim.objectiveId = .ok held)
    (himproves : ratchet.improves (held.map FrontierEntry.score) score = true)
    (hpays : ratchet.payout (held.map FrontierEntry.score) score = .ok reward)
    (hadds : paidAfter held reward = some paidCumulative) :
    Pools (n.recordMove claim score reward paidCumulative ts).log := by
  let f : FrontierEntry := ⟨claim.objectiveId, claim.id, claim.submitter, score, paidCumulative⟩
  have hf : IsFrontier (n.ledger.nextEntry EntryKind.frontier.asStr f.toValue ts) f := ⟨rfl, rfl⟩
  have hpool := h.pool _ _ hknown
  unfold recordMove
  by_cases hreward : reward > 0
  · rw [if_pos hreward]
    have hs := isSettlement_pay (n.advance claim score paidCumulative ts).ledger claim reward ts
    have hlog : ((n.advance claim score paidCumulative ts).pay claim reward ts).log = n.log ++
        [n.ledger.nextEntry EntryKind.frontier.asStr f.toValue ts,
          (n.advance claim score paidCumulative ts).ledger.nextEntry EntryKind.settlement.asStr
            (settlementValue claim.objectiveId claim.id claim.submitter reward) ts] := by
      rw [pay, log_append, advance, log_append, List.append_assoc]
      rfl
    rw [hlog]
    apply h.append_payout hknown
    · intro e hmem
      rw [List.mem_pair] at hmem
      obtain rfl | rfl := hmem
      · exact ⟨.inr rfl, payloadStr_frontier f⟩
      · exact ⟨.inl rfl, by simp⟩
    · apply hpool.move (f := f) hblock hparse hheld himproves hpays hadds
      · rw [← List.singleton_append, paidTotal_append, hs.paidTotal, paidTotal_eq]
        rw [hf.settlementsOf]
        simp
      · exact hf.latestFrontier hs.frontiersOf
  · rw [if_neg hreward]
    have hzero : reward.toNat = 0 := by
      have hnot : ¬(0 : UInt64).toNat < reward.toNat := hreward
      simpa using hnot
    have hlog : (n.advance claim score paidCumulative ts).log =
        n.log ++ [n.ledger.nextEntry EntryKind.frontier.asStr f.toValue ts] := rfl
    rw [hlog]
    apply h.append_payout hknown
    · intro e hmem
      rw [List.mem_singleton] at hmem
      subst hmem
      exact ⟨.inr rfl, payloadStr_frontier f⟩
    · apply hpool.move (f := f) hblock hparse hheld himproves hpays hadds
      · rw [hzero, paidTotal_eq, hf.settlementsOf]
        rfl
      · exact hf.latestFrontier rfl

theorem Settled.pools {epoch : UInt64} {consumed : List String} {ts : String}
    {res : Node × Except RuleViolation Outcome} (h : Settled n claim epoch consumed ts res)
    (hp : Pools n.log) : Pools res.1.log := by
  cases h with
  | unpaid => exact hp
  | unpaidUnit =>
    rw [log_paidUnitKeys]
    exact hp
  | overflowed => exact hp
  | whole known noRatchet noPiecework _ _ fresh =>
    rw [settlementOf_eq_none] at fresh
    apply pools_pay hp ts known noRatchet
    · simp [paidTotal_eq, fresh]
    · intro _
      exact fresh
  | improved known isRatchet parses frontier improves pays adds =>
    exact pools_recordMove hp ts known isRatchet parses frontier improves pays adds
  | @unit objective block piecework novel reward _ known noRatchet isJob parses counts hpays =>
    have hlog : (n.paidUnitKeys objective piecework).1.log = n.log := n.log_paidUnitKeys _ _
    have hle : reward.toNat ≤ objective.reward.toNat - paidTotal n.log claim.objectiveId := by
      have hpayout := piecework.payoutFor_le novel.length
        ((tryUInt64 (objective.reward.toNat - paidTotal n.log claim.objectiveId)).getD 0)
      have hfits : objective.reward.toNat - paidTotal n.log claim.objectiveId < UInt64.size :=
        lt_of_le_of_lt (Nat.sub_le _ _) objective.reward.toNat_lt
      rw [← hpays, tryUInt64_of_lt hfits, Option.getD_some,
        UInt64.toNat_ofNat_of_lt' hfits] at hpayout
      exact hpayout
    have hpool := (hp.pool _ _ known).paid_le
    apply pools_pay (n := (n.paidUnitKeys objective piecework).1) (by rw [hlog]; exact hp) ts
      (by rw [hlog]; exact known) noRatchet
    · rw [hlog]
      omega
    · intro hnone
      rw [isJob] at hnone
      cases hnone

/-- On a log that keeps to its pools, settling a claim does not fail. -/
theorem settleOne_ok (hp : Pools n.log) (claim : Claim) (epoch : UInt64) (consumed : List String)
    (ts : String) : ∃ outcome, (n.settleOne claim epoch consumed ts).2 = .ok outcome := by
  generalize hres : n.settleOne claim epoch consumed ts = res
  have hcases := n.settleOne_settled claim epoch consumed ts
  rw [hres] at hcases
  cases hcases with
  | overflowed known isRatchet parses frontier improves fails =>
    obtain ⟨reward, paid, hpays, hpaid⟩ :=
      (hp.pool _ _ known).move_fits isRatchet parses frontier improves
    rw [fails reward hpays] at hpaid
    cases hpaid
  | _ => exact ⟨_, rfl⟩

/-- On a log that keeps to its pools, a batch does not fail. -/
theorem settleBatch_ok (epoch : UInt64) (ts : String) (batch : List Claim) :
    ∀ (n : Node) (consumed : List String), Pools n.log →
      ∃ outcomes, (settleBatch epoch ts n consumed batch).2 = .ok outcomes := by
  induction batch with
  | nil =>
    intro n consumed _
    exact ⟨[], rfl⟩
  | cons claim rest ih =>
    intro n consumed hpools
    obtain ⟨outcome, hok⟩ := settleOne_ok hpools claim epoch consumed ts
    have hpools' := (n.settleOne_settled claim epoch consumed ts).pools hpools
    rw [settleBatch]
    generalize n.settleOne claim epoch consumed ts = res at *
    obtain ⟨m, result⟩ := res
    subst hok
    dsimp only at *
    obtain ⟨outcomes, hrest⟩ := ih m (m.consume claim outcome.settled consumed) hpools'
    generalize settleBatch epoch ts m (m.consume claim outcome.settled consumed) rest = res at *
    obtain ⟨m', result'⟩ := res
    subst hrest
    exact ⟨outcome :: outcomes, rfl⟩

theorem pools_settleDue (hp : Pools n.log) (now : UInt64) (ts : String) :
    Pools (n.settleDue now ts).1.log := by
  apply settleDue_induction (P := fun m => Pools m.log)
  · intro m call hm
    exact hm
  · intro start m claim epoch consumed _ _ hm
    exact (m.settleOne_settled claim epoch consumed ts).pools hm
  · intro m epoch anchor order hm
    rw [log_append]
    apply hm.append_other
    intro e he
    rw [List.mem_singleton] at he
    subst he
    simp
  · exact hp

/-- What the decoder makes of a checked objective has a usable ratchet. -/
theorem ratchetChecked_of_posted {log : List Entry} {o' : Objective} (h : Posted log o)
    (hdecode : Objective.fromValue o.toValue = .ok o') : RatchetChecked o' := by
  rw [Objective.fromValue_toValue, map_eq_ok] at hdecode
  obtain ⟨_, -, rfl⟩ := hdecode
  intro block hblock
  have hfilter : o.ratchet.filter (fun v => !v.isNull) = some block := hblock
  rw [Option.filter_eq_some_iff] at hfilter
  exact h.ratchet block hfilter.1

/-- Every reachable log keeps to its pools. -/
theorem Reaches.pools {m : Node} (hempty : n.log = []) (h : Reaches n m) (hstable : StableIds m.log) :
    Pools m.log := by
  induction h with
  | refl =>
    rw [hempty]
    exact pools_nil
  | @write m kind payload ts _ admitted ih =>
    rw [log_append] at hstable ⊢
    have hm := ih (hstable.of_prefix (List.prefix_append _ _))
    obtain ⟨hnotSettlement, hnotFrontier, -⟩ := admitted.not_payout
    by_cases hkind : kind = .objective
    · subst hkind
      apply hm.append_objective hstable rfl
      intro o hdecode
      rw [payload_nextEntry] at hdecode
      cases admitted with
      | objective check => exact ratchetChecked_of_posted (checkObjective_ok check) hdecode
    · apply hm.append_other
      intro e he
      rw [List.mem_singleton] at he
      subst he
      simp [hkind, hnotSettlement, hnotFrontier]
  | @drain m now ts _ ih =>
    exact pools_settleDue (ih (hstable.of_prefix (m.settleDue_log now ts).isPrefix)) now ts

end Node

end Cairn.Ports
