import Cairn.Ports.Node.Units

/-!
# What settling a claim reads

Settling a claim reads its objective, its verdict, the payments of the
objective, and whether its artifact or its units were taken before. Two nodes
that answer these alike settle the claim alike: the same outcome, and the same
records appended.
-/

namespace Cairn.Ports

open Cairn.Verified
open Cairn.Verified.AppendOnly
open Cairn.Ports.Canonical

/-- The kinds and payloads of entries: what they say, without where they
stand. -/
def records (log : List Entry) : List (String × Value) := log.map fun e => (e.kind, e.payload)

@[simp] theorem records_nil : records [] = [] := rfl

@[simp] theorem records_append (xs ys : List Entry) :
    records (xs ++ ys) = records xs ++ records ys := List.map_append

namespace Node

variable [World]

/-- Two nodes look alike to the settlement of a claim. -/
structure Alike (n n' : Node) (claim : Claim) (epoch : UInt64)
    (consumed consumed' : List String) : Prop where
  objective : (Log.objectives n.log).get? claim.objectiveId =
    (Log.objectives n'.log).get? claim.objectiveId
  verdict : n.settlingVerdict claim = n'.settlingVerdict claim
  frontier : Log.latestFrontier n.log claim.objectiveId =
    Log.latestFrontier n'.log claim.objectiveId
  settled : (Log.settlementOf n.log claim.objectiveId).isSome =
    (Log.settlementOf n'.log claim.objectiveId).isSome
  total : Log.paidTotal n.log claim.objectiveId = Log.paidTotal n'.log claim.objectiveId
  duplicate : ∀ o, (Log.objectives n.log).get? claim.objectiveId = some o → o.ratchet = none →
    o.piecework = none →
    (claim.artifactId ∈ consumed ∨
        claim.artifactId ∈ Log.artifactIdsBefore n.log claim.objectiveId epoch ↔
      claim.artifactId ∈ consumed' ∨
        claim.artifactId ∈ Log.artifactIdsBefore n'.log claim.objectiveId epoch)
  units : ∀ o block piecework, (Log.objectives n.log).get? claim.objectiveId = some o →
    o.piecework = some block → Piecework.fromValue block = .ok piecework →
    ∀ key ∈ piecework.unitKeys claim.artifact,
      (key ∈ consumed ∨ key ∈ (n.paidUnitKeys o piecework).2 ↔
        key ∈ consumed' ∨ key ∈ (n'.paidUnitKeys o piecework).2)

/-- Two nodes append the same records. -/
def Parallel (n m n' m' : Node) : Prop :=
  ∃ new new', m.log = n.log ++ new ∧ m'.log = n'.log ++ new' ∧ records new = records new'

omit [World] in
theorem Parallel.none {n m n' m' : Node} (h : m.log = n.log) (h' : m'.log = n'.log) :
    Parallel n m n' m' :=
  ⟨[], [], by rw [h, List.append_nil], by rw [h', List.append_nil], rfl⟩

omit [World] in
theorem Parallel.trans {n m k n' m' k' : Node} (h : Parallel n m n' m')
    (h' : Parallel m k m' k') : Parallel n k n' k' := by
  obtain ⟨new, new', hm, hm', hnew⟩ := h
  obtain ⟨more, more', hk, hk', hmore⟩ := h'
  refine ⟨new ++ more, new' ++ more', ?_, ?_, ?_⟩
  · rw [hk, hm, List.append_assoc]
  · rw [hk', hm', List.append_assoc]
  · rw [records_append, records_append, hnew, hmore]

theorem append_parallel (n n' : Node) (kind : EntryKind) (payload : Value) (ts ts' : String) :
    Parallel n (n.append kind payload ts) n' (n'.append kind payload ts') :=
  ⟨_, _, rfl, rfl, rfl⟩

theorem recordMove_parallel (n n' : Node) (claim : Claim) (score : Int64)
    (reward paidCumulative : UInt64) (ts ts' : String) :
    Parallel n (n.recordMove claim score reward paidCumulative ts) n'
      (n'.recordMove claim score reward paidCumulative ts') := by
  unfold recordMove
  split_ifs
  · exact (append_parallel n n' _ _ ts ts').trans (append_parallel _ _ _ _ ts ts')
  · exact append_parallel n n' _ _ ts ts'

theorem settleImprovement_parallel (n n' : Node) (claim : Claim) (verdict : Verdict)
    (ratchet : Ratchet) (held : Option FrontierEntry) (ts ts' : String) :
    Parallel n (n.settleImprovement claim verdict ratchet held ts).1 n'
        (n'.settleImprovement claim verdict ratchet held ts').1 ∧
      (n.settleImprovement claim verdict ratchet held ts).2 =
        (n'.settleImprovement claim verdict ratchet held ts').2 := by
  unfold settleImprovement
  cases verdict.score with
  | none => exact ⟨.none rfl rfl, rfl⟩
  | some score =>
    dsimp only
    generalize ratchet.stall (held.map FrontierEntry.score) score = stalls
    generalize ratchet.payout (held.map FrontierEntry.score) score = pays
    cases stalls with
    | some stall => exact ⟨.none rfl rfl, rfl⟩
    | none =>
      cases pays with
      | error error => exact ⟨.none rfl rfl, rfl⟩
      | ok reward =>
        dsimp only
        unfold settleMove
        cases paidAfter held reward with
        | none => exact ⟨.none rfl rfl, rfl⟩
        | some paidCumulative =>
          exact ⟨recordMove_parallel n n' claim score reward paidCumulative ts ts', rfl⟩

theorem settleUnit_parallel {n n' : Node} {claim : Claim} {epoch : UInt64}
    {consumed consumed' : List String} (h : Alike n n' claim epoch consumed consumed')
    (verdict : Verdict) {objective : Objective} {block : Value} {piecework : Piecework}
    (hknown : (Log.objectives n.log).get? claim.objectiveId = some objective)
    (hblock : objective.piecework = some block)
    (hparse : Piecework.fromValue block = .ok piecework) (ts ts' : String) :
    Parallel n (n.settleUnit claim verdict objective piecework consumed ts).1 n'
        (n'.settleUnit claim verdict objective piecework consumed' ts').1 ∧
      (n.settleUnit claim verdict objective piecework consumed ts).2 =
        (n'.settleUnit claim verdict objective piecework consumed' ts').2 := by
  have hnovel : ((piecework.unitKeys claim.artifact).filter fun key =>
      key ∉ consumed && key ∉ (n.paidUnitKeys objective piecework).2) =
      (piecework.unitKeys claim.artifact).filter fun key =>
        key ∉ consumed' && key ∉ (n'.paidUnitKeys objective piecework).2 := by
    apply List.filter_congr
    intro key hkey
    have hiff := h.units objective block piecework hknown hblock hparse key hkey
    rw [Bool.eq_iff_iff]
    simp only [Bool.and_eq_true, decide_eq_true_eq]
    rw [← not_or, ← not_or, not_iff_not]
    exact hiff
  have htotal := h.total
  unfold settleUnit
  simp only [log_paidUnitKeys]
  rw [← hnovel, ← htotal]
  by_cases hkeys : piecework.unitKeys claim.artifact = []
  · rw [if_pos hkeys, if_pos hkeys]
    exact ⟨.none rfl rfl, rfl⟩
  rw [if_neg hkeys, if_neg hkeys]
  generalize ((piecework.unitKeys claim.artifact).filter fun key =>
    key ∉ consumed && key ∉ (n.paidUnitKeys objective piecework).2) = novel
  by_cases hempty : novel = []
  · rw [if_pos hempty, if_pos hempty]
    exact ⟨.none (log_paidUnitKeys ..) (log_paidUnitKeys ..), rfl⟩
  rw [if_neg hempty, if_neg hempty]
  generalize piecework.payoutFor novel.length _ = reward
  by_cases hzero : reward = 0
  · rw [if_pos hzero, if_pos hzero]
    exact ⟨.none (log_paidUnitKeys ..) (log_paidUnitKeys ..), rfl⟩
  rw [if_neg hzero, if_neg hzero]
  refine ⟨?_, rfl⟩
  refine (Parallel.none (log_paidUnitKeys n objective piecework)
    (log_paidUnitKeys n' objective piecework)).trans ?_
  exact append_parallel _ _ _ _ ts ts'

/-- Two nodes that look alike to a claim settle it alike. -/
theorem settleOne_alike {n n' : Node} {claim : Claim} {epoch : UInt64}
    {consumed consumed' : List String} (h : Alike n n' claim epoch consumed consumed')
    (ts ts' : String) :
    Parallel n (n.settleOne claim epoch consumed ts).1 n'
        (n'.settleOne claim epoch consumed' ts').1 ∧
      (n.settleOne claim epoch consumed ts).2 = (n'.settleOne claim epoch consumed' ts').2 := by
  unfold settleOne
  rw [← h.verdict, ← h.objective, ← h.frontier]
  generalize n.settlingVerdict claim = verdict
  cases hknown : (Log.objectives n.log).get? claim.objectiveId with
  | none => exact ⟨.none rfl rfl, rfl⟩
  | some objective =>
    dsimp only
    cases hratchet : objective.ratchet with
    | some block =>
      dsimp only
      cases Ratchet.fromValue block with
      | error error => exact ⟨.none rfl rfl, rfl⟩
      | ok ratchet =>
        dsimp only
        cases Log.latestFrontier n.log claim.objectiveId with
        | error error => exact ⟨.none rfl rfl, rfl⟩
        | ok held => exact settleImprovement_parallel n n' claim verdict ratchet held ts ts'
    | none =>
      cases hpiecework : objective.piecework with
      | some block =>
        dsimp only
        cases hparse : Piecework.fromValue block with
        | error error => exact ⟨.none rfl rfl, rfl⟩
        | ok piecework =>
          exact settleUnit_parallel h verdict hknown hpiecework hparse ts ts'
      | none =>
        have hdup := h.duplicate objective hknown hratchet hpiecework
        dsimp only
        unfold settleWhole
        rw [← h.settled]
        by_cases hseen : claim.artifactId ∈ consumed ∨
            claim.artifactId ∈ Log.artifactIdsBefore n.log claim.objectiveId epoch
        · rw [if_pos hseen, if_pos (hdup.mp hseen)]
          exact ⟨.none rfl rfl, rfl⟩
        rw [if_neg hseen, if_neg (mt hdup.mpr hseen)]
        by_cases hdone : (Log.settlementOf n.log claim.objectiveId).isSome
        · rw [if_pos hdone, if_pos hdone]
          exact ⟨.none rfl rfl, rfl⟩
        rw [if_neg hdone, if_neg hdone]
        exact ⟨append_parallel n n' _ _ ts ts', rfl⟩

end Node

end Cairn.Ports
