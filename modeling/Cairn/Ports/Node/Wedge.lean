import Cairn.Ports.Node.Retry

/-!
# Logs that stop the drain

`settle_improvement` hands a payout that does not fit to its caller, and the
loops of `settle_due` hand it on. A frontier entry that claims to have been
paid almost everything therefore stops every drain that would move it, with
all the objectives settled after it.
-/

namespace Cairn.Ports

open Cairn.Verified
open Cairn.Verified.AppendOnly
open Cairn.Ports.Canonical

namespace Ratchet

/-- The score at the frontier after these were tried in order. -/
def climb (r : Ratchet) (old : Option Int64) (scores : List Int64) : Option Int64 :=
  scores.foldl (fun held score => if r.improves held score then some score else held) old

theorem paidOf_le_of_improves {r : Ratchet} {old : Option Int64} {new : Int64}
    (h : r.improves old new = true) : r.paidOf old ≤ r.paidAt new := by
  cases old with
  | none => exact Nat.zero_le _
  | some score => exact r.paidAt_mono (progress_le_of_improves h)

/-- A frontier is worth no less after a climb. -/
theorem paidOf_le_climb (r : Ratchet) (scores : List Int64) (old : Option Int64) :
    r.paidOf old ≤ r.paidOf (r.climb old scores) := by
  induction scores generalizing old with
  | nil => exact le_rfl
  | cons score rest ih =>
    show r.paidOf old ≤ r.paidOf (r.climb (if r.improves old score then some score else old) rest)
    split
    · rename_i himproves
      exact (paidOf_le_of_improves himproves).trans (ih (some score))
    · exact ih old

end Ratchet

namespace Node

variable [World]

open Log

/-! ## One claim -/

/-- The scores an objective's claims of a batch settle under. -/
def scoresOf (n : Node) (batch : List Claim) (objectiveId : String) : List Int64 :=
  (batch.filter fun claim => claim.objectiveId = objectiveId).filterMap fun claim =>
    (n.settlingVerdict claim).score

/-- A frontier that can be read, of an objective with a ratchet that can be read. -/
structure Held (n : Node) (objectiveId : String) (ratchet : Ratchet)
    (held : Option FrontierEntry) : Prop where
  ratchet : ∃ objective block, (Log.objectives n.log).get? objectiveId = some objective ∧
    objective.ratchet = some block ∧ Ratchet.fromValue block = .ok ratchet
  frontier : latestFrontier n.log objectiveId = .ok held

/-- Every frontier has room for what a batch moves it. -/
def Room (n : Node) (batch : List Claim) : Prop :=
  ∀ objectiveId ratchet held, Held n objectiveId ratchet held →
    (paidBefore held).toNat +
        ratchet.paidOf (ratchet.climb (held.map FrontierEntry.score)
          (n.scoresOf batch objectiveId)) <
      UInt64.size + ratchet.paidOf (held.map FrontierEntry.score)

/-- Settling a claim moves the frontier, if that does not overflow. -/
structure Moves (n : Node) (claim : Claim) (ratchet : Ratchet) (held : Option FrontierEntry)
    (score : Int64) : Prop where
  holds : Held n claim.objectiveId ratchet held
  reported : (n.settlingVerdict claim).score = some score
  improves : ratchet.improves (held.map FrontierEntry.score) score = true

variable {held : Option FrontierEntry} {n : Node} {ratchet : Ratchet} {claim : Claim}
  {score : Int64}

theorem Held.unique {id : String} {ratchet' : Ratchet} {held' : Option FrontierEntry}
    (h : Held n id ratchet held) (h' : Held n id ratchet' held') :
    ratchet = ratchet' ∧ held = held' := by
  obtain ⟨⟨objective, block, hknown, hblock, hparse⟩, hfrontier⟩ := h
  obtain ⟨⟨objective', block', hknown', hblock', hparse'⟩, hfrontier'⟩ := h'
  rw [hknown] at hknown'
  cases hknown'
  rw [hblock] at hblock'
  cases hblock'
  rw [hparse] at hparse'
  rw [hfrontier] at hfrontier'
  exact ⟨Except.ok.inj hparse', Except.ok.inj hfrontier'⟩

/-- A move pays the difference, where the total fits. -/
theorem Moves.settleOne (h : Moves n claim ratchet held score) (epoch : UInt64)
    (consumed : List String) (ts : String) :
    ∃ reward, ratchet.paidOf (held.map FrontierEntry.score) + reward.toNat = ratchet.paidAt score ∧
      n.settleOne claim epoch consumed ts =
        n.settleMove claim (n.settlingVerdict claim) ratchet held score reward ts := by
  obtain ⟨objective, block, hknown, hblock, hparse⟩ := h.holds.ratchet
  have hspan := Ratchet.span_pos_of_validate (Ratchet.fromValue_valid hparse)
  obtain ⟨reward, hpays, hsum⟩ := Ratchet.payout_eq hspan h.improves
  refine ⟨reward, hsum, ?_⟩
  have hstall : ratchet.stall (held.map FrontierEntry.score) score = none := by
    unfold Ratchet.stall
    rw [if_pos h.improves]
  rw [settleOne_ratchet hknown hblock hparse h.holds.frontier]
  unfold settleImprovement
  simp only [h.reported, hstall, hpays]

/-- A claim that moves nothing settles, and leaves every frontier alone. -/
theorem settleOne_still (h : ∀ ratchet held score, ¬Moves n claim ratchet held score)
    (epoch : UInt64) (consumed : List String) (ts : String) :
    (∃ outcome, (n.settleOne claim epoch consumed ts).2 = .ok outcome) ∧
      ∀ id, latestFrontier (n.settleOne claim epoch consumed ts).1.log id =
        latestFrontier n.log id := by
  by_cases hheld : ∃ ratchet held, Held n claim.objectiveId ratchet held
  · obtain ⟨ratchet, held, hheld⟩ := hheld
    obtain ⟨objective, block, hknown, hblock, hparse⟩ := hheld.ratchet
    have hstalls : ∀ score, (n.settlingVerdict claim).score = some score →
        ratchet.improves (held.map FrontierEntry.score) score = false := by
      intro score hscore
      rw [Bool.eq_false_iff]
      intro himproves
      exact h ratchet held score ⟨hheld, hscore, himproves⟩
    obtain ⟨hsame, outcome, hok, -⟩ := settleImprovement_stalls ts hstalls
    rw [settleOne_ratchet hknown hblock hparse hheld.frontier, hsame]
    exact ⟨⟨outcome, hok⟩, fun id => rfl⟩
  · have hcases := n.settleOne_settled claim epoch consumed ts
    generalize n.settleOne claim epoch consumed ts = res at hcases ⊢
    have hunheld : ∀ {objective : Objective} {block : Value} {ratchet : Ratchet}
        {held : Option FrontierEntry},
        (Log.objectives n.log).get? claim.objectiveId = some objective →
        objective.ratchet = some block → Ratchet.fromValue block = .ok ratchet →
        latestFrontier n.log claim.objectiveId = .ok held → False :=
      fun hknown hblock hparse hfrontier =>
        hheld ⟨_, _, ⟨_, _, hknown, hblock, hparse⟩, hfrontier⟩
    cases hcases with
    | unpaid => exact ⟨⟨_, rfl⟩, fun id => rfl⟩
    | unpaidUnit =>
      refine ⟨⟨_, rfl⟩, fun id => ?_⟩
      rw [log_paidUnitKeys]
    | whole => exact ⟨⟨_, rfl⟩, fun id => latestFrontier_pay _ _ _ _ _⟩
    | improved known isRatchet parses frontier =>
      exact (hunheld known isRatchet parses frontier).elim
    | overflowed known isRatchet parses frontier =>
      exact (hunheld known isRatchet parses frontier).elim
    | @unit objective _ piecework =>
      refine ⟨⟨_, rfl⟩, fun id => ?_⟩
      show latestFrontier ((n.paidUnitKeys objective piecework).1.pay claim _ ts).log id =
        latestFrontier n.log id
      rw [latestFrontier_pay, log_paidUnitKeys]

/-! ## A batch -/

theorem scoresOf_cons (n : Node) (claim : Claim) (rest : List Claim) (objectiveId : String) :
    n.scoresOf (claim :: rest) objectiveId =
      (if claim.objectiveId = objectiveId then (n.settlingVerdict claim).score.toList else []) ++
        n.scoresOf rest objectiveId := by
  unfold scoresOf
  rw [List.filter_cons]
  by_cases hid : claim.objectiveId = objectiveId
  · rw [if_pos (by simpa using hid), if_pos hid, List.filterMap_cons]
    cases (n.settlingVerdict claim).score <;> rfl
  · rw [if_neg (by simpa using hid), if_neg hid]
    rfl

/-- Settling writes payments, so later claims are read as before. -/
theorem scoresOf_settleOne (n : Node) (claim : Claim) (epoch : UInt64) (consumed : List String)
    (ts : String) (batch : List Claim) (objectiveId : String) :
    (n.settleOne claim epoch consumed ts).1.scoresOf batch objectiveId =
      n.scoresOf batch objectiveId := by
  unfold scoresOf
  simp only [settlingVerdict_of_payments (n.settleOne_log claim epoch consumed ts)]

theorem held_settleOne {epoch : UInt64} {consumed : List String} {ts objectiveId : String}
    (hfrontier : latestFrontier (n.settleOne claim epoch consumed ts).1.log objectiveId =
      latestFrontier n.log objectiveId) :
    Held (n.settleOne claim epoch consumed ts).1 objectiveId ratchet held ↔
      Held n objectiveId ratchet held := by
  have hobjectives := Log.objectives_of_payments (n.settleOne_log claim epoch consumed ts)
  constructor
  · intro h
    exact ⟨by rw [← hobjectives]; exact h.ratchet, hfrontier ▸ h.frontier⟩
  · intro h
    exact ⟨by rw [hobjectives]; exact h.ratchet, hfrontier ▸ h.frontier⟩

/-- A claim that moves nothing needs no room. -/
theorem room_still {rest : List Claim} (h : ∀ ratchet held score, ¬Moves n claim ratchet held score)
    (epoch : UInt64) (consumed : List String) (ts : String) :
    n.Room (claim :: rest) ↔ (n.settleOne claim epoch consumed ts).1.Room rest := by
  have hfrontiers := (settleOne_still h epoch consumed ts).2
  unfold Room
  refine forall_congr' fun objectiveId => forall_congr' fun ratchet => forall_congr' fun held => ?_
  rw [held_settleOne (hfrontiers objectiveId), scoresOf_settleOne]
  refine imp_congr_right fun hheld => ?_
  have hclimb : ratchet.climb (held.map FrontierEntry.score) (n.scoresOf (claim :: rest) objectiveId) =
      ratchet.climb (held.map FrontierEntry.score) (n.scoresOf rest objectiveId) := by
    rw [scoresOf_cons]
    split
    · rename_i hid
      subst hid
      cases hscore : (n.settlingVerdict claim).score with
      | none => rfl
      | some score =>
        have hstays : ratchet.improves (held.map FrontierEntry.score) score = false := by
          rw [Bool.eq_false_iff]
          intro himproves
          exact h ratchet held score ⟨hheld, hscore, himproves⟩
        show ratchet.climb (if ratchet.improves (held.map FrontierEntry.score) score then
          some score else held.map FrontierEntry.score) _ = _
        rw [hstays]
        rfl
    · rfl
  rw [hclimb]

/-- The climb of a batch whose first claim moves the frontier. -/
theorem climb_moves (h : Moves n claim ratchet held score) (rest : List Claim) :
    ratchet.climb (held.map FrontierEntry.score) (n.scoresOf (claim :: rest) claim.objectiveId) =
      ratchet.climb (some score) (n.scoresOf rest claim.objectiveId) := by
  rw [scoresOf_cons, if_pos rfl, h.reported]
  show ratchet.climb (if ratchet.improves (held.map FrontierEntry.score) score then
    some score else held.map FrontierEntry.score) _ = _
  rw [h.improves]
  rfl

/-- A move that overflows has no room. -/
theorem not_room (h : Moves n claim ratchet held score) {reward : UInt64}
    (hsum : ratchet.paidOf (held.map FrontierEntry.score) + reward.toNat = ratchet.paidAt score)
    (hfull : paidAfter held reward = none) (rest : List Claim) : ¬n.Room (claim :: rest) := by
  intro hroom
  have hbound := hroom _ _ _ h.holds
  rw [climb_moves h] at hbound
  have hclimb := ratchet.paidOf_le_climb (n.scoresOf rest claim.objectiveId) (some score)
  have hscore : ratchet.paidOf (some score) = ratchet.paidAt score := rfl
  unfold paidAfter tryUInt64 at hfull
  split at hfull
  · cases hfull
  · omega

/-- A move that fits takes the room of its reward. -/
theorem room_moves {rest : List Claim} (h : Moves n claim ratchet held score)
    {reward paidCumulative : UInt64}
    (hsum : ratchet.paidOf (held.map FrontierEntry.score) + reward.toNat = ratchet.paidAt score)
    (hfits : paidAfter held reward = some paidCumulative) (epoch : UInt64) (consumed : List String)
    (ts : String) (hmoved : (n.settleOne claim epoch consumed ts).1 =
      n.recordMove claim score reward paidCumulative ts) :
    n.Room (claim :: rest) ↔ (n.settleOne claim epoch consumed ts).1.Room rest := by
  have hlatest : latestFrontier (n.settleOne claim epoch consumed ts).1.log claim.objectiveId =
      .ok (some ⟨claim.objectiveId, claim.id, claim.submitter, score, paidCumulative⟩) := by
    rw [hmoved, latestFrontier_recordMove]
    exact latestFrontier_advance n claim score paidCumulative ts
  have hothers : ∀ id, claim.objectiveId ≠ id →
      latestFrontier (n.settleOne claim epoch consumed ts).1.log id = latestFrontier n.log id := by
    intro id hid
    rw [hmoved, latestFrontier_recordMove]
    exact latestFrontier_advance_of_ne n claim score paidCumulative ts hid
  have hobjectives := Log.objectives_of_payments (n.settleOne_log claim epoch consumed ts)
  have hafter : Held (n.settleOne claim epoch consumed ts).1 claim.objectiveId ratchet
      (some ⟨claim.objectiveId, claim.id, claim.submitter, score, paidCumulative⟩) :=
    ⟨by rw [hobjectives]; exact h.holds.ratchet, hlatest⟩
  have hpaid := toNat_tryUInt64 hfits
  have hscore : ratchet.paidOf (some score) = ratchet.paidAt score := rfl
  constructor
  · intro hroom id r held' hheld'
    rw [scoresOf_settleOne]
    by_cases hid : claim.objectiveId = id
    · subst hid
      obtain ⟨rfl, rfl⟩ := hafter.unique hheld'
      have hbound := hroom _ _ _ h.holds
      rw [climb_moves h] at hbound
      show paidCumulative.toNat + ratchet.paidOf (ratchet.climb (some score) _) <
        UInt64.size + ratchet.paidOf (some score)
      omega
    · have hbound := hroom _ _ _ ((held_settleOne (hothers id hid)).mp hheld')
      rw [scoresOf_cons, if_neg hid] at hbound
      exact hbound
  · intro hroom id r held' hheld'
    by_cases hid : claim.objectiveId = id
    · subst hid
      obtain ⟨rfl, rfl⟩ := h.holds.unique hheld'
      have hbound := hroom _ _ _ hafter
      rw [scoresOf_settleOne] at hbound
      have hbound : paidCumulative.toNat +
          ratchet.paidOf (ratchet.climb (some score) (n.scoresOf rest claim.objectiveId)) <
            UInt64.size + ratchet.paidOf (some score) := hbound
      rw [climb_moves h]
      omega
    · have hbound := hroom _ _ _ ((held_settleOne (hothers id hid)).mpr hheld')
      rw [scoresOf_settleOne] at hbound
      rw [scoresOf_cons, if_neg hid]
      exact hbound

/-- A claim either settles and leaves the room there was, or there was none. -/
theorem settleOne_room (n : Node) (claim : Claim) (rest : List Claim) (epoch : UInt64)
    (consumed : List String) (ts : String) :
    ((∃ outcome, (n.settleOne claim epoch consumed ts).2 = .ok outcome) ∧
        (n.Room (claim :: rest) ↔ (n.settleOne claim epoch consumed ts).1.Room rest)) ∨
      (∃ error, (n.settleOne claim epoch consumed ts).2 = .error error) ∧
        ¬n.Room (claim :: rest) := by
  by_cases hmoves : ∃ ratchet held score, Moves n claim ratchet held score
  · obtain ⟨ratchet, held, score, hmoves⟩ := hmoves
    obtain ⟨reward, hsum, hsettle⟩ := hmoves.settleOne epoch consumed ts
    unfold settleMove at hsettle
    cases hafter : paidAfter held reward with
    | none =>
      rw [hafter] at hsettle
      exact .inr ⟨⟨_, congrArg Prod.snd hsettle⟩, not_room hmoves hsum hafter rest⟩
    | some paidCumulative =>
      rw [hafter] at hsettle
      exact .inl ⟨⟨_, congrArg Prod.snd hsettle⟩,
        room_moves hmoves hsum hafter epoch consumed ts (congrArg Prod.fst hsettle)⟩
  · have hstill : ∀ ratchet held score, ¬Moves n claim ratchet held score :=
      fun ratchet held score h => hmoves ⟨ratchet, held, score, h⟩
    exact .inl ⟨(settleOne_still hstill epoch consumed ts).1, room_still hstill epoch consumed ts⟩

theorem room_nil (n : Node) : n.Room [] := by
  intro objectiveId ratchet held hheld
  have hpaid : (paidBefore held).toNat < UInt64.size := (paidBefore held).toNat_lt
  show (paidBefore held).toNat + ratchet.paidOf (held.map FrontierEntry.score) <
    UInt64.size + ratchet.paidOf (held.map FrontierEntry.score)
  omega

/-- A batch settles exactly when every frontier has room for it. -/
theorem settleBatch_ok_iff (epoch : UInt64) (ts : String) (batch : List Claim) (n : Node)
    (consumed : List String) :
    (∃ outcomes, (settleBatch epoch ts n consumed batch).2 = .ok outcomes) ↔ n.Room batch := by
  induction batch generalizing n consumed with
  | nil => exact iff_of_true ⟨[], rfl⟩ n.room_nil
  | cons claim rest ih =>
    have hstep := n.settleOne_room claim rest epoch consumed ts
    unfold settleBatch
    generalize n.settleOne claim epoch consumed ts = res at hstep ⊢
    obtain ⟨m, result⟩ := res
    cases result with
    | error error =>
      rcases hstep with ⟨⟨outcome, hok⟩, -⟩ | ⟨-, hfull⟩
      · cases hok
      · refine iff_of_false ?_ hfull
        rintro ⟨outcomes, hok⟩
        cases hok
    | ok outcome =>
      rcases hstep with ⟨-, hroom⟩ | ⟨⟨error, herror⟩, -⟩
      · rw [hroom, ← ih m (m.consume claim outcome.settled consumed)]
        dsimp only
        generalize settleBatch epoch ts m _ rest = res
        obtain ⟨m', result⟩ := res
        cases result with
        | error error => exact iff_of_false (by rintro ⟨_, h⟩; cases h) (by rintro ⟨_, h⟩; cases h)
        | ok outcomes => exact iff_of_true ⟨_, rfl⟩ ⟨_, rfl⟩
      · cases herror

/-! ## The drain -/

/-- The epochs of a drain are all settled and recorded. -/
theorem settleEpoch_cases (n : Node) (epoch : UInt64) (ts : String) :
    (∃ outcomes, (n.settleEpoch epoch ts).2 = .ok outcomes) ∧
        drainedEpochs (n.settleEpoch epoch ts).1.log = drainedEpochs n.log ++ [epoch] ∧
        n.Room (batchOf n.log epoch) ∨
      (∃ error, (n.settleEpoch epoch ts).2 = .error error) ∧ ¬n.Room (batchOf n.log epoch) := by
  have hiff := settleBatch_ok_iff epoch ts (batchOf n.log epoch) n []
  have hpayments := drainedEpochs_of_payments (settleBatch_log epoch ts (batchOf n.log epoch) n [])
  unfold settleEpoch
  dsimp only
  generalize settleBatch epoch ts n [] (batchOf n.log epoch) = res at hiff hpayments ⊢
  obtain ⟨m, result⟩ := res
  cases result with
  | ok outcomes =>
    refine .inl ⟨⟨outcomes, rfl⟩, ?_, hiff.mp ⟨outcomes, rfl⟩⟩
    rw [log_append, drainedEpochs_append, hpayments]
    simp [drainedEpochs, ofKind]
  | error error =>
    refine .inr ⟨⟨error, rfl⟩, fun hroom => ?_⟩
    obtain ⟨outcomes, hok⟩ := hiff.mpr hroom
    cases hok

/-- Every batch has room when its epoch is about to be settled. -/
def RoomIn (ts : String) : Node → List UInt64 → Prop
  | _, [] => True
  | n, epoch :: rest =>
    n.Room (batchOf n.log epoch) ∧ RoomIn ts (n.settleEpoch epoch ts).1 rest

theorem settleEpochs_ok_iff (ts : String) (epochs : List UInt64) (n : Node) :
    ((∃ outcomes, (settleEpochs ts n epochs).2 = .ok outcomes) ↔ RoomIn ts n epochs) ∧
      ((∃ outcomes, (settleEpochs ts n epochs).2 = .ok outcomes) →
        drainedEpochs (settleEpochs ts n epochs).1.log = drainedEpochs n.log ++ epochs) := by
  induction epochs generalizing n with
  | nil => exact ⟨iff_of_true ⟨[], rfl⟩ trivial, fun _ => (List.append_nil _).symm⟩
  | cons epoch rest ih =>
    have hcases := n.settleEpoch_cases epoch ts
    unfold settleEpochs RoomIn
    generalize n.settleEpoch epoch ts = res at hcases ⊢
    obtain ⟨m, result⟩ := res
    obtain ⟨hiff, hdrained⟩ := ih m
    cases result with
    | error error =>
      rcases hcases with ⟨⟨outcomes, hok⟩, -⟩ | ⟨-, hfull⟩
      · cases hok
      · exact ⟨iff_of_false (by rintro ⟨_, h⟩; cases h) fun h => hfull h.1,
          by rintro ⟨_, h⟩; cases h⟩
    | ok outcomes =>
      rcases hcases with ⟨-, hrecorded, hroom⟩ | ⟨⟨error, herror⟩, -⟩
      · rw [← hiff]
        dsimp only
        generalize settleEpochs ts m rest = res at hdrained ⊢
        obtain ⟨m', result⟩ := res
        cases result with
        | error error =>
          exact ⟨iff_of_false (by rintro ⟨_, h⟩; cases h) (by rintro ⟨_, _, h⟩; cases h),
            by rintro ⟨_, h⟩; cases h⟩
        | ok more =>
          refine ⟨iff_of_true ⟨_, rfl⟩ ⟨hroom, more, rfl⟩, fun _ => ?_⟩
          show drainedEpochs m'.log = drainedEpochs n.log ++ epoch :: rest
          rw [hdrained ⟨more, rfl⟩]
          show drainedEpochs m.log ++ rest = drainedEpochs n.log ++ epoch :: rest
          rw [hrecorded, List.append_assoc, List.singleton_append]
      · cases herror

/-- A drain returns, with every due epoch settled. -/
def Drains (n : Node) (now : UInt64) (ts : String) : Prop :=
  (∃ outcomes, (n.settleDue now ts).2 = .ok outcomes) ∧
    drainedEpochs (n.settleDue now ts).1.log = drainedEpochs n.log ++ dueEpochs n.log now

/-- On a working disk a drain returns exactly when, before every epoch that it
settles, each frontier has room for what the batch of the epoch moves it. -/
theorem drains_iff (n : Node) (now : UInt64) (ts : String) :
    n.Drains now ts ↔ RoomIn ts (n.called now) (dueEpochs n.log now) := by
  obtain ⟨hiff, hdrained⟩ := settleEpochs_ok_iff ts (dueEpochs n.log now) (n.called now)
  unfold Drains
  rw [settleDue_eq, ← hiff]
  exact ⟨And.left, fun h => ⟨h, hdrained h⟩⟩

end Node

/-! ## A frontier without room -/

/-- A frontier that says it was paid all there is. -/
def sampleFullFrontier : FrontierEntry :=
  { objectiveId := sampleRatchetJobId, claimId := "", holder := "mallory", score := 0
    paidCumulative := UInt64.ofNat (2 ^ 64 - 1) }

def sampleFullNode : Node :=
  letI := sampleMoveWorld
  ((Node.new (sampleLog [])).run sampleMoveOps).append .frontier sampleFullFrontier.toValue
    "2026-01-01T00:20:00Z"

theorem sampleFullNode_fails : letI := sampleMoveWorld
    (toOk (sampleFullNode.settleDue 2945380 "2026-01-01T00:40:00Z").2).isNone = true := by
  decide +kernel

/-- The claim of the run above would move the frontier by four units; the drain
ends in an error. -/
theorem not_drains : letI := sampleMoveWorld
    ¬sampleFullNode.Drains 2945380 "2026-01-01T00:40:00Z" := by
  let _ := sampleMoveWorld
  rintro ⟨⟨outcomes, hok⟩, -⟩
  have hfails := sampleFullNode_fails
  rw [hok] at hfails
  cases hfails

end Cairn.Ports
