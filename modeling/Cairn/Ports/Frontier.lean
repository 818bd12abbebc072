import Cairn.Ports.Records.Fields

/-!
# Ratchets and frontiers

`src/frontier.rs`: a ratcheted objective pays for the distance a score covers
between a baseline and a target. What has been paid after a score is
`cumulative`, so a move pays the difference of two cumulative amounts and the
payments telescope.
-/

namespace Cairn.Ports

open Cairn.Verified
open Cairn.Ports.Canonical

inductive Direction where
  | maximize
  | minimize
deriving DecidableEq

def Direction.asStr : Direction → String
  | .maximize => "maximize"
  | .minimize => "minimize"

inductive RatchetError where
  | notAnObject (record : String)
  | missingField (record field : String)
  | invalidField (record field expected : String)
  | outOfRange (field : String) (value : I128)
  | rewardOutOfRange (reward : I128)
  | unknownDirection (direction : String)
  | minImprovementTooSmall
  | targetNotAboveBaseline (baseline target : Int64)
  | targetNotBelowBaseline (baseline target : Int64)
  | degenerateSpan
  | overflow (what : String)
deriving DecidableEq

def Direction.fromStr (s : String) : Except RatchetError Direction :=
  if s = "maximize" then .ok .maximize
  else if s = "minimize" then .ok .minimize
  else .error (.unknownDirection s)

/-- `i128::from` on a signed 64-bit number. -/
def i128OfInt64 (n : Int64) : I128 :=
  ⟨n.toInt, by have := n.toInt_lt; have := n.le_toInt; omega⟩

/-- A signed 64-bit number as a value. -/
def i64Value (n : Int64) : Value := .int (i128OfInt64 n)

@[simp] theorem i64Value_inj {n m : Int64} : i64Value n = i64Value m ↔ n = m := by
  constructor
  · intro h
    have hraw := congrArg Value.asI128 h
    simp only [i64Value, Value.asI128_int, Option.some.injEq] at hraw
    exact Int64.toInt_inj.mp (congrArg Subtype.val hraw)
  · rintro rfl
    rfl

namespace Ratchet

/-! ## Field readers -/

def expectObject (value : Value) (record : String) : Except RatchetError Unit :=
  if value.asObject.isNone then .error (.notAnObject record) else .ok ()

def required (value : Value) (record field : String) : Except RatchetError Value :=
  okOr (.missingField record field) (value.get field)

def requiredInt (value : Value) (record field : String) : Except RatchetError I128 := do
  let v ← required value record field
  okOr (.invalidField record field "an integer") v.asI128

/-- `i64::try_from` of an `i128`. -/
def toInt64 (raw : I128) : Option Int64 :=
  if -(2 ^ 63) ≤ raw.val ∧ raw.val < 2 ^ 63 then some (Int64.ofInt raw.val) else none

/-- `u64::try_from` of an `i128`. -/
def toUInt64 (raw : I128) : Option UInt64 :=
  if 0 ≤ raw.val ∧ raw.val < 2 ^ 64 then some (UInt64.ofNat raw.val.toNat) else none

def requiredI64 (value : Value) (record field : String) : Except RatchetError Int64 := do
  let raw ← requiredInt value record field
  okOr (.outOfRange field raw) (toInt64 raw)

def requiredU64 (value : Value) (record field : String) : Except RatchetError UInt64 := do
  let raw ← requiredInt value record field
  okOr (.outOfRange field raw) (toUInt64 raw)

def requiredString (value : Value) (record field : String) : Except RatchetError String := do
  let v ← required value record field
  okOr (.invalidField record field "a string") v.asStr

end Ratchet

/-! ## The ratchet -/

/-- A ratchet block. `Ratchet::new` and the decoder validate it. -/
structure Ratchet where
  baseline : Int64
  target : Int64
  reward : UInt64
  direction : Direction
  minImprovement : UInt64
deriving DecidableEq

/-- Why a better score does not move the frontier. -/
inductive Stall where
  | regressed (previous : Option Int64) (score : Int64)
  | belowMinImprovement (gained minImprovement : Nat)
  | clampedByTarget (gained minImprovement : Nat) (target : Int64)
  | targetReached (target : Int64)

namespace Ratchet

def validate (r : Ratchet) : Except RatchetError Unit :=
  if r.minImprovement < 1 then .error .minImprovementTooSmall
  else
    match r.direction with
    | .maximize =>
      if r.target ≤ r.baseline then .error (.targetNotAboveBaseline r.baseline r.target)
      else .ok ()
    | .minimize =>
      if r.target ≥ r.baseline then .error (.targetNotBelowBaseline r.baseline r.target)
      else .ok ()

/-- The distance from baseline to target; it fits an unsigned 64-bit number. -/
def span (r : Ratchet) : Nat := (r.target.toInt - r.baseline.toInt).natAbs

/-- How far a score lies from the baseline, in the direction of the target. -/
def raw (r : Ratchet) (score : Int64) : Int :=
  match r.direction with
  | .maximize => score.toInt - r.baseline.toInt
  | .minimize => r.baseline.toInt - score.toInt

/-- The raw distance clamped to the span. -/
def progress (r : Ratchet) (score : Int64) : Nat :=
  if r.raw score ≤ 0 then 0
  else if r.raw score ≥ r.span then r.span
  else (r.raw score).toNat

/-- The progress of a frontier that may not exist yet. -/
def progressOf (r : Ratchet) (old : Option Int64) : Nat := (old.map r.progress).getD 0

def improves (r : Ratchet) (old : Option Int64) (new : Int64) : Bool :=
  (r.progress new : Int) - r.progressOf old ≥ r.minImprovement.toNat

def stall (r : Ratchet) (old : Option Int64) (new : Int64) : Option Stall :=
  if r.improves old new then none
  else
    let before := r.progressOf old
    let after := r.progress new
    if before ≥ r.span then some (.targetReached r.target)
    else if after ≤ before then some (.regressed old new)
    else
      let gained := after - before
      let moved : Int :=
        match old with
        | none => after
        | some old =>
          match r.direction with
          | .maximize => new.toInt - old.toInt
          | .minimize => old.toInt - new.toInt
      if moved > gained then some (.clampedByTarget gained r.minImprovement.toNat r.target)
      else some (.belowMinImprovement gained r.minImprovement.toNat)

/-- No score can improve on this one by enough. -/
def isExhausted (r : Ratchet) (score : Int64) : Bool :=
  r.span - r.progress score < r.minImprovement.toNat

/-- Has the pool been paid out in full? -/
def exhausted (r : Ratchet) (score : Int64) : Bool := r.progress score ≥ r.span

/-- What has been paid once a score holds the frontier. -/
def cumulative (r : Ratchet) (score : Int64) : Except RatchetError UInt64 :=
  if r.span = 0 then .error .degenerateSpan
  else
    let product := r.reward.toNat * r.progress score
    if product ≥ 2 ^ 128 then .error (.overflow "reward * progress")
    else
      let paid := product / r.span
      if paid ≥ 2 ^ 64 then .error (.overflow "cumulative payout")
      else .ok (UInt64.ofNat paid)

/-- What a move from an old frontier to a new score pays. -/
def payout (r : Ratchet) (old : Option Int64) (new : Int64) : Except RatchetError UInt64 := do
  let before ←
    match old with
    | none => .ok 0
    | some old => r.cumulative old
  let after ← r.cumulative new
  return UInt64.ofNat (after.toNat - before.toNat)

def directionOf (value : Value) : Except RatchetError Direction :=
  match value.get "direction" with
  | none => .ok .maximize
  | some v =>
    match v.asStr with
    | some s => Direction.fromStr s
    | none => .error (.invalidField "ratchet" "direction" "a string")

def minImprovementOf (value : Value) : Except RatchetError UInt64 :=
  match value.get "min_improvement" with
  | none => .ok 1
  | some v => do
      let raw ← okOr (.invalidField "ratchet" "min_improvement" "an integer") v.asI128
      if raw.val < 1 then .error .minImprovementTooSmall
      else okOr (.outOfRange "min_improvement" raw) (toUInt64 raw)

def fromValue (value : Value) : Except RatchetError Ratchet := do
  expectObject value "ratchet"
  let baseline ← requiredI64 value "ratchet" "baseline"
  let target ← requiredI64 value "ratchet" "target"
  let rawReward ← requiredInt value "ratchet" "reward"
  let reward ← okOr (.rewardOutOfRange rawReward) (toUInt64 rawReward)
  let direction ← directionOf value
  let minImprovement ← minImprovementOf value
  let ratchet : Ratchet := { baseline, target, reward, direction, minImprovement }
  ratchet.validate
  return ratchet

/-! ## Payouts -/

theorem progress_le_span (r : Ratchet) (score : Int64) : r.progress score ≤ r.span := by
  unfold progress
  split_ifs <;> omega

theorem span_lt (r : Ratchet) : r.span < 2 ^ 64 := by
  have hbaseline := r.baseline.toInt_lt
  have hbaseline' := r.baseline.le_toInt
  have htarget := r.target.toInt_lt
  have htarget' := r.target.le_toInt
  unfold span
  omega

variable {r : Ratchet} {new : Int64} {old : Option Int64}

theorem span_pos_of_validate (h : r.validate = .ok ()) : 0 < r.span := by
  unfold validate at h
  by_cases hmin : r.minImprovement < 1
  · simp [hmin] at h
  rw [if_neg hmin] at h
  unfold span
  cases hd : r.direction with
  | maximize =>
    rw [hd] at h
    simp only [ite_eq_right_iff, reduceCtorEq, imp_false] at h
    rw [Int64.le_iff_toInt_le] at h
    omega
  | minimize =>
    rw [hd] at h
    simp only [ite_eq_right_iff, reduceCtorEq, imp_false] at h
    rw [ge_iff_le, Int64.le_iff_toInt_le] at h
    omega

theorem fromValue_valid {value : Value} (h : fromValue value = .ok r) : r.validate = .ok () := by
  unfold fromValue at h
  simp only [bind, Except.bind] at h
  repeat' split at h
  all_goals first | (cases h; assumption) | exact absurd h (by simp)

/-- The amount `cumulative` stands for. -/
def paidAt (r : Ratchet) (score : Int64) : Nat := r.reward.toNat * r.progress score / r.span

theorem paidAt_le_reward (r : Ratchet) (score : Int64) : r.paidAt score ≤ r.reward.toNat := by
  unfold paidAt
  apply Nat.div_le_of_le_mul
  rw [Nat.mul_comm]
  exact Nat.mul_le_mul_right _ (r.progress_le_span score)

theorem paidAt_mono (r : Ratchet) {s t : Int64} (h : r.progress s ≤ r.progress t) :
    r.paidAt s ≤ r.paidAt t :=
  Nat.div_le_div_right (Nat.mul_le_mul_left _ h)

/-- On a valid ratchet the payout is computed without overflow. -/
theorem cumulative_eq (hspan : 0 < r.span) (score : Int64) :
    r.cumulative score = .ok (UInt64.ofNat (r.paidAt score)) := by
  have hreward := r.reward.toNat_lt
  have hproduct : r.reward.toNat * r.progress score < 2 ^ 128 := by
    calc r.reward.toNat * r.progress score ≤ r.reward.toNat * 2 ^ 64 :=
          Nat.mul_le_mul_left _ (le_trans (r.progress_le_span score) r.span_lt.le)
      _ < 2 ^ 64 * 2 ^ 64 := by omega
      _ = 2 ^ 128 := by norm_num
  have hpaid := r.paidAt_le_reward score
  unfold paidAt at hpaid
  unfold cumulative
  rw [if_neg (by omega), if_neg (by omega), if_neg (by omega)]
  rfl

theorem toNat_cumulative (hspan : 0 < r.span) {score : Int64} {paid : UInt64}
    (h : r.cumulative score = .ok paid) : paid.toNat = r.paidAt score := by
  have hle := r.paidAt_le_reward score
  have hreward := r.reward.toNat_lt
  rw [cumulative_eq hspan] at h
  cases h
  rw [UInt64.toNat_ofNat_of_lt']
  simp only [UInt64.size]
  omega

theorem progress_le_of_improves (h : r.improves old new = true) :
    r.progressOf old ≤ r.progress new := by
  unfold improves at h
  rw [decide_eq_true_eq] at h
  omega

/-- What an old frontier was paid. -/
def paidOf (r : Ratchet) (old : Option Int64) : Nat := (old.map r.paidAt).getD 0

/-- A move on a valid ratchet pays the difference, whatever the frontier. -/
theorem payout_eq (hspan : 0 < r.span) (h : r.improves old new = true) :
    ∃ reward, r.payout old new = .ok reward ∧ r.paidOf old + reward.toNat = r.paidAt new := by
  have hreward := r.reward.toNat_lt
  have hnew := r.paidAt_le_reward new
  have hprogress := progress_le_of_improves h
  have hmono : r.paidOf old ≤ r.paidAt new := by
    cases old with
    | none => exact Nat.zero_le _
    | some s => exact r.paidAt_mono hprogress
  have hfits : r.paidAt new - r.paidOf old < UInt64.size := by
    simp only [UInt64.size]
    omega
  refine ⟨UInt64.ofNat (r.paidAt new - r.paidOf old), ?_, ?_⟩
  · have hcnew := cumulative_eq hspan new
    have hnewNat := toNat_cumulative hspan hcnew
    cases old with
    | none =>
      simp only [payout, hcnew, bind, Except.bind, pure, Except.pure, hnewNat]
      rfl
    | some s =>
      have hcold := cumulative_eq hspan s
      have holdNat := toNat_cumulative hspan hcold
      simp only [payout, hcnew, hcold, bind, Except.bind, pure, Except.pure, hnewNat, holdNat]
      rfl
  · rw [UInt64.toNat_ofNat_of_lt' hfits]
    omega

/-! ## Paths of improvements -/

/-- Every score improves on the one before it. -/
def Moves (r : Ratchet) : Option Int64 → List Int64 → Prop
  | _, [] => True
  | old, score :: rest => r.improves old score = true ∧ Moves r (some score) rest

instance (r : Ratchet) : (old : Option Int64) → (scores : List Int64) → Decidable (r.Moves old scores)
  | _, [] => inferInstanceAs (Decidable True)
  | _, score :: rest =>
    have := instDecidableMoves r (some score) rest
    inferInstanceAs (Decidable (_ ∧ _))

/-- What the moves of a path pay, one payout a move. -/
def payouts (r : Ratchet) : Option Int64 → List Int64 → Except RatchetError (List UInt64)
  | _, [] => .ok []
  | old, score :: rest => do
      let reward ← r.payout old score
      let rewards ← payouts r (some score) rest
      return reward :: rewards

/-- What a path paid. -/
def total (rewards : List UInt64) : Nat := (rewards.map UInt64.toNat).sum

/-- A score at the target or past it. -/
def AtTarget (r : Ratchet) (score : Int64) : Prop :=
  match r.direction with
  | .maximize => r.target ≤ score
  | .minimize => score ≤ r.target

theorem minImprovement_pos_of_validate (h : r.validate = .ok ()) : 0 < r.minImprovement.toNat := by
  unfold validate at h
  by_cases hmin : r.minImprovement < 1
  · simp [hmin] at h
  · have hle : ¬r.minImprovement.toNat < 1 := hmin
    omega

theorem improves_iff :
    r.improves old new = true ↔
      r.progressOf old + r.minImprovement.toNat ≤ r.progress new := by
  unfold improves
  rw [decide_eq_true_eq]
  omega

/-- `payout` is total on a valid ratchet, whatever the scores. -/
theorem payout_ok (hspan : 0 < r.span) (old : Option Int64) (new : Int64) :
    ∃ reward, r.payout old new = .ok reward := by
  have hnew := cumulative_eq hspan new
  cases old with
  | none =>
    simp only [payout, hnew, bind, Except.bind]
    exact ⟨_, rfl⟩
  | some s =>
    simp only [payout, hnew, cumulative_eq hspan s, bind, Except.bind]
    exact ⟨_, rfl⟩

/-- Where a path ends does not depend on where its first move started. -/
theorem getLast?_cons_or (score : Int64) (rest : List Int64) (old : Option Int64) :
    ((score :: rest).getLast?).or old = (rest.getLast?).or (some score) := by
  cases rest with
  | nil => rfl
  | cons s rest => simp [List.getLast?_cons]

/-- The payouts of a path add up to the difference of its ends. -/
theorem payouts_sum (hspan : 0 < r.span) :
    ∀ (scores : List Int64) (old : Option Int64), r.Moves old scores →
      ∃ rewards, r.payouts old scores = .ok rewards ∧
        r.paidOf old + total rewards = r.paidOf ((scores.getLast?).or old) := by
  intro scores
  induction scores with
  | nil =>
    intro old _
    exact ⟨[], rfl, by simp [total]⟩
  | cons score rest ih =>
    rintro old ⟨himproves, hrest⟩
    obtain ⟨reward, hpays, hsum⟩ := payout_eq hspan himproves
    obtain ⟨rewards, hrewards, htotal⟩ := ih (some score) hrest
    refine ⟨reward :: rewards, ?_, ?_⟩
    · simp only [payouts, hpays, hrewards, bind, Except.bind]
      rfl
    · have hscore : r.paidOf (some score) = r.paidAt score := rfl
      rw [getLast?_cons_or, ← htotal, hscore, ← hsum]
      simp only [total, List.map_cons, List.sum_cons]
      omega

/-- Every move gains at least the minimum, so a path is short. -/
theorem length_mul_le :
    ∀ (scores : List Int64) (old : Option Int64), r.Moves old scores →
      r.progressOf old + scores.length * r.minImprovement.toNat ≤
        r.progressOf ((scores.getLast?).or old) := by
  intro scores
  induction scores with
  | nil =>
    intro old _
    simp
  | cons score rest ih =>
    rintro old ⟨himproves, hrest⟩
    have hmove := improves_iff.mp himproves
    have htail := ih (some score) hrest
    have hscore : r.progressOf (some score) = r.progress score := rfl
    rw [getLast?_cons_or, List.length_cons, Nat.add_mul, Nat.one_mul]
    omega

theorem progress_eq_span_iff (h : r.validate = .ok ()) (score : Int64) :
    r.progress score = r.span ↔ r.AtTarget score := by
  have hspan := span_pos_of_validate h
  unfold validate at h
  by_cases hmin : r.minImprovement < 1
  · simp [hmin] at h
  rw [if_neg hmin] at h
  unfold AtTarget progress raw
  unfold span at *
  cases hd : r.direction with
  | maximize =>
    rw [hd] at h
    simp only [ite_eq_right_iff, reduceCtorEq, imp_false, Int64.le_iff_toInt_le] at h ⊢
    split_ifs <;> omega
  | minimize =>
    rw [hd] at h
    simp only [ite_eq_right_iff, reduceCtorEq, imp_false, ge_iff_le,
      Int64.le_iff_toInt_le] at h ⊢
    split_ifs <;> omega

/-- The whole reward is paid exactly at the target. -/
theorem paidAt_eq_reward_iff (h : r.validate = .ok ()) (hreward : 0 < r.reward.toNat)
    (score : Int64) : r.paidAt score = r.reward.toNat ↔ r.AtTarget score := by
  have hspan := span_pos_of_validate h
  have hle := r.progress_le_span score
  have hpaid := r.paidAt_le_reward score
  rw [← progress_eq_span_iff h]
  unfold paidAt at *
  constructor
  · intro heq
    have hmul : r.reward.toNat * r.span ≤ r.reward.toNat * r.progress score := by
      rw [← Nat.le_div_iff_mul_le hspan, heq]
    exact le_antisymm hle (Nat.le_of_mul_le_mul_left hmul hreward)
  · intro heq
    rw [heq, Nat.mul_div_cancel _ hspan]

/-- A path of improvements pays what its last score is worth, however it was
cut into moves. -/
theorem payouts_telescope (r : Ratchet) (hvalid : r.validate = .ok ()) (scores : List Int64)
    (hmoves : r.Moves none scores) :
    (∀ score, ∃ paid, r.cumulative score = .ok paid) ∧
    (∀ old new, ∃ reward, r.payout old new = .ok reward) ∧
    ∃ rewards, r.payouts none scores = .ok rewards ∧
      total rewards ≤ r.reward.toNat ∧
      (∀ first, scores.head? = some first → r.minImprovement.toNat ≤ r.progress first) ∧
      (scores.IsChain fun s t => r.progress s + r.minImprovement.toNat ≤ r.progress t) ∧
      0 < r.minImprovement.toNat ∧
      scores.length ≤ r.span / r.minImprovement.toNat ∧
      ∀ last, scores.getLast? = some last →
        (∃ paid, r.cumulative last = .ok paid ∧ total rewards = paid.toNat) ∧
        (0 < r.reward → (total rewards = r.reward.toNat ↔ r.AtTarget last)) := by
  have hspan := span_pos_of_validate hvalid
  have hmin := minImprovement_pos_of_validate hvalid
  obtain ⟨rewards, hrewards, htotal⟩ := payouts_sum hspan scores none hmoves
  have hzero : r.paidOf none = 0 := rfl
  rw [hzero, Nat.zero_add, Option.or_none] at htotal
  refine ⟨fun score => ⟨_, cumulative_eq hspan score⟩, payout_ok hspan, rewards, hrewards, ?_, ?_,
    ?_, hmin, ?_, ?_⟩
  · rw [htotal]
    cases scores.getLast? with
    | none => exact Nat.zero_le _
    | some last => exact r.paidAt_le_reward last
  · intro first hfirst
    cases scores with
    | nil => cases hfirst
    | cons score rest =>
      cases hfirst
      have hmove := improves_iff.mp hmoves.1
      have hnone : r.progressOf none = 0 := rfl
      omega
  · clear hrewards htotal
    generalize (none : Option Int64) = old at hmoves
    induction scores generalizing old with
    | nil => exact .nil
    | cons s rest ih =>
      cases rest with
      | nil => exact .singleton s
      | cons t rest => exact .cons_cons (improves_iff.mp hmoves.2.1) (ih (some s) hmoves.2)
  · rw [Nat.le_div_iff_mul_le hmin]
    have hlength := length_mul_le scores none hmoves
    have hend : r.progressOf ((scores.getLast?).or none) ≤ r.span := by
      rw [Option.or_none]
      cases scores.getLast? with
      | none => exact Nat.zero_le _
      | some last => exact r.progress_le_span last
    omega
  · intro last hlast
    rw [hlast] at htotal
    have hpaid : total rewards = r.paidAt last := htotal
    constructor
    · exact ⟨_, cumulative_eq hspan last,
        by rw [hpaid, toNat_cumulative hspan (cumulative_eq hspan last)]⟩
    · intro hreward
      rw [hpaid]
      exact paidAt_eq_reward_iff hvalid hreward last

/-- A minimizing ratchet over the whole range of scores, moved twice. -/
theorem payouts_telescope_minimize :
    ∃ rewards, Ratchet.payouts ⟨Int64.maxValue, Int64.minValue, 1000, .minimize, 7⟩ none
      [0, Int64.minValue] = .ok rewards ∧ total rewards ≤ 1000 := by
  obtain ⟨-, -, rewards, hrewards, htotal, -⟩ := payouts_telescope
    ⟨Int64.maxValue, Int64.minValue, 1000, .minimize, 7⟩ (by decide) [0, Int64.minValue] (by decide)
  exact ⟨rewards, hrewards, htotal⟩

end Ratchet

/-! ## Frontier entries -/

structure FrontierEntry where
  objectiveId : String
  claimId : String
  holder : String
  score : Int64
  paidCumulative : UInt64
deriving DecidableEq

namespace FrontierEntry

def toValue (e : FrontierEntry) : Value :=
  .object [("objective_id", .string e.objectiveId), ("claim_id", .string e.claimId),
    ("holder", .string e.holder), ("score", i64Value e.score),
    ("paid_cumulative", u64Value e.paidCumulative)]

def fromValue (value : Value) : Except RatchetError FrontierEntry := do
  Ratchet.expectObject value "frontier"
  let objectiveId ← Ratchet.requiredString value "frontier" "objective_id"
  let claimId ← Ratchet.requiredString value "frontier" "claim_id"
  let holder ← Ratchet.requiredString value "frontier" "holder"
  let score ← Ratchet.requiredI64 value "frontier" "score"
  let paidCumulative ← Ratchet.requiredU64 value "frontier" "paid_cumulative"
  return { objectiveId, claimId, holder, score, paidCumulative }

variable {field record : String} {value : Value}

theorem requiredString_of_get {s : String} (h : value.get field = some (.string s)) :
    Ratchet.requiredString value record field = .ok s := by
  rw [Ratchet.requiredString, Ratchet.required, h]
  rfl

theorem requiredI64_of_get {n : Int64} (h : value.get field = some (i64Value n)) :
    Ratchet.requiredI64 value record field = .ok n := by
  have hraw : Ratchet.requiredInt value record field = .ok (i128OfInt64 n) := by
    rw [Ratchet.requiredInt, Ratchet.required, h]
    rfl
  have hread : Ratchet.toInt64 (i128OfInt64 n) = some n := by
    unfold Ratchet.toInt64 i128OfInt64
    rw [if_pos ⟨n.le_toInt, n.toInt_lt⟩, Int64.ofInt_toInt]
  simp only [Ratchet.requiredI64, hraw, bind, Except.bind, hread, okOr_some]

theorem requiredU64_of_get {n : UInt64} (h : value.get field = some (u64Value n)) :
    Ratchet.requiredU64 value record field = .ok n := by
  have hraw : Ratchet.requiredInt value record field = .ok (.ofUInt64 n) := by
    rw [Ratchet.requiredInt, Ratchet.required, h]
    rfl
  have hread : Ratchet.toUInt64 (.ofUInt64 n) = some n := by
    have hlt := n.toNat_lt
    unfold Ratchet.toUInt64
    rw [if_pos (by simp only [I128.val_ofUInt64]; omega)]
    simp
  simp only [Ratchet.requiredU64, hraw, bind, Except.bind, hread, okOr_some]

/-- A recorded frontier is read back. -/
theorem fromValue_toValue (e : FrontierEntry) : fromValue e.toValue = .ok e := by
  have hid : Ratchet.requiredString e.toValue "frontier" "objective_id" = .ok e.objectiveId :=
    requiredString_of_get (by simp [toValue, Value.get_object, BTreeMap.lookupEntry])
  have hclaim : Ratchet.requiredString e.toValue "frontier" "claim_id" = .ok e.claimId :=
    requiredString_of_get (by simp [toValue, Value.get_object, BTreeMap.lookupEntry])
  have hholder : Ratchet.requiredString e.toValue "frontier" "holder" = .ok e.holder :=
    requiredString_of_get (by simp [toValue, Value.get_object, BTreeMap.lookupEntry])
  have hscore : Ratchet.requiredI64 e.toValue "frontier" "score" = .ok e.score :=
    requiredI64_of_get (by simp [toValue, Value.get_object, BTreeMap.lookupEntry])
  have hpaid : Ratchet.requiredU64 e.toValue "frontier" "paid_cumulative" =
      .ok e.paidCumulative :=
    requiredU64_of_get (by simp [toValue, Value.get_object, BTreeMap.lookupEntry])
  have hobject : Ratchet.expectObject e.toValue "frontier" = .ok () := by
    have hsome : e.toValue.asObject.isSome = true := asObject_object _
    rw [Ratchet.expectObject, if_neg]
    rw [Option.isNone_eq_false_iff.mpr hsome]
    exact Bool.false_ne_true
  rw [fromValue, hobject, hid, hclaim, hholder, hscore, hpaid]
  rfl

end FrontierEntry

end Cairn.Ports
