import Cairn.Verified.Decay
import Cairn.Verified.Checks

/-!
# The confidence number

`confidence_of` of `src/knowledge.rs`: what a reader's policy makes of the
standing of a claim and the voices for and against it. The build checks
overflow, so a plain `+` or `*` of two `u64` that does not fit stops the program;
`none` says so. The number of decay steps that are applied at most is a
parameter here, 64 in `confidenceOf`.
-/

namespace Cairn.Ports.Knowledge

open Cairn.Verified
open Cairn.Verified.Decay

namespace U64

def MAX : Nat := 2 ^ 64 - 1

def fit (n : Nat) : Option Nat := if n ≤ MAX then some n else none

def add (a b : Nat) : Option Nat := fit (a + b)

def mul (a b : Nat) : Option Nat := fit (a * b)

def saturatingMul (a b : Nat) : Nat := min (a * b) MAX

@[simp] theorem fit_eq_some {n m : Nat} : fit n = some m ↔ n ≤ MAX ∧ n = m := by
  unfold fit
  split <;> simp_all

end U64

/-- Where a claim stands once the log has been read whole, in the order in which
one goes before another. -/
inductive Standing where
  | refuted
  | unverified
  | withdrawn
  | superseded
  | contested
  | corroborated
  | accepted
deriving DecidableEq

/-- Whether the claim's own verification still stands. -/
def Standing.wasVerified : Standing → Bool
  | .withdrawn | .superseded | .contested | .corroborated | .accepted => true
  | .refuted | .unverified => false

/-- Whether this node can still re-run the check that accepted a claim. -/
inductive Reproducible where
  | yes
  | notHere
  | unknown
deriving DecidableEq

/-- The reader's weighting, in parts per thousand. -/
structure ConfidencePolicy where
  verified : UInt32
  perCorroboration : UInt32
  maxCorroboration : UInt32
  perRefutation : UInt32
  perDispute : UInt32
  supersededWeight : UInt32
  unreproducibleWeight : UInt32
  decayPeriod : UInt64
  decayRetention : UInt32
  independenceDepth : UInt32

/-- The reader's weighting that the source starts from. -/
def ConfidencePolicy.default : ConfidencePolicy where
  verified := 600
  perCorroboration := 120
  maxCorroboration := 360
  perRefutation := 300
  perDispute := 150
  supersededWeight := 700
  unreproducibleWeight := 400
  decayPeriod := 0
  decayRetention := 950
  independenceDepth := 0

/-- The decay loop. -/
def decay (retention : Nat) : Nat → Nat → Option Nat
  | 0, score => some score
  | steps + 1, score =>
    if score = 0 then some score
    else do
      let kept ← U64.mul score retention
      decay retention steps (kept / 1000)

/-- One of the two weights, for a claim it applies to. -/
def weigh (applies : Prop) [Decidable applies] (weight score : Nat) : Option Nat :=
  if applies then do return (← U64.mul score weight) / 1000 else some score

/-- Decay for the time since the claim, when the policy has any. -/
def decaySince (cap : Nat) (policy : ConfidencePolicy) (epoch asOfEpoch : UInt64) (score : Nat) :
    Option Nat :=
  if 0 < policy.decayPeriod.toNat ∧ epoch.toNat < asOfEpoch.toNat then
    let steps := (asOfEpoch.toNat - epoch.toNat) / policy.decayPeriod.toNat
    decay policy.decayRetention.toNat (min steps cap) score
  else some score

/-- `confidence_of` with at most `cap` steps of decay. -/
def confidenceWithin (cap : Nat) (standing : Standing)
    (corroborations refutations disputes : UInt32) (reproducible : Reproducible)
    (epoch asOfEpoch : UInt64) (policy : ConfidencePolicy) :
    Option Nat := do
  -- its author does not stand behind it
  if standing = .withdrawn then return 0
  if !standing.wasVerified then return 0
  let score ← U64.add policy.verified.toNat
    (min (U64.saturatingMul corroborations.toNat policy.perCorroboration.toNat)
      policy.maxCorroboration.toNat)
  let debit ← U64.add (U64.saturatingMul refutations.toNat policy.perRefutation.toNat)
    (U64.saturatingMul disputes.toNat policy.perDispute.toNat)
  let score := score - debit
  let score ← weigh (standing = .superseded) policy.supersededWeight.toNat score
  let score ← weigh (reproducible = .notHere) policy.unreproducibleWeight.toNat score
  let score ← decaySince cap policy epoch asOfEpoch score
  return min score 1000

def confidenceOf := confidenceWithin 64

/-! ## The number in exact arithmetic -/

theorem decay_eq_some {retention steps score v : Nat} : decay retention steps score = some v ↔
    (∀ n < steps, retained retention 1000 n score * retention ≤ U64.MAX) ∧
      v = retained retention 1000 steps score := by
  induction steps generalizing score with
  | zero => simp [decay, eq_comm]
  | succ steps ih =>
    unfold decay
    split
    · rename_i hzero
      subst hzero
      simp [eq_comm, U64.MAX]
    · constructor
      · intro h
        obtain ⟨kept, hkept, h⟩ := Option.bind_eq_some_iff.mp h
        obtain ⟨hfits, rfl⟩ := U64.fit_eq_some.mp hkept
        obtain ⟨hrest, hv⟩ := ih.mp h
        refine ⟨fun n hn => ?_, hv⟩
        cases n with
        | zero => exact hfits
        | succ n => exact hrest n (by omega)
      · rintro ⟨hall, hv⟩
        have hfits : score * retention ≤ U64.MAX := hall 0 (Nat.succ_pos _)
        refine Option.bind_eq_some_iff.mpr ⟨_, U64.fit_eq_some.mpr ⟨hfits, rfl⟩, ?_⟩
        exact ih.mpr ⟨fun n hn => hall (n + 1) (by omega), hv⟩

theorem weigh_eq_some {applies : Prop} [Decidable applies] {weight score v : Nat} :
    weigh applies weight score = some v ↔
      (applies → score * weight ≤ U64.MAX) ∧
        v = if applies then score * weight / 1000 else score := by
  unfold weigh
  split
  · rename_i h
    constructor
    · intro hsome
      obtain ⟨product, hproduct, hv⟩ := Option.bind_eq_some_iff.mp hsome
      obtain ⟨hfits, rfl⟩ := U64.fit_eq_some.mp hproduct
      exact ⟨fun _ => hfits, (Option.some_inj.mp hv).symm⟩
    · rintro ⟨hfits, rfl⟩
      exact Option.bind_eq_some_iff.mpr ⟨_, U64.fit_eq_some.mpr ⟨hfits h, rfl⟩, rfl⟩
  · rename_i h
    simp [h, eq_comm]

theorem saturatingMul_eq (a b : UInt32) :
    U64.saturatingMul a.toNat b.toNat = a.toNat * b.toNat := by
  have ha := a.toNat_lt
  have hb := b.toNat_lt
  have hle : a.toNat * b.toNat ≤ (2 ^ 32 - 1) * (2 ^ 32 - 1) :=
    Nat.mul_le_mul (by omega) (by omega)
  exact Nat.min_eq_left (hle.trans (by decide))

/-- What `confidence_of` is given. -/
structure Reading where
  standing : Standing
  corroborations : UInt32
  refutations : UInt32
  disputes : UInt32
  reproducible : Reproducible
  epoch : UInt64
  asOfEpoch : UInt64
  policy : ConfidencePolicy

namespace Reading

def confidenceWithin (x : Reading) (cap : Nat) : Option Nat :=
  Knowledge.confidenceWithin cap x.standing x.corroborations x.refutations x.disputes
    x.reproducible x.epoch x.asOfEpoch x.policy

/-- The number as the source has it. -/
def confidence (x : Reading) : Option Nat :=
  confidenceOf x.standing x.corroborations x.refutations x.disputes x.reproducible x.epoch
    x.asOfEpoch x.policy

/-- The standings that do not earn zero at once. -/
def Counts (x : Reading) : Prop := x.standing ≠ .withdrawn ∧ x.standing.wasVerified

/-- The acceptance and the capped corroborations. -/
def credit (x : Reading) : Nat :=
  x.policy.verified.toNat +
    min (x.corroborations.toNat * x.policy.perCorroboration.toNat) x.policy.maxCorroboration.toNat

def debit (x : Reading) : Nat :=
  x.refutations.toNat * x.policy.perRefutation.toNat + x.disputes.toNat * x.policy.perDispute.toNat

/-- What is left under the weight of a superseded claim. -/
def current (x : Reading) : Nat :=
  if x.standing = .superseded then (x.credit - x.debit) * x.policy.supersededWeight.toNat / 1000
  else x.credit - x.debit

/-- What is left under the weight of one that cannot be checked here. -/
def checkable (x : Reading) : Nat :=
  if x.reproducible = .notHere then x.current * x.policy.unreproducibleWeight.toNat / 1000
  else x.current

/-- The decay steps that have elapsed. -/
def elapsed (x : Reading) : Nat :=
  if 0 < x.policy.decayPeriod.toNat ∧ x.epoch.toNat < x.asOfEpoch.toNat then
    (x.asOfEpoch.toNat - x.epoch.toNat) / x.policy.decayPeriod.toNat
  else 0

/-- What decay leaves after some steps. -/
def decayed (x : Reading) (steps : Nat) : Nat :=
  retained x.policy.decayRetention.toNat 1000 steps x.checkable

/-- No product or sum leaves the type, with at most `cap` steps of decay. -/
structure InRange (x : Reading) (cap : Nat) : Prop where
  debit : x.debit ≤ U64.MAX
  superseded : x.standing = .superseded →
    (x.credit - x.debit) * x.policy.supersededWeight.toNat ≤ U64.MAX
  unreproducible : x.reproducible = .notHere →
    x.current * x.policy.unreproducibleWeight.toNat ≤ U64.MAX
  decay : ∀ n < min x.elapsed cap, x.decayed n * x.policy.decayRetention.toNat ≤ U64.MAX

theorem credit_le (x : Reading) : x.credit ≤ 2 ^ 33 := by
  have hverified := x.policy.verified.toNat_lt
  have hmax := x.policy.maxCorroboration.toNat_lt
  unfold credit
  omega

variable {x : Reading}

theorem confidenceWithin_of_not_counts (h : ¬x.Counts) (cap : Nat) :
    x.confidenceWithin cap = some 0 := by
  unfold confidenceWithin Knowledge.confidenceWithin
  unfold Counts at h
  by_cases hwithdrawn : x.standing = .withdrawn
  · rw [if_pos hwithdrawn]
    rfl
  · have hverified : x.standing.wasVerified = false := by
      by_contra hne
      exact h ⟨hwithdrawn, by simpa using hne⟩
    rw [if_neg hwithdrawn, if_pos (by rw [hverified]; rfl)]
    rfl

theorem decaySince_eq (x : Reading) (cap score : Nat) :
    decaySince cap x.policy x.epoch x.asOfEpoch score =
      Knowledge.decay x.policy.decayRetention.toNat (min x.elapsed cap) score := by
  unfold decaySince elapsed
  split
  · rfl
  · rw [Nat.zero_min]
    rfl

/-- The number, and when there is one. -/
theorem confidenceWithin_eq_some (h : x.Counts) {cap v : Nat} :
    x.confidenceWithin cap = some v ↔
      x.InRange cap ∧ v = min (x.decayed (min x.elapsed cap)) 1000 := by
  have hcredit : U64.add x.policy.verified.toNat
      (min (x.corroborations.toNat * x.policy.perCorroboration.toNat)
        x.policy.maxCorroboration.toNat) = some x.credit :=
    U64.fit_eq_some.mpr ⟨x.credit_le.trans (by decide), rfl⟩
  unfold confidenceWithin Knowledge.confidenceWithin
  rw [if_neg h.1, if_neg (by simp [h.2])]
  simp only [saturatingMul_eq, hcredit, decaySince_eq]
  constructor
  · intro hsome
    obtain ⟨score, hscore, hsome⟩ := Option.bind_eq_some_iff.mp hsome
    obtain rfl := Option.some_inj.mp hscore
    obtain ⟨debit, hsum, hsome⟩ := Option.bind_eq_some_iff.mp hsome
    obtain ⟨hdebit, rfl⟩ := U64.fit_eq_some.mp hsum
    obtain ⟨current, hcurrent, hsome⟩ := Option.bind_eq_some_iff.mp hsome
    obtain ⟨hsuperseded, rfl⟩ := weigh_eq_some.mp hcurrent
    obtain ⟨checkable, hcheckable, hsome⟩ := Option.bind_eq_some_iff.mp hsome
    obtain ⟨hunreproducible, rfl⟩ := weigh_eq_some.mp hcheckable
    obtain ⟨left, hleft, hsome⟩ := Option.bind_eq_some_iff.mp hsome
    obtain ⟨hdecay, rfl⟩ := decay_eq_some.mp hleft
    exact ⟨⟨hdebit, hsuperseded, hunreproducible, hdecay⟩, (Option.some_inj.mp hsome).symm⟩
  · rintro ⟨hrange, rfl⟩
    refine Option.bind_eq_some_iff.mpr ⟨_, rfl, ?_⟩
    refine Option.bind_eq_some_iff.mpr ⟨_, U64.fit_eq_some.mpr ⟨hrange.debit, rfl⟩, ?_⟩
    refine Option.bind_eq_some_iff.mpr ⟨_, weigh_eq_some.mpr ⟨hrange.superseded, rfl⟩, ?_⟩
    refine Option.bind_eq_some_iff.mpr ⟨_, weigh_eq_some.mpr ⟨hrange.unreproducible, rfl⟩, ?_⟩
    exact Option.bind_eq_some_iff.mpr ⟨_, decay_eq_some.mpr ⟨hrange.decay, rfl⟩, rfl⟩

/-! ## Monotonicity -/

/-- Readings that differ in the voices or in the moment only, the second with no
more behind it. -/
structure Below (x y : Reading) : Prop where
  standing : y.standing = x.standing
  reproducible : y.reproducible = x.reproducible
  policy : y.policy = x.policy
  credit : y.credit ≤ x.credit
  debit : x.debit ≤ y.debit
  elapsed : y.elapsed = x.elapsed ∨ x.policy.decayRetention.toNat ≤ 1000 ∧ x.elapsed ≤ y.elapsed

theorem checkable_le {x y : Reading} (h : Below x y) : y.checkable ≤ x.checkable := by
  have hscore : y.credit - y.debit ≤ x.credit - x.debit := by
    have := h.credit
    have := h.debit
    omega
  have hcurrent : y.current ≤ x.current := by
    unfold current
    rw [h.standing, h.policy]
    split
    · exact Nat.div_le_div_right (Nat.mul_le_mul_right _ hscore)
    · exact hscore
  unfold checkable
  rw [h.reproducible, h.policy]
  split
  · exact Nat.div_le_div_right (Nat.mul_le_mul_right _ hcurrent)
  · exact hcurrent

/-- Less behind a claim gives no higher number. -/
theorem confidenceWithin_mono {x y : Reading} (h : Below x y) {cap v w : Nat}
    (hx : x.confidenceWithin cap = some v) (hy : y.confidenceWithin cap = some w) : w ≤ v := by
  by_cases hcounts : x.Counts
  · have hcounts' : y.Counts := by
      unfold Counts
      rw [h.standing]
      exact hcounts
    obtain ⟨-, rfl⟩ := (confidenceWithin_eq_some hcounts).mp hx
    obtain ⟨-, rfl⟩ := (confidenceWithin_eq_some hcounts').mp hy
    have hscore := retained_mono (r := x.policy.decayRetention.toNat) (d := 1000)
      (min y.elapsed cap) (checkable_le h)
    have hsteps : x.decayed (min y.elapsed cap) ≤ x.decayed (min x.elapsed cap) := by
      rcases h.elapsed with heq | ⟨hretention, hle⟩
      · rw [heq]
      · exact retained_antitone hretention (by omega) _
    have hpolicy : y.decayed (min y.elapsed cap) =
        retained x.policy.decayRetention.toNat 1000 (min y.elapsed cap) y.checkable := by
      rw [decayed, h.policy]
    rw [hpolicy]
    unfold decayed at hsteps ⊢
    omega
  · have hcounts' : ¬y.Counts := by
      unfold Counts
      rw [h.standing]
      exact hcounts
    rw [confidenceWithin_of_not_counts hcounts'] at hy
    obtain rfl := Option.some_inj.mp hy
    exact Nat.zero_le v

/-! ## The limit on decay steps -/

/-- What decay starts from fits a thousandfold. -/
theorem checkable_fits {cap : Nat} (h : x.InRange cap) :
    x.checkable * 1000 ≤ U64.MAX := by
  have hthousand : ∀ product, product ≤ U64.MAX → product / 1000 * 1000 ≤ U64.MAX :=
    fun product hle => (Nat.div_mul_le_self product 1000).trans hle
  have hscore : (x.credit - x.debit) * 1000 ≤ U64.MAX := by
    have := x.credit_le
    unfold U64.MAX
    omega
  have hcurrent : x.current * 1000 ≤ U64.MAX := by
    unfold current
    split
    · exact hthousand _ (h.superseded ‹_›)
    · exact hscore
  unfold checkable
  split
  · exact hthousand _ (h.unreproducible ‹_›)
  · exact hcurrent

/-- Decay that raises nothing stays in range for as long as it goes on. -/
theorem InRange.any_cap {cap : Nat} (h : x.InRange cap)
    (hretention : x.policy.decayRetention.toNat ≤ 1000) (cap' : Nat) : x.InRange cap' where
  debit := h.debit
  superseded := h.superseded
  unreproducible := h.unreproducible
  decay n _ := by
    have hle : x.decayed n ≤ x.checkable :=
      retained_antitone hretention (Nat.zero_le n) x.checkable
    exact (Nat.mul_le_mul hle hretention).trans (checkable_fits h)

theorem elapsed_le (x : Reading) : x.elapsed ≤ U64.MAX := by
  unfold elapsed
  split
  · have hlt := x.asOfEpoch.toNat_lt
    have hdiv := Nat.div_le_self (x.asOfEpoch.toNat - x.epoch.toNat) x.policy.decayPeriod.toNat
    unfold U64.MAX
    omega
  · exact Nat.zero_le _

/-- When stopping after 64 steps does not show. -/
def CapFree (x : Reading) : Prop :=
  x.elapsed ≤ 64 ∨ x.policy.decayRetention.toNat = 1000 ∨ x.decayed 64 = 0 ∨
    1000 ≤ x.decayed x.elapsed

theorem min_decayed_iff (hretention : x.policy.decayRetention.toNat ≤ 1000) :
    min (x.decayed (min x.elapsed 64)) 1000 = min (x.decayed x.elapsed) 1000 ↔ x.CapFree := by
  unfold CapFree
  rcases Nat.lt_or_ge 64 x.elapsed with hlt | hle
  · rw [Nat.min_eq_right hlt.le, or_iff_right hlt.not_ge]
    exact min_retained_eq_iff (by decide) hretention hlt
  · rw [Nat.min_eq_left hle]
    exact iff_of_true rfl (.inl hle)

theorem confidence_eq (x : Reading) : x.confidence = x.confidenceWithin 64 := rfl

/-- Whether the number is the one that every elapsed step would give. -/
theorem cap_iff (hcounts : x.Counts) (hrange : x.InRange 64)
    (hretention : x.policy.decayRetention.toNat ≤ 1000) :
    x.confidenceWithin U64.MAX = x.confidence ↔ x.CapFree := by
  have hall : min x.elapsed U64.MAX = x.elapsed := Nat.min_eq_left x.elapsed_le
  rw [confidence_eq, (confidenceWithin_eq_some hcounts).mpr ⟨hrange, rfl⟩,
    (confidenceWithin_eq_some hcounts).mpr ⟨hrange.any_cap hretention U64.MAX, rfl⟩, hall,
    Option.some_inj, eq_comm]
  exact min_decayed_iff hretention

/-- A number up to a thousand that moves with the voices and the time as it
should, and that every elapsed decay step would give as well. -/
structure Confident (x : Reading) : Prop where
  bounded : ∃ v ≤ 1000, x.confidence = some v
  refutations : ∀ more ≥ x.refutations, ∀ v w, x.confidence = some v →
    { x with refutations := more }.confidence = some w → w ≤ v
  disputes : ∀ more ≥ x.disputes, ∀ v w, x.confidence = some v →
    { x with disputes := more }.confidence = some w → w ≤ v
  corroborations : ∀ more ≥ x.corroborations, ∀ v w, x.confidence = some v →
    { x with corroborations := more }.confidence = some w → v ≤ w
  asOfEpoch : x.policy.decayRetention.toNat ≤ 1000 → ∀ later ≥ x.asOfEpoch, ∀ v w,
    x.confidence = some v → { x with asOfEpoch := later }.confidence = some w → w ≤ v
  cap : x.policy.decayRetention.toNat ≤ 1000 → x.confidenceWithin U64.MAX = x.confidence

theorem elapsed_mono {later : UInt64} (h : x.asOfEpoch ≤ later) :
    x.elapsed ≤ { x with asOfEpoch := later }.elapsed := by
  have hle : x.asOfEpoch.toNat ≤ later.toNat := h
  unfold elapsed
  dsimp only
  split
  · rename_i hnow
    rw [if_pos ⟨hnow.1, by omega⟩]
    exact Nat.div_le_div_right (by omega)
  · exact Nat.zero_le _

/-- The number is what it should be exactly when it earns zero at once, or when
nothing overflows and the limit on decay steps does not show. -/
theorem confident_iff (x : Reading) : x.Confident ↔
    (x.Counts → x.InRange 64 ∧ (x.policy.decayRetention.toNat ≤ 1000 → x.CapFree)) := by
  constructor
  · intro h hcounts
    obtain ⟨v, -, hv⟩ := h.bounded
    obtain ⟨hrange, rfl⟩ := (confidenceWithin_eq_some hcounts).mp hv
    exact ⟨hrange, fun hretention => (cap_iff hcounts hrange hretention).mp (h.cap hretention)⟩
  · intro h
    refine
      { bounded := ?_
        refutations := fun more hmore v w hv hw => ?_
        disputes := fun more hmore v w hv hw => ?_
        corroborations := fun more hmore v w hv hw => ?_
        asOfEpoch := fun hretention later hlater v w hv hw => ?_
        cap := fun hretention => ?_ }
    · by_cases hcounts : x.Counts
      · exact ⟨_, Nat.min_le_right _ _,
          (confidenceWithin_eq_some hcounts).mpr ⟨(h hcounts).1, rfl⟩⟩
      · exact ⟨0, Nat.zero_le _, confidenceWithin_of_not_counts hcounts 64⟩
    · have hbelow : Below x { x with refutations := more } :=
        ⟨rfl, rfl, rfl, le_refl _, Nat.add_le_add_right (Nat.mul_le_mul_right _ hmore) _, .inl rfl⟩
      exact confidenceWithin_mono hbelow hv hw
    · have hbelow : Below x { x with disputes := more } :=
        ⟨rfl, rfl, rfl, le_refl _, Nat.add_le_add_left (Nat.mul_le_mul_right _ hmore) _, .inl rfl⟩
      exact confidenceWithin_mono hbelow hv hw
    · have hmul := Nat.mul_le_mul_right x.policy.perCorroboration.toNat
        (show x.corroborations.toNat ≤ more.toNat from hmore)
      have hcredit : x.credit ≤ { x with corroborations := more }.credit := by
        unfold credit
        dsimp only
        omega
      have hbelow : Below { x with corroborations := more } x :=
        ⟨rfl, rfl, rfl, hcredit, le_refl _, .inl rfl⟩
      exact confidenceWithin_mono hbelow hw hv
    · have hbelow : Below x { x with asOfEpoch := later } :=
        ⟨rfl, rfl, rfl, le_refl _, le_refl _, .inr ⟨hretention, elapsed_mono hlater⟩⟩
      exact confidenceWithin_mono hbelow hv hw
    · by_cases hcounts : x.Counts
      · obtain ⟨hrange, hfree⟩ := h hcounts
        exact (cap_iff hcounts hrange hretention).mpr (hfree hretention)
      · rw [confidence_eq, confidenceWithin_of_not_counts hcounts,
          confidenceWithin_of_not_counts hcounts]

/-- An accepted claim under the source's own weights, with a decay step an epoch. -/
def sampleFading : Reading where
  standing := .accepted
  corroborations := 0
  refutations := 0
  disputes := 0
  reproducible := .yes
  epoch := 0
  asOfEpoch := 65
  policy := { ConfidencePolicy.default with decayPeriod := 1 }

/-- The same claim, disputed and refuted as often and as dearly as the types allow. -/
def sampleDisputed : Reading where
  standing := .contested
  corroborations := 0
  refutations := 4294967295
  disputes := 4294967295
  reproducible := .yes
  epoch := 0
  asOfEpoch := 0
  policy := { ConfidencePolicy.default with perRefutation := 4294967295, perDispute := 4294967295 }

set_option maxRecDepth 2000 in
/-- After 64 steps not everything is gone, and two debits may overflow. -/
theorem not_confident : ¬sampleFading.Confident ∧ ¬sampleDisputed.Confident := by
  constructor
  · intro h
    have hcounts : sampleFading.Counts := ⟨by decide, by decide⟩
    obtain ⟨v, -, hv⟩ := h.bounded
    obtain ⟨hrange, -⟩ := (confidenceWithin_eq_some hcounts).mp hv
    have hfree := (cap_iff hcounts hrange (by decide)).mp (h.cap (by decide))
    exact absurd hfree (by unfold CapFree; decide)
  · intro h
    obtain ⟨v, -, hv⟩ := h.bounded
    obtain ⟨hrange, -⟩ := (confidenceWithin_eq_some ⟨by decide, by decide⟩).mp hv
    exact absurd hrange.debit (by decide)

end Reading

end Cairn.Ports.Knowledge
