import Cairn.Ports.Node.Opening
import Cairn.Verified.Abort
import Cairn.Verified.Apportion

/-!
# What an answered promise earns

The arithmetic of `availability_settlement_at`. The pools of an epoch offer a sum, and
each identity that answered gets its part by bond, rounded down by `mul_div_floor`, whose
long division never leaves its type. What the floors cut off stays unpaid.

Rounding is also all that splitting a promise under several names can cost or gain.
-/

namespace Cairn.Ports

open Cairn.Verified
open Cairn.Ports.Canonical

/-! ## The long division -/

/-- The loop of `mul_div_floor` after the bits of the weight from `i` on: the quotient and the
residue so far are those of the product with these bits. -/
structure DividedTo (remainder weight total i : Nat) (state : Nat × Nat) : Prop where
  product : state.1 * total + state.2 = remainder * (weight / 2 ^ i)
  residue_lt : state.2 < total

variable {quotient remainder residue total weight : Nat}

theorem quotient_le {factor : Nat} (hlt : remainder < total)
    (h : quotient * total + residue = remainder * factor) : quotient ≤ factor := by
  have hle : quotient * total ≤ factor * total := by
    calc quotient * total ≤ remainder * factor := by omega
      _ ≤ total * factor := Nat.mul_le_mul_right _ hlt.le
      _ = factor * total := Nat.mul_comm _ _
  exact Nat.le_of_mul_le_mul_right hle (by omega)

theorem div_pow_eq (weight i : Nat) :
    weight / 2 ^ i = 2 * (weight / 2 ^ (i + 1)) + if weight.testBit i then 1 else 0 := by
  have hhalf : weight / 2 ^ (i + 1) = weight / 2 ^ i / 2 := by
    rw [pow_succ, Nat.div_div_eq_div_mul]
  rw [hhalf, Nat.testBit_eq_decide_div_mod_eq]
  split_ifs with h
  · have hodd : weight / 2 ^ i % 2 = 1 := by simpa using h
    omega
  · have heven : weight / 2 ^ i % 2 ≠ 1 := by simpa using h
    omega

/-- Doubling keeps the equation for twice the factor. -/
theorem double_spec {product : Nat} (h : quotient * total + residue = product)
    (hlt : residue < total) :
    (if residue ≥ total - residue then (quotient * 2 + 1, residue - (total - residue))
      else (quotient * 2, residue * 2)).1 * total +
    (if residue ≥ total - residue then (quotient * 2 + 1, residue - (total - residue))
      else (quotient * 2, residue * 2)).2 = 2 * product ∧
    (if residue ≥ total - residue then (quotient * 2 + 1, residue - (total - residue))
      else (quotient * 2, residue * 2)).2 < total := by
  have htwice : quotient * 2 * total = 2 * (quotient * total) := by
    rw [Nat.mul_comm quotient 2, Nat.mul_assoc]
  split_ifs with hcarry
  · refine ⟨?_, by omega⟩
    rw [Nat.add_mul, Nat.one_mul, htwice]
    dsimp only
    omega
  · refine ⟨?_, by omega⟩
    dsimp only
    rw [htwice]
    omega

/-- Adding the remainder once keeps the equation for one more of the factor. -/
theorem add_spec {product : Nat} (h : quotient * total + residue = product) (hlt : residue < total)
    (hremainder : remainder < total) :
    (if residue ≥ total - remainder then (quotient + 1, residue - (total - remainder))
      else (quotient, residue + remainder)).1 * total +
    (if residue ≥ total - remainder then (quotient + 1, residue - (total - remainder))
      else (quotient, residue + remainder)).2 = product + remainder ∧
    (if residue ≥ total - remainder then (quotient + 1, residue - (total - remainder))
      else (quotient, residue + remainder)).2 < total := by
  split_ifs with hcarry
  · refine ⟨?_, by omega⟩
    rw [Nat.add_mul, Nat.one_mul]
    omega
  · dsimp only
    exact ⟨by omega, by omega⟩

theorem guard_eq_some {p : Prop} [Decidable p] (h : p) : (guard p : Option Unit) = some () :=
  if_pos h

theorem mulDivStep_spec {i : Nat} {state : Nat × Nat} (hremainder : remainder < total)
    (hweight : weight < 2 ^ 128) (h : DividedTo remainder weight total (i + 1) state) :
    ∃ state', mulDivStep remainder weight total state i = some state' ∧
      DividedTo remainder weight total i state' := by
  rcases state with ⟨quotient, residue⟩
  have hbits := div_pow_eq weight i
  have hsmall : weight / 2 ^ i < 2 ^ 128 := lt_of_le_of_lt (Nat.div_le_self _ _) hweight
  have hproduct : quotient * total + residue = remainder * (weight / 2 ^ (i + 1)) := h.product
  have hdouble := double_spec hproduct h.residue_lt
  rw [show 2 * (remainder * (weight / 2 ^ (i + 1))) = remainder * (2 * (weight / 2 ^ (i + 1))) by
    rw [Nat.mul_left_comm]] at hdouble
  have hquotient := quotient_le hremainder hproduct
  unfold mulDivStep
  dsimp only
  generalize (if residue ≥ total - residue then (quotient * 2 + 1, residue - (total - residue))
    else (quotient * 2, residue * 2)) = doubled at hdouble ⊢
  rcases doubled with ⟨quotient₁, residue₁⟩
  rcases hdouble with ⟨hproduct₁, hlt₁⟩
  have hquotient₁ := quotient_le hremainder hproduct₁
  have hfits : quotient * 2 < 2 ^ 128 ∧ quotient₁ < 2 ^ 128 := by
    split_ifs at hbits <;> omega
  by_cases hbit : weight.testBit i = true
  · rw [if_pos hbit] at hbits
    have hadd := add_spec hproduct₁ hlt₁ hremainder
    simp only [if_pos hbit]
    generalize (if residue₁ ≥ total - remainder then
      (quotient₁ + 1, residue₁ - (total - remainder))
      else (quotient₁, residue₁ + remainder)) = added at hadd ⊢
    rcases added with ⟨quotient₂, residue₂⟩
    rcases hadd with ⟨hproduct₂, hlt₂⟩
    have hproduct' : quotient₂ * total + residue₂ = remainder * (weight / 2 ^ i) := by
      rw [hbits, Nat.mul_add, Nat.mul_one]
      exact hproduct₂
    have hquotient₂ := quotient_le hremainder hproduct'
    refine ⟨(quotient₂, residue₂), ?_, hproduct', hlt₂⟩
    have hfits₂ : quotient₂ < 2 ^ 128 := by omega
    simp only [guard_eq_some hfits.1, guard_eq_some hfits.2, guard_eq_some hfits₂]
    rfl
  · rw [if_neg hbit, Nat.add_zero] at hbits
    refine ⟨(quotient₁, residue₁), ?_, ?_, hlt₁⟩
    · simp only [if_neg hbit, guard_eq_some hfits.1, guard_eq_some hfits.2]
      rfl
    · rw [hbits]
      exact hproduct₁

theorem foldlM_mulDivStep (hremainder : remainder < total) (hweight : weight < 2 ^ 128) (bits : Nat)
    {state : Nat × Nat} (h : DividedTo remainder weight total bits state) :
    ∃ state', (List.range bits).reverse.foldlM (mulDivStep remainder weight total) state =
      some state' ∧ DividedTo remainder weight total 0 state' := by
  induction bits generalizing state with
  | zero => exact ⟨state, rfl, h⟩
  | succ bits ih =>
    rcases mulDivStep_spec hremainder hweight h with ⟨next, hstep, hnext⟩
    rcases ih hnext with ⟨last, hrun, hlast⟩
    refine ⟨last, ?_, hlast⟩
    rw [List.range_succ, List.reverse_append, List.reverse_singleton, List.singleton_append,
      List.foldlM_cons, hstep]
    exact hrun

/-- `mul_div_floor` is the floor, wherever the weight is a part of the total. -/
theorem mulDivFloor_eq {value : Nat} (hvalue : value < 2 ^ 128) (htotal : total < 2 ^ 128)
    (hpos : 0 < total) (hle : weight ≤ total) :
    mulDivFloor value weight total = some (value * weight / total) := by
  have hremainder : value % total < total := Nat.mod_lt _ hpos
  have hstart : DividedTo (value % total) weight total 128 (0, 0) := by
    refine ⟨?_, hpos⟩
    rw [Nat.div_eq_of_lt (by omega)]
    simp
  rcases foldlM_mulDivStep hremainder (by omega) 128 hstart with ⟨⟨quotient, residue⟩, hrun, hlast⟩
  have hproduct : quotient * total + residue = value % total * weight := by
    have := hlast.product
    rwa [pow_zero, Nat.div_one] at this
  have hwhole : value / total * weight ≤ value := by
    calc value / total * weight ≤ value / total * total := Nat.mul_le_mul_left _ hle
      _ ≤ value := Nat.div_mul_le_self _ _
  have hexact : value / total * weight + quotient = value * weight / total := by
    have hsplit : value * weight =
        residue + total * (value / total * weight + quotient) := by
      have hvalueSplit := Nat.div_add_mod value total
      calc value * weight = (total * (value / total) + value % total) * weight := by
            rw [hvalueSplit]
        _ = total * (value / total * weight) + value % total * weight := by
            rw [Nat.add_mul, Nat.mul_assoc]
        _ = residue + total * (value / total * weight + quotient) := by
            rw [← hproduct, Nat.mul_add, Nat.mul_comm total quotient]
            omega
    rw [hsplit, Nat.add_mul_div_left _ _ hpos, Nat.div_eq_of_lt hlast.residue_lt, Nat.zero_add]
  have hfits : value / total * weight + quotient ≤ value := by
    rw [hexact]
    exact Nat.div_le_of_le_mul (by
      rw [Nat.mul_comm total]
      exact Nat.mul_le_mul_left _ hle)
  unfold mulDivFloor
  rw [if_neg (by omega), if_neg (by omega), hrun]
  have hguard : value / total * weight < 2 ^ 128 := by omega
  have hguard' : value / total * weight + quotient < 2 ^ 128 := by omega
  simp only [guard_eq_some hguard]
  show ((guard (value / total * weight + quotient < 2 ^ 128) : Option Unit).bind fun _ =>
    some (value / total * weight + quotient)) = _
  rw [guard_eq_some hguard', hexact]
  rfl

theorem mulDivFloor_of_le {value : Nat} (hvalue : value < 2 ^ 128) (htotal : total < 2 ^ 128)
    (hle : weight ≤ total) : mulDivFloor value weight total = some (value * weight / total) := by
  rcases Nat.eq_zero_or_pos total with hzero | hpos
  · rw [mulDivFloor, if_pos hzero, hzero, Nat.div_zero]
  · exact mulDivFloor_eq hvalue htotal hpos hle

/-! ## Every step in its type

The same division with each operation as the source writes it: the checked ones end the
function with `None`, and a plain one that leaves `u128` stops the program. -/

/-- `checked_add` and `checked_mul` with `?`. -/
def checkedU128 (n : Nat) : Except (Abort Unit) Nat :=
  orError () (if n < 2 ^ 128 then some n else none)

/-- A plain `+` or `*`. -/
def plainU128 (n : Nat) : Except (Abort Unit) Nat :=
  orPanic (if n < 2 ^ 128 then some n else none)

/-- A plain `-`. -/
def minusU128 (a b : Nat) : Except (Abort Unit) Nat :=
  orPanic (if b ≤ a then some (a - b) else none)

theorem checkedU128_of_lt {n : Nat} (h : n < 2 ^ 128) : checkedU128 n = .ok n := by
  rw [checkedU128, if_pos h, orError]

theorem plainU128_of_lt {n : Nat} (h : n < 2 ^ 128) : plainU128 n = .ok n := by
  rw [plainU128, if_pos h, orPanic]

theorem minusU128_of_le {a b : Nat} (h : b ≤ a) : minusU128 a b = .ok (a - b) := by
  rw [minusU128, if_pos h, orPanic]

/-- `residue` and `addend` added modulo `total`, the carry into the quotient; doubling adds
the residue to itself. -/
def addModulo (total addend : Nat) (grown : Nat) (quotient residue : Nat) :
    Except (Abort Unit) (Nat × Nat) := do
  if residue ≥ (← minusU128 total addend) then
    let residue ← minusU128 residue (← minusU128 total addend)
    let quotient ← checkedU128 (quotient + 1)
    return (quotient, residue)
  else
    let residue ← plainU128 grown
    return (quotient, residue)

/-- One bit of the loop of `mul_div_floor`. -/
def mulDivBit (remainder weight total : Nat) (state : Nat × Nat) (bit : Nat) :
    Except (Abort Unit) (Nat × Nat) := do
  let (quotient, residue) := state
  let quotient ← checkedU128 (quotient * 2)
  let (quotient, residue) ← addModulo total residue (residue * 2) quotient residue
  if (weight >>> bit) &&& 1 == 1 then
    addModulo total remainder (residue + remainder) quotient residue
  else return (quotient, residue)

/-- `mul_div_floor`, step by step. -/
def mulDivFloorSteps (value weight total : Nat) : Except (Abort Unit) Nat := do
  if total = 0 then return 0
  if weight > total then throw (.error ())
  let whole ← checkedU128 (value / total * weight)
  let remainder := value % total
  let (quotient, _) ← (List.range 128).reverse.foldlM (mulDivBit remainder weight total) (0, 0)
  checkedU128 (whole + quotient)

theorem addModulo_ok {addend grown : Nat} (haddend : addend ≤ total)
    (hfits : (if residue ≥ total - addend then (quotient + 1, residue - (total - addend))
      else (quotient, grown)).1 < 2 ^ 128)
    (hgrown : residue < total - addend → grown < 2 ^ 128) :
    addModulo total addend grown quotient residue =
      .ok (if residue ≥ total - addend then (quotient + 1, residue - (total - addend))
        else (quotient, grown)) := by
  unfold addModulo
  rw [minusU128_of_le haddend]
  by_cases hcarry : residue ≥ total - addend
  · rw [if_pos hcarry] at hfits
    simp only [bind, Except.bind, if_pos hcarry, minusU128_of_le hcarry, checkedU128_of_lt hfits]
    rfl
  · simp only [bind, Except.bind, if_neg hcarry, plainU128_of_lt (hgrown (Nat.lt_of_not_le hcarry))]
    rfl

theorem testBit_eq_shift (weight bit : Nat) :
    ((weight >>> bit) &&& 1 == 1) = weight.testBit bit := by
  rw [Nat.testBit, Nat.and_comm]
  rcases Nat.mod_two_eq_zero_or_one (weight >>> bit) with h | h <;> simp [h]

/-- A bit that is processed without `None` is processed without leaving the type. -/
theorem mulDivBit_of_step {bit : Nat} {state state' : Nat × Nat} (htotal : total < 2 ^ 128)
    (hremainder : remainder < total) (hresidue : state.2 < total)
    (h : mulDivStep remainder weight total state bit = some state') :
    mulDivBit remainder weight total state bit = .ok state' := by
  rcases state with ⟨quotient, residue⟩
  have hlt : residue < total := hresidue
  have hdouble := (@double_spec quotient residue total (quotient * total + residue) rfl hlt).2
  have hdoubled := @addModulo_ok (quotient * 2) residue total residue (residue * 2) hlt.le
  unfold mulDivStep at h
  unfold mulDivBit
  dsimp only at h ⊢
  generalize (if residue ≥ total - residue then (quotient * 2 + 1, residue - (total - residue))
    else (quotient * 2, residue * 2)) = doubled at h hdouble hdoubled
  rcases doubled with ⟨quotient₁, residue₁⟩
  have hadded := @addModulo_ok quotient₁ residue₁ total remainder (residue₁ + remainder)
    hremainder.le
  simp only [Option.bind_eq_bind, Option.bind_eq_some_iff, Option.guard_eq_some'] at h
  obtain ⟨-, hquotient, -, hquotient₁, -, hquotient₂, hstate⟩ := h
  rw [checkedU128_of_lt hquotient]
  simp only [bind, Except.bind]
  rw [hdoubled hquotient₁ (fun _ => by omega), testBit_eq_shift]
  dsimp only
  by_cases hbit : weight.testBit bit = true
  · rw [if_pos hbit] at hquotient₂ hstate
    rw [if_pos hbit, hadded hquotient₂ (fun _ => by omega)]
    exact congrArg Except.ok (Option.some.inj hstate)
  · rw [if_neg hbit] at hstate
    rw [if_neg hbit]
    exact congrArg Except.ok (Option.some.inj hstate)

theorem foldlM_mulDivBit (htotal : total < 2 ^ 128) (hremainder : remainder < total)
    (hweight : weight < 2 ^ 128) (bits : Nat) {state : Nat × Nat}
    (h : DividedTo remainder weight total bits state) :
    ∃ state', (List.range bits).reverse.foldlM (mulDivStep remainder weight total) state =
        some state' ∧
      (List.range bits).reverse.foldlM (mulDivBit remainder weight total) state = .ok state' := by
  induction bits generalizing state with
  | zero => exact ⟨state, rfl, rfl⟩
  | succ bits ih =>
    rcases mulDivStep_spec hremainder hweight h with ⟨next, hstep, hnext⟩
    rcases ih hnext with ⟨last, hrun, hrun'⟩
    refine ⟨last, ?_⟩
    rw [List.range_succ, List.reverse_append, List.reverse_singleton, List.singleton_append,
      List.foldlM_cons, List.foldlM_cons, hstep,
      mulDivBit_of_step htotal hremainder h.residue_lt hstep]
    exact ⟨hrun, hrun'⟩

/-- Over the whole range the division returns the floor: nothing overflows or underflows on
the way, and `None` is not returned. -/
theorem mulDivFloorSteps_exact {value : Nat} (hvalue : value < 2 ^ 128) (htotal : total < 2 ^ 128)
    (hpos : 0 < total) (hle : weight ≤ total) :
    mulDivFloorSteps value weight total = .ok (value * weight / total) := by
  have hfloor := mulDivFloor_eq hvalue htotal hpos hle
  have hstart : DividedTo (value % total) weight total 128 (0, 0) := by
    refine ⟨?_, hpos⟩
    rw [Nat.div_eq_of_lt (by omega)]
    simp
  rcases foldlM_mulDivBit htotal (Nat.mod_lt _ hpos) (by omega) 128 hstart with
    ⟨⟨quotient, residue⟩, hrun, hrun'⟩
  unfold mulDivFloor at hfloor
  rw [if_neg (by omega), if_neg (by omega), hrun] at hfloor
  simp only [Option.bind_eq_bind, Option.bind_some, Option.bind_eq_some_iff,
    Option.guard_eq_some'] at hfloor
  obtain ⟨-, hwhole, -, hsum, hresult⟩ := hfloor
  unfold mulDivFloorSteps
  rw [if_neg (by omega), if_neg (by omega)]
  simp only [bind, Except.bind, checkedU128_of_lt hwhole, hrun',
    checkedU128_of_lt hsum]
  exact congrArg Except.ok (Option.some.inj hresult)

theorem mulDivFloorSteps_exact_max :
    mulDivFloorSteps (2 ^ 128 - 1) (2 ^ 128 - 2) (2 ^ 128 - 1) =
      .ok ((2 ^ 128 - 1) * (2 ^ 128 - 2) / (2 ^ 128 - 1)) :=
  mulDivFloorSteps_exact (by decide) (by decide) (by decide) (by decide)

namespace Log

/-! ## The rows of a settlement -/

theorem tryUInt64_eq (n : Nat) :
    (n < 2 ^ 64 ∧ tryUInt64 n = some (UInt64.ofNat n) ∧ (UInt64.ofNat n).toNat = n) ∨
      2 ^ 64 ≤ n ∧ tryUInt64 n = none := by
  unfold tryUInt64
  by_cases h : n < 2 ^ 64
  · exact Or.inl ⟨h, if_pos h, UInt64.toNat_ofNat_of_lt' h⟩
  · exact Or.inr ⟨by omega, if_neg h⟩

theorem checkedInt_eq (n : Nat) :
    (n < 2 ^ 127 ∧ ∃ i : I128, i.val = n ∧ checkedInt n = .ok (.int i)) ∨
      2 ^ 127 ≤ n ∧ checkedInt n = .error .availabilityArithmeticOverflow := by
  unfold checkedInt I128.ofInt?
  by_cases h : n < 2 ^ 127
  · rw [dif_pos ⟨by omega, by omega⟩]
    exact Or.inl ⟨h, _, rfl, rfl⟩
  · rw [dif_neg fun hle => h (by omega)]
    exact Or.inr ⟨by omega, rfl⟩

theorem checkedInt_error {n : Nat} {error : RuleViolation} (h : checkedInt n = .error error) :
    error = .availabilityArithmeticOverflow ∧ 2 ^ 127 ≤ n := by
  rcases checkedInt_eq n with ⟨-, i, -, hok⟩ | ⟨hlarge, herror⟩
  · rw [hok] at h
    cases h
  · rw [herror] at h
    cases h
    exact ⟨rfl, hlarge⟩

/-- What the floors of an offer are, by weight: either they fit, or one of them does not. -/
theorem awards_spec {offered total : Nat} (hoffered : offered < 2 ^ 128) (htotal : total < 2 ^ 128)
    (rows : List (String × Nat)) (hrows : ∀ row ∈ rows, row.2 ≤ total) :
    match awards offered total rows with
    | .ok shares => shares.map (fun row => (row.1, row.2.1.toNat, row.2.2)) =
        rows.map fun row => (row.1, offered * row.2 / total, row.2)
    | .error error => error = .availabilityArithmeticOverflow ∧
        ∃ row ∈ rows, 2 ^ 64 ≤ offered * row.2 / total := by
  induction rows with
  | nil => rfl
  | cons row rows ih =>
    rcases row with ⟨identity, weight⟩
    have hfloor := mulDivFloor_of_le hoffered htotal (hrows (identity, weight) (by simp))
    have hrest := ih fun row hrow => hrows row (List.mem_cons_of_mem _ hrow)
    rw [awards, hfloor]
    simp only [okOr_some, bind, Except.bind]
    rcases tryUInt64_eq (offered * weight / total) with ⟨-, hshare, hnat⟩ | ⟨hlarge, hshare⟩
    · rw [hshare]
      cases htail : awards offered total rows with
      | error error =>
        rw [htail] at hrest
        rcases hrest with ⟨herror, row, hrow, hlarge⟩
        exact ⟨herror, row, List.mem_cons_of_mem _ hrow, hlarge⟩
      | ok tail =>
        rw [htail] at hrest
        exact congrArg₂ List.cons (Prod.ext rfl (Prod.ext hnat rfl)) hrest
    · rw [hshare]
      exact ⟨rfl, (identity, weight), by simp, hlarge⟩

/-- A row of the record: the identity, its reward and its weight. -/
def PaidRow (share : String × UInt64 × Nat) (row : Value) : Prop :=
  row.get "identity" = some (.string share.1) ∧ row.get "reward" = some (u64Value share.2.1) ∧
    ∃ weight : I128, weight.val = share.2.2 ∧ row.get "weight" = some (.int weight)

theorem awardRows_cons (identity : String) (reward : UInt64) (weight : Nat)
    (shares : List (String × UInt64 × Nat)) :
    awardRows ((identity, reward, weight) :: shares) = (do
      let weight ← checkedInt weight
      let tail ← awardRows shares
      return .object [("identity", .string identity), ("reward", u64Value reward),
        ("weight", weight)] :: tail) := by
  rw [awardRows]

theorem awardRows_spec (shares : List (String × UInt64 × Nat)) :
    (∀ rows, awardRows shares = .ok rows → List.Forall₂ PaidRow shares rows) ∧
    ∀ error, awardRows shares = .error error → error = .availabilityArithmeticOverflow ∧
      ∃ share ∈ shares, 2 ^ 127 ≤ share.2.2 := by
  induction shares with
  | nil =>
    refine ⟨fun rows h => ?_, fun error h => ?_⟩
    · cases h
      exact List.Forall₂.nil
    · cases h
  | cons share shares ih =>
    have hcons := awardRows_cons share.1 share.2.1 share.2.2 shares
    rw [show (share.1, share.2.1, share.2.2) = share from rfl] at hcons
    rw [hcons]
    rcases checkedInt_eq share.2.2 with ⟨-, i, hval, hint⟩ | ⟨hlarge, hint⟩
    · rw [hint]
      simp only [bind, Except.bind]
      cases htail : awardRows shares with
      | error error =>
        refine ⟨fun rows h => ?_, fun error' h => ?_⟩
        · cases h
        · cases h
          rcases ih.2 error htail with ⟨herror, share', hshare, hlarge⟩
          exact ⟨herror, share', List.mem_cons_of_mem _ hshare, hlarge⟩
      | ok tail =>
        refine ⟨fun rows h => ?_, fun error h => ?_⟩
        · cases h
          refine List.Forall₂.cons ⟨?_, ?_, i, hval, ?_⟩ (ih.1 tail htail)
          · simp [Value.get_object, BTreeMap.lookupEntry]
          · simp [Value.get_object, BTreeMap.lookupEntry]
          · simp [Value.get_object, BTreeMap.lookupEntry]
        · cases h
    · rw [hint]
      refine ⟨fun rows h => ?_, fun error h => ?_⟩
      · cases h
      · cases h
        exact ⟨rfl, share, by simp, hlarge⟩

theorem ok_bind {ε α β : Type} (a : α) (f : α → Except ε β) : (Except.ok a >>= f) = f a := rfl

theorem error_bind {ε α β : Type} (error : ε) (f : α → Except ε β) :
    (Except.error error >>= f) = .error error := rfl

theorem checkedU128_eq (n : Nat) :
    (n < 2 ^ 128 ∧ checkedU128 n = .ok n) ∨
      2 ^ 128 ≤ n ∧ checkedU128 n = .error .availabilityArithmeticOverflow := by
  unfold checkedU128
  by_cases h : n < 2 ^ 128
  · exact Or.inl ⟨h, if_pos h⟩
  · exact Or.inr ⟨by omega, if_neg h⟩

end Log

/-- The part of an offer that goes to an identity: by its bonds, rounded down. -/
def shareOf (offered : Nat) (bonds : List (String × Nat)) (identity : String) : Nat :=
  offered * BTreeMap.rowsAt bonds identity / BTreeMap.rowsTotal bonds

/-- An entry of a tally is what the rows under its name add up to. -/
theorem entry_tally {bonds : List (String × Nat)} {row : String × Nat}
    (h : row ∈ (BTreeMap.tally bonds).entries) : row.2 = BTreeMap.rowsAt bonds row.1 := by
  have hget : (BTreeMap.tally bonds).get? row.1 = some row.2 := BTreeMap.get?_eq_some_iff.mpr h
  rw [← BTreeMap.amount_tally, BTreeMap.amount, hget]
  rfl

/-- The floors of an offer do not exceed it. -/
theorem sum_shares_le (offered : Nat) (bonds : List (String × Nat)) :
    ((BTreeMap.tally bonds).entries.map fun row => shareOf offered bonds row.1).sum ≤ offered := by
  have hfloors : ((BTreeMap.tally bonds).entries.map fun row => shareOf offered bonds row.1) =
      Apportion.floors offered (BTreeMap.rowsTotal bonds)
        ((BTreeMap.tally bonds).entries.map Prod.snd) := by
    rw [Apportion.floors, List.map_map]
    refine List.map_congr_left fun row hrow => ?_
    rw [shareOf, ← entry_tally hrow]
    rfl
  have htotal : ((BTreeMap.tally bonds).entries.map Prod.snd).sum = BTreeMap.rowsTotal bonds :=
    BTreeMap.total_tally bonds
  rcases Nat.eq_zero_or_pos (BTreeMap.rowsTotal bonds) with hzero | hpos
  · have hnil : ∀ n ∈ ((BTreeMap.tally bonds).entries.map fun row => shareOf offered bonds row.1),
        n = 0 := by
      intro n hn
      rcases List.mem_map.mp hn with ⟨row, -, rfl⟩
      rw [shareOf, hzero, Nat.div_zero]
    rw [List.sum_eq_zero hnil]
    exact Nat.zero_le _
  · rw [hfloors]
    exact Apportion.sum_floors_le hpos htotal

namespace Log

variable [World]

/-! ## The settlement of an epoch -/

/-- The identities that answered, by the promise they answered for. -/
def answeredBy (log : List Entry) (epoch : UInt64) (positions : Nat) : BTreeMap String String :=
  BTreeMap.ofList (((availabilityAnswersWithin log positions).filter fun answer =>
    answer.epoch = epoch).map fun answer => (answer.undertaking, answer.identity))

/-- The promises made before the epoch began. -/
def promisesBefore (log : List Entry) (epoch : UInt64) (positions : Nat) : List Undertaking :=
  undertakingsWithin log (availabilityBoundary log epoch positions)

def answeredPromises (log : List Entry) (epoch : UInt64) (positions : Nat) : List Undertaking :=
  (promisesBefore log epoch positions).filter fun promise =>
    ((answeredBy log epoch positions).get? promise.id).isSome

def silentPromises (log : List Entry) (epoch : UInt64) (positions : Nat) : List Undertaking :=
  (promisesBefore log epoch positions).filter fun promise =>
    ((answeredBy log epoch positions).get? promise.id).isNone

/-- The answered bonds, each with the identity that answered. -/
def answeredBonds (log : List Entry) (epoch : UInt64) (positions : Nat) : List (String × Nat) :=
  (promisesBefore log epoch positions).filterMap fun promise =>
    ((answeredBy log epoch positions).get? promise.id).map fun identity =>
      (identity, promise.bond.toNat)

/-- What the pools before the epoch offer in it. -/
def offeredBefore (log : List Entry) (epoch : UInt64) (positions : Nat) : Nat :=
  availabilityOfferedWithin log epoch (availabilityBoundary log epoch positions)

/-- What a settlement record and its outcome say. -/
structure AvailabilityBooks (log : List Entry) (epoch : UInt64) (positions : Nat)
    (record : Value) (outcome : AvailabilityOutcome) : Prop where
  offer : outcome.paid + outcome.unpaid = offeredBefore log epoch positions
  rewards : ∃ shares rows, record.get "paid" = some (.array rows) ∧
    List.Forall₂ PaidRow shares rows ∧
    shares.map (fun share => (share.1, share.2.1.toNat, share.2.2)) =
      (BTreeMap.tally (answeredBonds log epoch positions)).entries.map (fun row =>
        (row.1,
          shareOf (offeredBefore log epoch positions) (answeredBonds log epoch positions) row.1,
          BTreeMap.rowsAt (answeredBonds log epoch positions) row.1)) ∧
    outcome.paid = (shares.map fun share => share.2.1.toNat).sum
  silent : record.get "silent" = some (.array
      ((silentPromises log epoch positions).map fun promise => .string promise.id)) ∧
    outcome.silent = (silentPromises log epoch positions).length
  counted : (answeredPromises log epoch positions ++ silentPromises log epoch positions).Perm
      (promisesBefore log epoch positions) ∧
    (answeredBonds log epoch positions).map Prod.snd =
      (answeredPromises log epoch positions).map fun promise => promise.bond.toNat

/-- A number of the settlement leaves its type. -/
def Overflows (offered : Nat) (bonds : List (String × Nat)) : Prop :=
  2 ^ 128 ≤ offered ∨ 2 ^ 128 ≤ BTreeMap.rowsTotal bonds ∨
    (∃ identity, 2 ^ 64 ≤ shareOf offered bonds identity) ∨
    (∃ identity, 2 ^ 127 ≤ BTreeMap.rowsAt bonds identity) ∨
    2 ^ 127 ≤ offered -
      ((BTreeMap.tally bonds).entries.map fun row => shareOf offered bonds row.1).sum

theorem availabilitySettlementAt_eq (log : List Entry) (epoch : UInt64) (positions : Nat) :
    availabilitySettlementAt log epoch positions =
      (if promisesBefore log epoch positions = [] then .ok none
      else do
        let offered ← checkedU128 (offeredBefore log epoch positions)
        let total ← checkedU128 (BTreeMap.tally (answeredBonds log epoch positions)).total
        let shares ←
          awards offered total (BTreeMap.tally (answeredBonds log epoch positions)).entries
        let spent ← checkedU128 ((shares.map fun row => row.2.1.toNat).sum)
        let unpaid ← if spent ≤ offered then pure (offered - spent)
          else .error .availabilityArithmeticOverflow
        let rows ← awardRows shares
        let unpaidValue ← checkedInt unpaid
        let record := Value.object [("epoch", u64Value epoch),
          ("anchor", .string (anchorOfEpochWithin log epoch positions (some epoch))),
          ("paid", .array rows),
          ("silent",
            .array (((silentPromises log epoch positions).map Undertaking.id).map .string)),
          ("unpaid", unpaidValue)]
        return some (record,
          { epoch, answered := shares.length,
            silent := ((silentPromises log epoch positions).map Undertaking.id).length,
            paid := spent, unpaid })) := by
  rw [availabilitySettlementAt]
  rfl

omit [World] in
theorem rowsAt_le_rowsTotal (bonds : List (String × Nat)) {row : String × Nat}
    (h : row ∈ (BTreeMap.tally bonds).entries) : row.2 ≤ (BTreeMap.tally bonds).total :=
  List.le_sum_of_mem (List.mem_map_of_mem h)

omit [World] in
/-- The rewards of an offer are the shares of the answered bonds. -/
theorem awards_tally {offered : Nat} {bonds : List (String × Nat)} (hoffered : offered < 2 ^ 128)
    (htotal : BTreeMap.rowsTotal bonds < 2 ^ 128) :
    match awards offered (BTreeMap.tally bonds).total (BTreeMap.tally bonds).entries with
    | .ok shares => shares.map (fun share => (share.1, share.2.1.toNat, share.2.2)) =
        (BTreeMap.tally bonds).entries.map fun row =>
          (row.1, shareOf offered bonds row.1, BTreeMap.rowsAt bonds row.1)
    | .error error => error = .availabilityArithmeticOverflow ∧
        ∃ identity, 2 ^ 64 ≤ shareOf offered bonds identity := by
  have hspec := awards_spec hoffered (by rwa [BTreeMap.total_tally])
    (BTreeMap.tally bonds).entries (fun row hrow => rowsAt_le_rowsTotal bonds hrow)
  rw [BTreeMap.total_tally] at hspec ⊢
  cases hawards : awards offered (BTreeMap.rowsTotal bonds) (BTreeMap.tally bonds).entries with
  | error error =>
    rw [hawards] at hspec
    rcases hspec with ⟨herror, row, hrow, hlarge⟩
    refine ⟨herror, row.1, ?_⟩
    rw [shareOf, ← entry_tally hrow]
    exact hlarge
  | ok shares =>
    rw [hawards] at hspec
    show shares.map _ = _
    rw [hspec]
    refine List.map_congr_left fun row hrow => ?_
    rw [shareOf, ← entry_tally hrow]

theorem answered_perm (log : List Entry) (epoch : UInt64) (positions : Nat) :
    (answeredPromises log epoch positions ++ silentPromises log epoch positions).Perm
      (promisesBefore log epoch positions) := by
  have hsilent : silentPromises log epoch positions =
      (promisesBefore log epoch positions).filter fun promise =>
        !((answeredBy log epoch positions).get? promise.id).isSome := by
    refine List.filter_congr fun promise _ => ?_
    cases (answeredBy log epoch positions).get? promise.id <;> rfl
  rw [hsilent]
  exact List.filter_append_perm _ _

theorem answeredBonds_snd (log : List Entry) (epoch : UInt64) (positions : Nat) :
    (answeredBonds log epoch positions).map Prod.snd =
      (answeredPromises log epoch positions).map fun promise => promise.bond.toNat := by
  unfold answeredBonds answeredPromises
  induction promisesBefore log epoch positions with
  | nil => rfl
  | cons promise rest ih =>
    rw [List.filterMap_cons, List.filter_cons]
    cases (answeredBy log epoch positions).get? promise.id with
    | none => exact ih
    | some identity => exact congrArg _ ih

/-- The rest of a settlement, once the shares are known. -/
theorem settle_shares (log : List Entry) (epoch : UInt64) (positions : Nat)
    (hoffered : offeredBefore log epoch positions < 2 ^ 128)
    {shares : List (String × UInt64 × Nat)}
    (hshares : shares.map (fun share => (share.1, share.2.1.toNat, share.2.2)) =
      (BTreeMap.tally (answeredBonds log epoch positions)).entries.map fun row =>
        (row.1, shareOf (offeredBefore log epoch positions)
          (answeredBonds log epoch positions) row.1,
          BTreeMap.rowsAt (answeredBonds log epoch positions) row.1)) :
    match (do
        let spent ← checkedU128 ((shares.map fun row => row.2.1.toNat).sum)
        let unpaid ← if spent ≤ offeredBefore log epoch positions then
            pure (offeredBefore log epoch positions - spent)
          else .error .availabilityArithmeticOverflow
        let rows ← awardRows shares
        let unpaidValue ← checkedInt unpaid
        let record := Value.object [("epoch", u64Value epoch),
          ("anchor", .string (anchorOfEpochWithin log epoch positions (some epoch))),
          ("paid", .array rows),
          ("silent",
            .array (((silentPromises log epoch positions).map Undertaking.id).map .string)),
          ("unpaid", unpaidValue)]
        return some (record,
          { epoch, answered := shares.length,
            silent := ((silentPromises log epoch positions).map Undertaking.id).length,
            paid := spent, unpaid }) :
        Except RuleViolation (Option (Value × AvailabilityOutcome))) with
    | .ok none => promisesBefore log epoch positions = []
    | .ok (some (record, outcome)) => AvailabilityBooks log epoch positions record outcome
    | .error error => error = .availabilityArithmeticOverflow ∧
        Overflows (offeredBefore log epoch positions) (answeredBonds log epoch positions) := by
  have hsum : (shares.map fun share => share.2.1.toNat) =
      (BTreeMap.tally (answeredBonds log epoch positions)).entries.map fun row =>
        shareOf (offeredBefore log epoch positions) (answeredBonds log epoch positions) row.1 := by
    have hsecond := congrArg (List.map fun share => share.2.1) hshares
    rwa [List.map_map, List.map_map] at hsecond
  have hle := sum_shares_le (offeredBefore log epoch positions) (answeredBonds log epoch positions)
  rw [← hsum] at hle
  rcases checkedU128_eq ((shares.map fun row => row.2.1.toNat).sum) with
    ⟨-, hcheck⟩ | ⟨hlarge, -⟩
  · rw [hcheck, ok_bind, if_pos hle, pure_bind]
    beta_reduce
    have hrows := awardRows_spec shares
    cases hrecorded : awardRows shares with
    | error error =>
      rw [error_bind]
      rcases hrows.2 error hrecorded with ⟨herror, share, hshare, hlarge⟩
      have hmem := List.mem_map_of_mem (f := fun share => (share.1, share.2.1.toNat, share.2.2))
        hshare
      rw [hshares] at hmem
      rcases List.mem_map.mp hmem with ⟨row, -, hrow⟩
      refine ⟨herror, Or.inr (Or.inr (Or.inr (Or.inl ⟨row.1, ?_⟩)))⟩
      have hweight : BTreeMap.rowsAt (answeredBonds log epoch positions) row.1 = share.2.2 :=
        congrArg (fun triple => triple.2.2) hrow
      rw [hweight]
      exact hlarge
    | ok rows =>
      rw [ok_bind]
      generalize hunpaid : offeredBefore log epoch positions -
        (shares.map fun row => row.2.1.toNat).sum = unpaid
      cases hint : checkedInt unpaid with
      | error error =>
        rw [error_bind]
        rcases checkedInt_error hint with ⟨herror, hlarge⟩
        refine ⟨herror, Or.inr (Or.inr (Or.inr (Or.inr ?_)))⟩
        rw [← hsum, hunpaid]
        exact hlarge
      | ok unpaidValue =>
        rw [ok_bind]
        have hoffer : (shares.map fun row => row.2.1.toNat).sum + unpaid =
            offeredBefore log epoch positions := by
          rw [← hunpaid]
          exact Nat.add_sub_cancel' hle
        refine ⟨hoffer, ⟨shares, rows, ?_, hrows.1 rows hrecorded, hshares, rfl⟩,
          ⟨?_, List.length_map _⟩, answered_perm log epoch positions,
          answeredBonds_snd log epoch positions⟩
        · simp [Value.get_object, BTreeMap.lookupEntry]
        · simp only [Value.get_object, List.map_map]
          rfl
  · omega

/-- The books of a settlement balance, and it fails only where a number leaves its type. -/
theorem availabilitySettlementAt_spec (log : List Entry) (epoch : UInt64) (positions : Nat) :
    match availabilitySettlementAt log epoch positions with
    | .ok none => promisesBefore log epoch positions = []
    | .ok (some (record, outcome)) => AvailabilityBooks log epoch positions record outcome
    | .error error => error = .availabilityArithmeticOverflow ∧
        Overflows (offeredBefore log epoch positions) (answeredBonds log epoch positions) := by
  rw [availabilitySettlementAt_eq]
  by_cases hnone : promisesBefore log epoch positions = []
  · rw [if_pos hnone]
    exact hnone
  rw [if_neg hnone]
  rcases checkedU128_eq (offeredBefore log epoch positions) with
    ⟨hoffered, hcheck⟩ | ⟨hlarge, hcheck⟩
  · rw [hcheck, ok_bind]
    rcases checkedU128_eq (BTreeMap.tally (answeredBonds log epoch positions)).total with
      ⟨htotal, hcheck⟩ | ⟨hlarge, hcheck⟩
    · rw [hcheck, ok_bind]
      rw [BTreeMap.total_tally] at htotal
      have hawards := awards_tally hoffered htotal
      cases hshares : awards (offeredBefore log epoch positions)
          (BTreeMap.tally (answeredBonds log epoch positions)).total
          (BTreeMap.tally (answeredBonds log epoch positions)).entries with
      | error error =>
        rw [hshares] at hawards
        rw [error_bind]
        exact ⟨hawards.1, Or.inr (Or.inr (Or.inl hawards.2))⟩
      | ok shares =>
        rw [hshares] at hawards
        rw [ok_bind]
        exact settle_shares log epoch positions hoffered hawards
    · rw [hcheck, error_bind]
      rw [BTreeMap.total_tally] at hlarge
      exact ⟨rfl, Or.inr (Or.inl hlarge)⟩
  · rw [hcheck, error_bind]
    exact ⟨rfl, Or.inl hlarge⟩

end Log

/-! ## Splitting a promise -/

/-- What a group of identities receives together. -/
def combinedShare (offered : Nat) (bonds : List (String × Nat)) (group : Finset String) : Nat :=
  ∑ identity ∈ group, shareOf offered bonds identity

/-- Those of a group that answered for a bond. -/
def holders (bonds : List (String × Nat)) (group : Finset String) : Finset String :=
  group.filter fun identity => 0 < BTreeMap.rowsAt bonds identity

/-- The one identity and those that its promise is split under. -/
def splitGroup (identity : String) (pieces : List (String × Nat)) : Finset String :=
  insert identity (pieces.map Prod.fst).toFinset

theorem sum_rowsAt {rows : List (String × Nat)} {group : Finset String}
    (h : ∀ row ∈ rows, row.1 ∈ group) :
    ∑ identity ∈ group, BTreeMap.rowsAt rows identity = BTreeMap.rowsTotal rows := by
  induction rows with
  | nil => simp
  | cons row rows ih =>
    have hrest := ih fun other hother => h other (List.mem_cons_of_mem _ hother)
    simp only [BTreeMap.rowsAt_cons, BTreeMap.rowsTotal_cons, Finset.sum_add_distrib,
      Finset.sum_ite_eq, if_pos (h row (by simp)), hrest]

/-- A group receives what its bonds are worth together, less a unit for each of its holders but
one. -/
theorem combinedShare_bounds (offered : Nat) (bonds : List (String × Nat))
    (group : Finset String) :
    combinedShare offered bonds group ≤
        offered * (∑ identity ∈ group, BTreeMap.rowsAt bonds identity) /
          BTreeMap.rowsTotal bonds ∧
      offered * (∑ identity ∈ group, BTreeMap.rowsAt bonds identity) /
          BTreeMap.rowsTotal bonds ≤
        combinedShare offered bonds group + ((holders bonds group).card - 1) := by
  rcases Nat.eq_zero_or_pos (BTreeMap.rowsTotal bonds) with hzero | hpos
  · unfold combinedShare shareOf
    simp only [hzero, Nat.div_zero, Finset.sum_const_zero]
    exact ⟨le_refl _, Nat.zero_le _⟩
  · exact Apportion.sum_floors_bounds offered hpos group _

variable {bonds bonds' rest pieces : List (String × Nat)} {identity : String} {bond : Nat}

theorem rowsTotal_perm (h : bonds.Perm bonds') :
    BTreeMap.rowsTotal bonds = BTreeMap.rowsTotal bonds' :=
  (h.map _).sum_eq

theorem rowsAt_before (hbonds : bonds.Perm ((identity, bond) :: rest)) (other : String) :
    BTreeMap.rowsAt bonds other =
      (if identity = other then bond else 0) + BTreeMap.rowsAt rest other := by
  rw [BTreeMap.rowsAt_perm hbonds, BTreeMap.rowsAt_cons]

theorem rowsAt_after (hbonds' : bonds'.Perm (pieces ++ rest)) (other : String) :
    BTreeMap.rowsAt bonds' other =
      BTreeMap.rowsAt pieces other + BTreeMap.rowsAt rest other := by
  rw [BTreeMap.rowsAt_perm hbonds', BTreeMap.rowsAt_append]

/-- The group has the same bonds together before and after, out of the same total. -/
theorem split_sums (hbonds : bonds.Perm ((identity, bond) :: rest))
    (hbonds' : bonds'.Perm (pieces ++ rest)) (hpieces : BTreeMap.rowsTotal pieces = bond) :
    BTreeMap.rowsTotal bonds = BTreeMap.rowsTotal bonds' ∧
      ∑ other ∈ splitGroup identity pieces, BTreeMap.rowsAt bonds other =
        ∑ other ∈ splitGroup identity pieces, BTreeMap.rowsAt bonds' other := by
  constructor
  · rw [rowsTotal_perm hbonds, rowsTotal_perm hbonds', BTreeMap.rowsTotal_cons,
      BTreeMap.rowsTotal_append, hpieces]
  · have hone : ∑ other ∈ splitGroup identity pieces, (if identity = other then bond else 0) =
        bond := by
      have hmem : identity ∈ splitGroup identity pieces := Finset.mem_insert_self _ _
      rw [Finset.sum_ite_eq, if_pos hmem]
    have hnamed : ∀ row ∈ pieces, row.1 ∈ splitGroup identity pieces := fun row hrow =>
      Finset.mem_insert_of_mem (List.mem_toFinset.mpr (List.mem_map_of_mem hrow))
    have hall := sum_rowsAt hnamed
    simp only [rowsAt_before hbonds, rowsAt_after hbonds', Finset.sum_add_distrib, hone, hall,
      hpieces]

/-- Splitting a promise moves what its group receives by less than a unit for each holder. -/
theorem combinedShare_split (offered : Nat) (hbonds : bonds.Perm ((identity, bond) :: rest))
    (hbonds' : bonds'.Perm (pieces ++ rest)) (hpieces : BTreeMap.rowsTotal pieces = bond) :
    combinedShare offered bonds' (splitGroup identity pieces) ≤
        combinedShare offered bonds (splitGroup identity pieces) +
          ((holders bonds (splitGroup identity pieces)).card - 1) ∧
      combinedShare offered bonds (splitGroup identity pieces) ≤
        combinedShare offered bonds' (splitGroup identity pieces) +
          ((holders bonds' (splitGroup identity pieces)).card - 1) := by
  rcases split_sums hbonds hbonds' hpieces with ⟨htotal, hgroup⟩
  have hbefore := combinedShare_bounds offered bonds (splitGroup identity pieces)
  have hafter := combinedShare_bounds offered bonds' (splitGroup identity pieces)
  rw [htotal, hgroup] at hbefore
  exact ⟨hafter.1.trans hbefore.2, hbefore.1.trans hafter.2⟩

/-- An identity without a bond receives nothing. -/
theorem shareOf_eq_zero (offered : Nat) {other : String} (h : BTreeMap.rowsAt bonds other = 0) :
    shareOf offered bonds other = 0 := by
  rw [shareOf, h, Nat.mul_zero, Nat.zero_div]

/-- Where the one identity has no other answered promise and the others have none, the split
earns less than a unit for each piece below what the one promise earned. -/
theorem combinedShare_split_fresh (offered : Nat)
    (hbonds : bonds.Perm ((identity, bond) :: rest)) (hbonds' : bonds'.Perm (pieces ++ rest))
    (hpieces : BTreeMap.rowsTotal pieces = bond)
    (hfresh : ∀ row ∈ rest, row.1 ∉ splitGroup identity pieces) :
    combinedShare offered bonds (splitGroup identity pieces) = shareOf offered bonds identity ∧
    combinedShare offered bonds' (splitGroup identity pieces) =
      combinedShare offered bonds' (pieces.map Prod.fst).toFinset ∧
    combinedShare offered bonds' (pieces.map Prod.fst).toFinset ≤
      shareOf offered bonds identity ∧
    shareOf offered bonds identity ≤
      combinedShare offered bonds' (pieces.map Prod.fst).toFinset + (pieces.length - 1) := by
  have hrest : ∀ other ∈ splitGroup identity pieces, BTreeMap.rowsAt rest other = 0 :=
    fun other hother => BTreeMap.rowsAt_of_not_mem fun row hrow heq =>
      hfresh row hrow (by rwa [heq])
  have hbefore : ∀ other ∈ splitGroup identity pieces, other ≠ identity →
      BTreeMap.rowsAt bonds other = 0 := by
    intro other hother hne
    rw [rowsAt_before hbonds, if_neg hne.symm, hrest other hother]
  have hafter : ∀ other ∈ splitGroup identity pieces, other ∉ (pieces.map Prod.fst).toFinset →
      BTreeMap.rowsAt bonds' other = 0 := by
    intro other hother hnot
    rw [rowsAt_after hbonds', hrest other hother, Nat.add_zero]
    refine BTreeMap.rowsAt_of_not_mem fun row hrow heq => hnot ?_
    rw [← heq]
    exact List.mem_toFinset.mpr (List.mem_map_of_mem hrow)
  have hsingle : combinedShare offered bonds (splitGroup identity pieces) =
      shareOf offered bonds identity := by
    refine Finset.sum_eq_single_of_mem identity (Finset.mem_insert_self _ _) ?_
    exact fun other hother hne => shareOf_eq_zero offered (hbefore other hother hne)
  have hpart : combinedShare offered bonds' (splitGroup identity pieces) =
      combinedShare offered bonds' (pieces.map Prod.fst).toFinset := by
    symm
    refine Finset.sum_subset (Finset.subset_insert _ _) ?_
    exact fun other hother hnot => shareOf_eq_zero offered (hafter other hother hnot)
  have hone : (holders bonds (splitGroup identity pieces)).card ≤ 1 := by
    rw [← Finset.card_singleton identity]
    refine Finset.card_le_card fun other hother => ?_
    rcases Finset.mem_filter.mp hother with ⟨hmem, hpos⟩
    by_contra hne
    rw [Finset.mem_singleton] at hne
    rw [hbefore other hmem hne] at hpos
    exact absurd hpos (Nat.lt_irrefl 0)
  have hfew : (holders bonds' (splitGroup identity pieces)).card ≤ pieces.length := by
    have hlength : (pieces.map Prod.fst).length = pieces.length := List.length_map Prod.fst
    rw [← hlength]
    refine le_trans (Finset.card_le_card fun other hother => ?_) (List.toFinset_card_le _)
    rcases Finset.mem_filter.mp hother with ⟨hmem, hpos⟩
    by_contra hnot
    rw [hafter other hmem hnot] at hpos
    exact absurd hpos (Nat.lt_irrefl 0)
  have hsplit := combinedShare_split offered hbonds hbonds' hpieces
  rw [hsingle, hpart] at hsplit
  refine ⟨hsingle, hpart, ?_, ?_⟩
  · omega
  · omega

namespace Log

/-- The books of every settlement balance, and splitting a promise moves what it earns by less
than a unit for each name. -/
theorem availability_arithmetic [World] :
    (∀ (log : List Entry) (epoch : UInt64) (positions : Nat),
      match availabilitySettlementAt log epoch positions with
      | .ok none => promisesBefore log epoch positions = []
      | .ok (some (record, outcome)) => AvailabilityBooks log epoch positions record outcome
      | .error error => error = .availabilityArithmeticOverflow ∧
          Overflows (offeredBefore log epoch positions) (answeredBonds log epoch positions)) ∧
    ∀ (offered : Nat) (bonds bonds' rest pieces : List (String × Nat)) (identity : String)
      (bond : Nat), bonds.Perm ((identity, bond) :: rest) → bonds'.Perm (pieces ++ rest) →
      BTreeMap.rowsTotal pieces = bond →
      (combinedShare offered bonds' (splitGroup identity pieces) ≤
          combinedShare offered bonds (splitGroup identity pieces) +
            ((holders bonds (splitGroup identity pieces)).card - 1) ∧
        combinedShare offered bonds (splitGroup identity pieces) ≤
          combinedShare offered bonds' (splitGroup identity pieces) +
            ((holders bonds' (splitGroup identity pieces)).card - 1)) ∧
      ((∀ row ∈ rest, row.1 ∉ splitGroup identity pieces) →
        combinedShare offered bonds' (pieces.map Prod.fst).toFinset ≤
            shareOf offered bonds identity ∧
          shareOf offered bonds identity ≤
            combinedShare offered bonds' (pieces.map Prod.fst).toFinset +
              (pieces.length - 1)) :=
  ⟨availabilitySettlementAt_spec, fun offered _ _ _ _ _ _ hbonds hbonds' hpieces =>
    ⟨combinedShare_split offered hbonds hbonds' hpieces, fun hfresh =>
      (combinedShare_split_fresh offered hbonds hbonds' hpieces hfresh).2.2⟩⟩

/-- A bond of four out of seven, split in two. -/
theorem availability_arithmetic_sample :
    shareOf 10 [("a", 4), ("b", 3)] "a" ≤
      combinedShare 10 [("c", 1), ("d", 3), ("b", 3)] ["c", "d"].toFinset + 1 :=
  (((@availability_arithmetic sampleWorld).2 10 [("a", 4), ("b", 3)]
    [("c", 1), ("d", 3), ("b", 3)] [("b", 3)] [("c", 1), ("d", 3)] "a" 4 (List.Perm.refl _)
    (List.Perm.refl _) (by decide)).2 (by decide)).2

/-- One of two promises of an identity moves to another name: both floors are zero. -/
theorem not_split_bounded :
    ¬∀ (offered : Nat) (bonds bonds' rest pieces : List (String × Nat)) (identity : String)
      (bond : Nat), bonds.Perm ((identity, bond) :: rest) → bonds'.Perm (pieces ++ rest) →
      BTreeMap.rowsTotal pieces = bond → pieces ≠ [] → (∀ piece ∈ pieces, 0 < piece.2) →
      (pieces.map Prod.fst).Nodup →
      combinedShare offered bonds' (splitGroup identity pieces) ≤
          combinedShare offered bonds (splitGroup identity pieces) ∧
        combinedShare offered bonds (splitGroup identity pieces) ≤
          combinedShare offered bonds' (splitGroup identity pieces) + (pieces.length - 1) := by
  intro hclaim
  have hmoved := (hclaim 1 [("a", 1), ("a", 1)] [("c", 1), ("a", 1)] [("a", 1)] [("c", 1)] "a" 1
    (List.Perm.refl _) (List.Perm.refl _) (by decide) (by decide) (by decide) (by decide)).2
  revert hmoved
  decide

end Log

end Cairn.Ports
