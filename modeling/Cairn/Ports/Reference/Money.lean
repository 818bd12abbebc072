import Cairn.Ports.Flow
import Cairn.Ports.Piecework
import Cairn.Ports.Reference.Agree

/-!
# The money rules of the second implementation

`frontier.rs`, `piecework.rs` and `attribution.rs` of `reference/rust/src/`.
The crate declares the records with the fields the primary gives them, so those
are shared; what it computes is translated again. Its decoders check as they
read instead of validating at the end, its distances are directed and clamped
instead of absolute, and its citation flow is a recursion over one path that
all calls share, instead of a stack of frames that each hold their own.
-/

namespace Cairn.Ports.Reference

open Cairn.Verified
open Cairn.Ports.Canonical

/-! ## Ratchets -/

namespace Ratchet

def parseDirection (text : String) : Option Direction :=
  if text = "maximize" then some .maximize
  else if text = "minimize" then some .minimize
  else none

/-- The distance from baseline toward target, nothing where they are reversed. -/
def span (r : Ratchet) : Nat :=
  let raw : Int := match r.direction with
    | .maximize => r.target.toInt - r.baseline.toInt
    | .minimize => r.baseline.toInt - r.target.toInt
  let raw := (max raw 0).toNat
  if raw < UInt64.size then raw else 0

/-- Distance from baseline toward target, clamped to the span. -/
def progress (r : Ratchet) (score : Int64) : Nat :=
  let raw : Int := match r.direction with
    | .maximize => score.toInt - r.baseline.toInt
    | .minimize => r.baseline.toInt - score.toInt
  let clamped := (min (max raw 0) (span r)).toNat
  if clamped < UInt64.size then clamped else 0

def improves (r : Ratchet) (old : Option Int64) (new : Int64) : Bool :=
  let gained : Int := match old with
    | none => progress r new
    | some old => progress r new - progress r old
  gained ≥ r.minImprovement.toNat

/-- Total paid once the frontier reaches a score. -/
def cumulative (r : Ratchet) (score : Int64) : Nat :=
  if span r = 0 then 0
  else
    let total := r.reward.toNat * progress r score / span r
    if total < UInt64.size then total else UInt64.size - 1

/-- What a move earns: a regression pays nothing. -/
def payout (r : Ratchet) (old : Option Int64) (new : Int64) : Nat :=
  let before := match old with
    | none => 0
    | some old => cumulative r old
  cumulative r new - before

def exhausted (r : Ratchet) (score : Int64) : Bool := progress r score ≥ span r

def int (value : Value) (name : String) : Except String Int64 :=
  okOr ("ratchet needs an integer \"" ++ name ++ "\"")
    ((value.get name).bind fun v => v.asI128.bind Ratchet.toInt64)

def directionOf (value : Value) : Except String Direction :=
  match (value.get "direction").map Value.view with
  | none => .ok .maximize
  | some (.string text) =>
    okOr ("unknown ratchet direction \"" ++ text ++ "\"") (parseDirection text)
  | some _ => .error "ratchet direction must be a string"

def minImprovementOf (value : Value) : Except String UInt64 :=
  match (value.get "min_improvement").map Value.view with
  | none => .ok 1
  | some (.int n) =>
    if n.val ≥ 1 then
      okOr "ratchet min_improvement does not fit in u64" (Ratchet.toUInt64 n)
    else .error "ratchet min_improvement must be at least 1"
  | some _ => .error "ratchet min_improvement must be an integer"

def fromValue (value : Value) : Except String Ratchet := do
  let direction ← directionOf value
  let reward ← okOr "ratchet needs an integer reward"
    ((value.get "reward").bind fun v => v.asI128.bind Ratchet.toUInt64)
  let baseline ← int value "baseline"
  let target ← int value "target"
  let minImprovement ← minImprovementOf value
  let ratchet : Ratchet := { baseline, target, reward, direction, minImprovement }
  if span ratchet = 0 then throw "ratchet target must differ from baseline"
  return ratchet

end Ratchet

/-! ## Piecework -/

namespace Piecework

def unitPriceOf (value : Value) : Except String UInt64 :=
  match (value.get "unit_price").map Value.view with
  | none => .error "piecework needs a unit_price"
  | some (.int n) =>
    if n.val ≥ 1 then okOr "piecework unit_price does not fit in u64" (Ratchet.toUInt64 n)
    else .error "piecework unit_price must be at least 1"
  | some _ => .error "piecework unit_price must be an integer"

def unitsOf (value : Value) : Except String (Option UInt64) :=
  match (value.get "units").map Value.view with
  | none | some .null => .ok none
  | some (.int n) =>
    if n.val ≥ 1 then
      (okOr "piecework units does not fit in u64" (Ratchet.toUInt64 n)).map some
    else .error "piecework units must be at least 1"
  | some _ => .error "piecework units must be an integer"

/-- The loop over the fields of a key. -/
def keyNames : List Value → Except String (List String)
  | [] => .ok []
  | field :: fields =>
    match field.view with
    | .string name =>
      if name = "" then .error "piecework key must name a field"
      else if name.toList.contains ',' then
        .error "a piecework key field may not contain a comma"
      else (keyNames fields).map (name :: ·)
    | _ => .error "piecework key fields must be strings"

def keyOf (value : Value) : Except String (Option UnitKey) :=
  match (value.get "key").map Value.view with
  | none | some .null => .ok none
  | some (.string key) =>
    if key ≠ "" then .ok (some (.field key)) else .error "piecework key must name a field"
  | some (.array fields) => do
      let names ← keyNames fields
      if names = [] then throw "piecework key must name a field"
      return some (.fields names)
  | some _ => .error "piecework key must be a string or an array of them"

def itemsOf (value : Value) : Except String (Option String) :=
  match (value.get "items").map Value.view with
  | none | some .null => .ok none
  | some (.string items) =>
    if items ≠ "" then .ok (some items) else .error "piecework items must name a field"
  | some _ => .error "piecework items must be a string"

def fromValue (value : Value) : Except String Piecework := do
  if value.asObject.isNone then throw "piecework must be an object"
  let unitPrice ← unitPriceOf value
  let units ← unitsOf value
  let key ← keyOf value
  let items ← itemsOf value
  return { unitPrice, units, key, items }

section Keys

variable [Sha256]

/-- The sub-object of the key fields, one insertion at a time. -/
def subObject (unit : Value) : List String → BTreeMap String Value → Option (BTreeMap String Value)
  | [], sub => some sub
  | field :: fields, sub => do
      let value ← unit.get field
      subObject unit fields (sub.insert field value)

def noveltyKey (p : Piecework) (unit : Value) : Option String :=
  match p.key with
  | none => some ("piece:" ++ digest unit)
  | some (.field key) => (unit.get key).map fun value => "piece:" ++ key ++ ":" ++ digest value
  | some (.fields fields) =>
    (subObject unit fields .empty).map fun sub =>
      "piece:" ++ ",".intercalate fields ++ ":" ++ digest (Value.objectOf sub)

/-- The closure `push`: a key once. -/
def push (out : List String) : Option String → List String
  | some key => if key ∈ out then out else out ++ [key]
  | none => out

def unitKeys (p : Piecework) (artifact : Value) : List String :=
  match p.items with
  | none => push [] (noveltyKey p artifact)
  | some items =>
    match (artifact.get items).map Value.view with
    | some (.array elements) =>
      elements.foldl (fun out element => push out (noveltyKey p element)) []
    | _ => []

end Keys

def payoutFor (p : Piecework) (novel : Nat) (remaining : UInt64) : UInt64 :=
  let owed := p.unitPrice.toNat * novel
  if min owed remaining.toNat < UInt64.size then UInt64.ofNat (min owed remaining.toNat)
  else remaining

def unitRange (p : Piecework) (slice : UInt64 × UInt64) : Option (Nat × Nat) :=
  match p.units with
  | none => none
  | some units =>
    if slice.2.toNat < slice.1.toNat ∨ slice.2.toNat > 2 ^ 32 then some (0, 0)
    else
      some (slice.1.toNat * units.toNat / 2 ^ 32 % UInt64.size,
        slice.2.toNat * units.toNat / 2 ^ 32 % UInt64.size)

end Piecework

/-! ## Citation flow -/

namespace Attribution

/-- `dedup`: of equal neighbours, the first. -/
def dedup : List String → List String
  | a :: b :: rest => if a = b then dedup (a :: rest) else a :: dedup (b :: rest)
  | [a] => [a]
  | [] => []

def upstreamOf (amount : Nat) (p : FlowParams) : Nat :=
  if p.deltaDen = 0 then 0
  else
    let upstream := amount * p.deltaNum.toNat / p.deltaDen.toNat
    min (if upstream < UInt64.size then upstream else amount) amount

def credit (payouts : BTreeMap String Nat) (who : String) (units : Nat) : BTreeMap String Nat :=
  payouts.insert who (min (payouts.amount who + units) (UInt64.size - 1))

/-- The citations to follow from a claim, with this path behind. -/
def citesOf (claim : Claim) (claims : BTreeMap String Claim) (path : List String) : List String :=
  dedup (((claim.cites.filter fun cited => claims.containsKey cited).filter fun cited =>
    !path.any fun seen => seen = cited).insertionSort (· ≤ ·))

/-- `distribute`, on the path and payouts all calls share; nothing where the
recursion goes deeper than `deep`. -/
def distribute (claims : BTreeMap String Claim) (p : FlowParams) :
    (deep : Nat) → (claimId : String) → (share depth : Nat) →
      List String × BTreeMap String Nat → Option (List String × BTreeMap String Nat)
  | 0, _, _, _, _ => none
  | deep + 1, claimId, share, depth, (path, payouts) =>
    match claims.get? claimId with
    | none => some (path, payouts)
    | some claim =>
      let cites := citesOf claim claims path
      if depth ≥ p.maxDepth.toNat ∨ cites = [] then
        some (path, credit payouts claim.submitter share)
      else
        let upstream := upstreamOf share p
        let payouts := credit payouts claim.submitter (share - upstream)
        if upstream = 0 then some (path, payouts)
        else do
          let fanout := max cites.length 1
          let base := upstream / fanout
          let remainder := upstream % fanout
          let (path, payouts) ← cites.zipIdx.foldlM
            (fun shared cited =>
              let portion := if cited.2 < remainder then base + 1 else base
              if portion = 0 then some shared
              else
                distribute claims p deep cited.1 portion
                  (min (depth + 1) (UInt32.size - 1)) shared)
            (path ++ [claimId], payouts)
          some (path.dropLast, payouts)

/-- Split an amount across submitters, following citations from a claim. -/
def flow (deep : Nat) (claimId : String) (amount : UInt64) (claims : BTreeMap String Claim)
    (p : FlowParams) : Option (BTreeMap String Nat) :=
  if amount = 0 then some .empty
  else if !claims.containsKey claimId then some .empty
  else do
    let (_, payouts) ← distribute claims p deep claimId amount.toNat 0 ([], .empty)
    let distributed := payouts.values.foldl (fun sum units => min (sum + units) (UInt64.size - 1)) 0
    if distributed < amount.toNat then
      match claims.get? claimId with
      | some root => some (credit payouts root.submitter (amount.toNat - distributed))
      | none => some payouts
    else some payouts

end Attribution

/-! ## Agreement on ratchets -/

theorem toOk_bind {ε α β : Type} (x : Except ε α) (f : α → Except ε β) :
    toOk (x >>= f) = (toOk x).bind fun a => toOk (f a) := by
  cases x <;> rfl

@[simp] theorem toOk_okOr {ε α : Type} (error : ε) (x : Option α) : toOk (okOr error x) = x := by
  cases x <;> rfl

@[simp] theorem toOk_pure {ε α : Type} (a : α) : toOk (pure a : Except ε α) = some a := rfl

@[simp] theorem toOk_error {ε α : Type} (error : ε) : toOk (.error error : Except ε α) = none := rfl

theorem get_of_not_object {value : Value} (h : value.asObject = none) (name : String) :
    value.get name = none := by
  unfold Value.asObject at h
  unfold Value.get
  split at h
  · cases h
  · rename_i hview
    cases hv : value.view with
    | object map => exact absurd hv (hview map)
    | null => rfl
    | bool => rfl
    | int => rfl
    | string => rfl
    | array => rfl

namespace Ratchet

/-- Why a number is not accepted does not matter here. -/
theorem toOk_requiredI64 (value : Value) (name : String) :
    toOk (Ratchet.requiredI64 value "ratchet" name) = toOk (int value name) := by
  unfold Ratchet.requiredI64 Ratchet.requiredInt Ratchet.required int
  simp only [toOk_bind, toOk_okOr, Option.bind_assoc]

theorem toOk_reward (value : Value) :
    toOk (do
      let raw ← Ratchet.requiredInt value "ratchet" "reward"
      okOr (RatchetError.rewardOutOfRange raw) (Ratchet.toUInt64 raw)) =
      (value.get "reward").bind fun v => v.asI128.bind Ratchet.toUInt64 := by
  unfold Ratchet.requiredInt Ratchet.required
  simp only [toOk_bind, toOk_okOr, Option.bind_assoc]

theorem toOk_directionOf (value : Value) :
    toOk (Ports.Ratchet.directionOf value) = toOk (directionOf value) := by
  unfold Ports.Ratchet.directionOf directionOf Value.asStr
  cases value.get "direction" with
  | none => rfl
  | some v =>
    simp only [Option.map_some]
    cases v.view with
    | string text =>
      simp only [toOk_okOr, Direction.fromStr, parseDirection]
      split_ifs <;> rfl
    | null => rfl
    | bool => rfl
    | int => rfl
    | array => rfl
    | object => rfl

theorem toOk_minImprovementOf (value : Value) :
    toOk (Ports.Ratchet.minImprovementOf value) = toOk (minImprovementOf value) := by
  unfold Ports.Ratchet.minImprovementOf minImprovementOf Value.asI128
  cases value.get "min_improvement" with
  | none => rfl
  | some v =>
    simp only [Option.map_some]
    cases v.view with
    | int n =>
      simp only [okOr_some, bind, Except.bind]
      split_ifs with hsmall hbig hbig
      · omega
      · rfl
      · simp
      · omega
    | null => rfl
    | bool => rfl
    | string => rfl
    | array => rfl
    | object => rfl

theorem one_le_of_minImprovementOf {value : Value} {n : UInt64}
    (h : minImprovementOf value = .ok n) : 1 ≤ n.toNat := by
  unfold minImprovementOf at h
  split at h
  · cases h
    decide
  · rename_i raw _
    split_ifs at h with hraw
    rw [okOr_eq_ok] at h
    unfold Ratchet.toUInt64 at h
    split_ifs at h with hfits
    cases h
    rw [UInt64.toNat_ofNat_of_lt' (by simp only [UInt64.size]; omega)]
    omega
  · cases h

/-- The distance of a ratchet that passes the primary's check, either way. -/
theorem span_eq_zero_iff (r : Ratchet) : span r = 0 ↔ match r.direction with
    | .maximize => r.target ≤ r.baseline
    | .minimize => r.target ≥ r.baseline := by
  have hbaseline := r.baseline.toInt_lt
  have hbaseline' := r.baseline.le_toInt
  have htarget := r.target.toInt_lt
  have htarget' := r.target.le_toInt
  unfold span
  dsimp only
  cases r.direction with
  | maximize =>
    rw [Int64.le_iff_toInt_le]
    simp only [UInt64.size]
    split_ifs <;> omega
  | minimize =>
    simp only [ge_iff_le, Int64.le_iff_toInt_le, UInt64.size]
    split_ifs <;> omega

theorem validate_eq_ok_iff {r : Ratchet} (hmin : 1 ≤ r.minImprovement.toNat) :
    toOk r.validate = if span r = 0 then none else some () := by
  have hsmall : ¬ r.minImprovement < 1 := by
    rw [UInt64.lt_iff_toNat_lt]
    show ¬ r.minImprovement.toNat < 1
    omega
  have hspan := span_eq_zero_iff r
  unfold Ratchet.validate
  rw [if_neg hsmall]
  cases hdirection : r.direction with
  | maximize =>
    rw [hdirection] at hspan
    simp only [hspan]
    split_ifs <;> rfl
  | minimize =>
    rw [hdirection] at hspan
    simp only [hspan]
    split_ifs <;> rfl

/-- The two decoders accept the same blocks and read the same ratchet. -/
theorem fromValue_agree (value : Value) :
    toOk (Ports.Ratchet.fromValue value) = toOk (fromValue value) := by
  have hbaseline := toOk_requiredI64 value "baseline"
  have htarget := toOk_requiredI64 value "target"
  have hreward := toOk_reward value
  have hdirection := toOk_directionOf value
  have hmin := toOk_minImprovementOf value
  unfold Ports.Ratchet.fromValue fromValue
  simp only [toOk_bind, toOk_okOr] at hreward ⊢
  rw [hbaseline, htarget, hdirection, hmin]
  cases hobject : value.asObject with
  | none =>
    have hnone : toOk (int value "baseline") = none := by
      rw [int, get_of_not_object hobject]
      rfl
    simp [hnone]
  | some map =>
    have hexpect : toOk (Ratchet.expectObject value "ratchet") = some () := by
      rw [Ratchet.expectObject, hobject]
      rfl
    rw [hexpect, Option.bind_some, ← hreward]
    cases toOk (int value "baseline") with
    | none => simp
    | some baseline =>
    cases toOk (int value "target") with
    | none => simp
    | some target =>
    cases toOk (Ratchet.requiredInt value "ratchet" "reward") with
    | none => simp
    | some raw =>
    simp only [Option.bind_some]
    cases Ratchet.toUInt64 raw with
    | none => simp
    | some reward =>
    cases toOk (directionOf value) with
    | none => simp
    | some direction =>
    cases hok : minImprovementOf value with
    | error error => simp
    | ok minImprovement =>
      simp only [toOk_ok, Option.bind_some]
      rw [validate_eq_ok_iff (one_le_of_minImprovementOf hok)]
      split_ifs <;> rfl

section Valid

variable {r : Ratchet} (h : r.validate = .ok ())

include h

theorem span_eq : span r = r.span := by
  have hlt := r.span_lt
  have hpos := Ratchet.span_pos_of_validate h
  have hne : ¬ span r = 0 := by
    intro hzero
    have htoOk := validate_eq_ok_iff (Ratchet.minImprovement_pos_of_validate h)
    rw [h, if_pos hzero] at htoOk
    cases htoOk
  rw [span_eq_zero_iff] at hne
  unfold Ports.Ratchet.span at hlt hpos
  unfold span Ports.Ratchet.span
  cases hdirection : r.direction with
  | maximize =>
    rw [hdirection] at hne
    simp only [Int64.le_iff_toInt_le] at hne
    have hmax : (max (r.target.toInt - r.baseline.toInt) 0).toNat =
        (r.target.toInt - r.baseline.toInt).natAbs := by omega
    dsimp only
    rw [hmax, if_pos (by simpa [UInt64.size] using hlt)]
  | minimize =>
    rw [hdirection] at hne
    simp only [ge_iff_le, Int64.le_iff_toInt_le] at hne
    have hmax : (max (r.baseline.toInt - r.target.toInt) 0).toNat =
        (r.target.toInt - r.baseline.toInt).natAbs := by omega
    dsimp only
    rw [hmax, if_pos (by simpa [UInt64.size] using hlt)]

theorem progress_eq (score : Int64) : progress r score = r.progress score := by
  have hlt := r.span_lt
  have hspan := span_eq h
  have hle := r.progress_le_span score
  have hclamp : (min (max (r.raw score) 0) (span r)).toNat = r.progress score := by
    unfold Ports.Ratchet.progress
    rw [hspan]
    split_ifs <;> omega
  have hraw : progress r score =
      if (min (max (r.raw score) 0) (span r)).toNat < UInt64.size then
        (min (max (r.raw score) 0) (span r)).toNat else 0 := rfl
  rw [hraw, hclamp, if_pos (by simp only [UInt64.size]; omega)]

theorem improves_eq (old : Option Int64) (new : Int64) :
    improves r old new = r.improves old new := by
  unfold improves Ports.Ratchet.improves Ports.Ratchet.progressOf
  cases old with
  | none => simp [progress_eq h]
  | some old => simp [progress_eq h]

theorem cumulative_eq (score : Int64) :
    ∃ paid, r.cumulative score = .ok paid ∧ paid.toNat = cumulative r score := by
  have hpos := Ratchet.span_pos_of_validate h
  have hok := Ports.Ratchet.cumulative_eq hpos score
  have hreward := r.reward.toNat_lt
  have hle := r.paidAt_le_reward score
  refine ⟨_, hok, ?_⟩
  rw [Ports.Ratchet.toNat_cumulative hpos hok]
  unfold cumulative
  rw [span_eq h, progress_eq h, if_neg (by omega)]
  exact (if_pos (by
    simp only [UInt64.size]
    show r.paidAt score < _
    omega)).symm

theorem payout_eq (old : Option Int64) (new : Int64) :
    ∃ reward, r.payout old new = .ok reward ∧ reward.toNat = payout r old new := by
  obtain ⟨after, hafter, hafterNat⟩ := cumulative_eq h new
  have hlt := after.toNat_lt
  cases old with
  | none =>
    refine ⟨UInt64.ofNat (after.toNat - 0), ?_, ?_⟩
    · simp only [Ports.Ratchet.payout, hafter, bind, Except.bind, pure, Except.pure]
      rfl
    · rw [UInt64.toNat_ofNat_of_lt' (by simpa [UInt64.size] using hlt), hafterNat]
      rfl
  | some old =>
    obtain ⟨before, hbefore, hbeforeNat⟩ := cumulative_eq h old
    refine ⟨UInt64.ofNat (after.toNat - before.toNat), ?_, ?_⟩
    · simp only [Ports.Ratchet.payout, hafter, hbefore, bind, Except.bind, pure, Except.pure]
    · rw [UInt64.toNat_ofNat_of_lt' (by simp only [UInt64.size]; omega), hafterNat, hbeforeNat]
      rfl

theorem exhausted_eq (score : Int64) : exhausted r score = r.exhausted score := by
  unfold exhausted Ports.Ratchet.exhausted
  rw [progress_eq h, span_eq h]

end Valid

end Ratchet

/-! ## Agreement on piecework -/

namespace Piecework

/-- The number of a field, by either crate. -/
theorem toUInt64_pos_iff {n : I128} {x : UInt64} (h : Ratchet.toUInt64 n = some x) :
    n.val ≥ 1 ↔ x ≠ 0 := by
  unfold Ratchet.toUInt64 at h
  split_ifs at h with hfits
  cases h
  have hnat : (UInt64.ofNat n.val.toNat).toNat = n.val.toNat :=
    UInt64.toNat_ofNat_of_lt' (by simp only [UInt64.size]; omega)
  rw [ne_eq, ← UInt64.toNat_inj, hnat]
  show _ ↔ ¬ n.val.toNat = 0
  omega

/-- A number that is at least one is a number that is not zero. -/
theorem toOk_positive {error error' : String} (n : I128) :
    toOk (if n.val ≥ 1 then okOr error (Ratchet.toUInt64 n) else .error error') =
      (Ratchet.toUInt64 n).filter fun x => x ≠ 0 := by
  cases hn : Ratchet.toUInt64 n with
  | none => split_ifs <;> rfl
  | some x =>
    have hiff := toUInt64_pos_iff hn
    by_cases hpos : n.val ≥ 1
    · rw [if_pos hpos, toOk_okOr, Option.filter_some_pos (by simpa using hiff.mp hpos)]
    · rw [if_neg hpos, Option.filter_some_neg (by simpa using fun h => hpos (hiff.mpr h))]
      rfl

theorem toOk_unitPriceOf (value : Value) :
    toOk (unitPriceOf value) =
      (toOk (Ports.Piecework.unitPriceOf value)).filter fun price => price ≠ 0 := by
  unfold unitPriceOf Ports.Piecework.unitPriceOf
  simp only [toOk_bind, toOk_okOr]
  cases value.get "unit_price" with
  | none => rfl
  | some v =>
    simp only [Option.map_some, Option.bind_some, Value.asI128]
    cases v.view with
    | int n => exact toOk_positive n
    | null => rfl
    | bool => rfl
    | string => rfl
    | array => rfl
    | object => rfl

theorem toOk_unitsOf (value : Value) :
    toOk (unitsOf value) =
      (toOk (Ports.Piecework.unitsOf value)).filter fun units => units ≠ some 0 := by
  unfold unitsOf Ports.Piecework.unitsOf nullable Value.isNull
  cases value.get "units" with
  | none => rfl
  | some v =>
    simp only [Option.map_some]
    cases hv : v.view with
    | null => rfl
    | int n =>
      simp only [Bool.false_eq_true, if_false, toOk_bind, toOk_okOr, Value.asI128, hv,
        Option.bind_some, toOk_pure]
      cases hn : Ratchet.toUInt64 n with
      | none => split_ifs <;> rfl
      | some x =>
        have hiff := toUInt64_pos_iff hn
        by_cases hpos : n.val ≥ 1
        · rw [if_pos hpos, Option.bind_some,
            Option.filter_some_pos (by simpa using hiff.mp hpos)]
          rfl
        · rw [if_neg hpos, Option.bind_some,
            Option.filter_some_neg (by simpa using fun h => hpos (hiff.mpr h))]
          rfl
    | bool => simp [Value.asI128, hv, toOk_bind]
    | string => simp [Value.asI128, hv, toOk_bind]
    | array => simp [Value.asI128, hv, toOk_bind]
    | object => simp [Value.asI128, hv, toOk_bind]

/-- The names of a key that the primary would let pass. -/
def goodNames (names : List String) : Bool :=
  names.all fun name => name ≠ "" && !name.toList.contains ','

theorem toOk_keyNames_cons (field : Value) (fields : List Value) :
    toOk (keyNames (field :: fields)) = field.asStr.bind fun name =>
      if name ≠ "" && !name.toList.contains ',' then (toOk (keyNames fields)).map (name :: ·)
      else none := by
  rw [keyNames]
  unfold Value.asStr
  cases field.view with
  | string name =>
    by_cases hempty : name = ""
    · simp [hempty]
    · by_cases hcomma : ',' ∈ name.toList
      · simp [hempty, hcomma]
      · simp only [hempty, hcomma, if_false, List.contains_eq_mem, decide_false, ne_eq,
          not_false_eq_true, decide_true, Bool.not_false, Bool.and_self, Option.bind_some,
          Bool.false_eq_true, if_true]
        cases keyNames fields <;> rfl
  | null => rfl
  | bool => rfl
  | int => rfl
  | array => rfl
  | object => rfl

/-- Checking names one by one, and checking them at the end. -/
theorem toOk_keyNames (fields : List Value) :
    toOk (keyNames fields) = (fields.mapM Value.asStr).filter goodNames := by
  induction fields with
  | nil => rfl
  | cons field fields ih =>
    rw [toOk_keyNames_cons, ih, List.mapM_cons]
    cases field.asStr with
    | none => rfl
    | some name =>
      cases fields.mapM Value.asStr with
      | none => simp
      | some names =>
        simp only [bind, Option.bind_some, pure, Option.filter_some, goodNames,
          List.all_cons]
        split_ifs <;> simp_all

theorem goodNames_eq (names : List String) :
    goodNames names = (!(names.any fun name => name = "") &&
      !(names.any fun name => name.toList.contains ',')) := by
  induction names with
  | nil => rfl
  | cons name names ih =>
    unfold goodNames at *
    rw [List.all_cons, List.any_cons, List.any_cons, ih]
    simp only [ne_eq, decide_not]
    cases decide (name = "") <;> cases name.toList.contains ',' <;> simp

/-- A key as the primary would let it pass. -/
def goodKey : Option UnitKey → Bool
  | none => true
  | some (.field name) => name ≠ ""
  | some (.fields names) => names ≠ [] && goodNames names

theorem toOk_checkKey (key : Option UnitKey) :
    toOk (Ports.Piecework.checkKey key) =
      if goodKey key then some () else none := by
  cases key with
  | none => rfl
  | some key =>
    cases key with
    | field name =>
      simp only [Ports.Piecework.checkKey, goodKey]
      split_ifs <;> simp_all
    | fields names =>
      simp only [Ports.Piecework.checkKey, goodKey, goodNames_eq]
      cases hempty : names.any fun name => name = "" with
      | true => simp
      | false =>
        cases hcomma : names.any fun name => name.toList.contains ',' with
        | true => by_cases hnil : names = [] <;> simp [hnil]
        | false => by_cases hnil : names = [] <;> simp [hnil]

theorem toOk_keyOf (value : Value) :
    toOk (keyOf value) = (toOk (Ports.Piecework.keyOf value)).filter goodKey := by
  unfold keyOf Ports.Piecework.keyOf nullable Value.isNull
  cases value.get "key" with
  | none => rfl
  | some v =>
    simp only [Option.map_some]
    cases hv : v.view with
    | null => rfl
    | string name =>
      simp only [Bool.false_eq_true, if_false, Value.asStr, hv]
      split_ifs with hname <;> simp [Option.filter, goodKey, hname]
    | array fields =>
      have hstr : v.asStr = none := by
        unfold Value.asStr
        rw [hv]
      have harray : v.asArray = some fields := by
        unfold Value.asArray
        rw [hv]
      simp only [Bool.false_eq_true, if_false, toOk_bind, toOk_keyNames, hstr,
        harray]
      cases fields.mapM Value.asStr with
      | none => rfl
      | some names =>
        by_cases hgood : goodNames names = true
        · rw [Option.filter_some_pos hgood, Option.bind_some]
          by_cases hnil : names = []
          · rw [if_pos hnil]
            simp only [okOr_some, Except.map, toOk_ok, goodKey, hnil, ne_eq, Option.filter,
              not_true_eq_false, decide_false, Bool.false_and, Bool.false_eq_true, if_false]
            rfl
          · simp [Except.map, Option.filter, goodKey, hnil, hgood]
        · rw [Option.filter_some_neg (by simpa using hgood)]
          simp [Except.map, Option.filter, goodKey, hgood]
    | bool => simp [Value.asStr, Value.asArray, hv]
    | int => simp [Value.asStr, Value.asArray, hv]
    | object => simp [Value.asStr, Value.asArray, hv]

theorem toOk_itemsOf (value : Value) :
    toOk (itemsOf value) =
      (toOk (Ports.Piecework.itemsOf value)).filter fun items => items ≠ some "" := by
  unfold itemsOf Ports.Piecework.itemsOf nullable Value.isNull
  cases value.get "items" with
  | none => rfl
  | some v =>
    simp only [Option.map_some]
    cases hv : v.view with
    | null => rfl
    | string items =>
      simp only [Bool.false_eq_true, if_false, Value.asStr, hv, okOr_some, Except.map]
      split_ifs with hitems <;> simp [Option.filter, hitems]
    | array => simp [Value.asStr, hv, okOr, Except.map]
    | bool => simp [Value.asStr, hv, okOr, Except.map]
    | int => simp [Value.asStr, hv, okOr, Except.map]
    | object => simp [Value.asStr, hv, okOr, Except.map]

theorem toOk_validate (p : Piecework) :
    toOk p.validate =
      if (p.unitPrice ≠ 0 ∧ p.units ≠ some 0) ∧ goodKey p.key = true ∧ p.items ≠ some "" then
        some () else none := by
  have hkey := toOk_checkKey p.key
  unfold Ports.Piecework.validate
  by_cases hprice : p.unitPrice = 0
  · rw [if_pos hprice]
    exact (if_neg fun h => h.1.1 hprice).symm
  by_cases hunits : p.units = some 0
  · rw [if_neg hprice, if_pos hunits]
    exact (if_neg fun h => h.1.2 hunits).symm
  rw [if_neg hprice, if_neg hunits, toOk_bind, hkey]
  by_cases hgood : goodKey p.key = true
  · rw [if_pos hgood, Option.bind_some]
    by_cases hitems : p.items = some ""
    · rw [if_pos hitems]
      exact (if_neg fun h => h.2.2 hitems).symm
    · rw [if_neg hitems]
      exact (if_pos ⟨⟨hprice, hunits⟩, hgood, hitems⟩).symm
  · rw [if_neg hgood]
    exact (if_neg fun h => hgood h.2.1).symm

/-- The two decoders accept the same blocks and read the same job. -/
theorem fromValue_agree (value : Value) :
    toOk (Ports.Piecework.fromValue value) = toOk (fromValue value) := by
  unfold Ports.Piecework.fromValue fromValue
  cases hobject : value.asObject with
  | none => rfl
  | some map =>
    simp only [Option.isNone_some, Bool.false_eq_true, if_false, toOk_bind,
      toOk_unitPriceOf, toOk_unitsOf, toOk_keyOf, toOk_itemsOf, toOk_validate, toOk_pure]
    cases toOk (Ports.Piecework.unitPriceOf value) with
    | none => rfl
    | some price =>
    cases toOk (Ports.Piecework.unitsOf value) with
    | none => simp
    | some units =>
    cases toOk (Ports.Piecework.keyOf value) with
    | none => simp
    | some key =>
    cases toOk (Ports.Piecework.itemsOf value) with
    | none => simp
    | some items =>
      by_cases hprice : price = 0
      · simp [Option.filter, hprice]
      by_cases hunits : units = some 0
      · simp [Option.filter, hprice, hunits]
      by_cases hgood : goodKey key = true
      · by_cases hitems : items = some ""
        · simp [Option.filter, hprice, hunits, hgood, hitems]
        · simp [Option.filter, hprice, hunits, hgood, hitems]
      · simp [Option.filter, hprice, hunits, hgood]

section Keys

variable [Sha256]

omit [Sha256] in
/-- Collecting the fields and inserting them one by one. -/
theorem subObject_eq (unit : Value) (fields : List String) (sub : BTreeMap String Value) :
    subObject unit fields sub =
      (fields.mapM fun name => (unit.get name).map fun v => (name, v)).map fun pairs =>
        pairs.foldl (fun map pair => map.insert pair.1 pair.2) sub := by
  induction fields generalizing sub with
  | nil => rfl
  | cons field fields ih =>
    rw [subObject, List.mapM_cons]
    cases unit.get field with
    | none => rfl
    | some value =>
      simp only [bind, Option.bind_some, Option.map_some, pure, ih]
      cases fields.mapM fun name => (unit.get name).map fun v => (name, v) <;> rfl

theorem noveltyKey_eq (p : Piecework) (unit : Value) : noveltyKey p unit = p.noveltyKey unit := by
  unfold noveltyKey Ports.Piecework.noveltyKey
  simp only [digest_eq]
  cases p.key with
  | none => rfl
  | some key =>
    cases key with
    | field name => rfl
    | fields names =>
      simp only [subObject_eq, bind]
      cases names.mapM fun name => (unit.get name).map fun v => (name, v) <;> rfl

theorem unitKeys_eq (p : Piecework) (artifact : Value) :
    unitKeys p artifact = p.unitKeys artifact := by
  have hfold : ∀ (units : List Value) (out : List String),
      units.foldl (fun out unit => push out (noveltyKey p unit)) out =
        (units.filterMap p.noveltyKey).foldl
          (fun out key => if key ∈ out then out else out ++ [key]) out := by
    intro units
    induction units with
    | nil =>
      intro out
      rfl
    | cons unit units ih =>
      intro out
      rw [List.foldl_cons, ih, noveltyKey_eq, List.filterMap_cons]
      cases p.noveltyKey unit <;> rfl
  unfold unitKeys Ports.Piecework.unitKeys Ports.Piecework.unitsIn
  cases p.items with
  | none => exact hfold [artifact] []
  | some items =>
    unfold Value.asArray
    dsimp only
    cases artifact.get items with
    | none => rfl
    | some v =>
      simp only [Option.map_some, Option.bind_some]
      cases v.view with
      | array elements => exact hfold elements []
      | null => rfl
      | bool => rfl
      | int => rfl
      | string => rfl
      | object => rfl

end Keys

theorem payoutFor_eq (p : Piecework) (novel : Nat) (remaining : UInt64) :
    payoutFor p novel remaining = p.payoutFor novel remaining := rfl

theorem unitRange_eq (p : Piecework) (slice : UInt64 × UInt64) :
    unitRange p slice = p.unitRange slice := by
  unfold unitRange Ports.Piecework.unitRange
  cases p.units with
  | none => rfl
  | some units =>
    simp only [UInt64.lt_iff_toNat_lt, Option.map_some, Ports.Piecework.SPACE]
    split_ifs <;> rfl

end Piecework

/-! ## Agreement on citation flow -/

namespace Attribution

open Ports.Attribution (Frame Frame.turn creditRow resolvableCites)

theorem dedup_of_nodup {xs : List String} (h : xs.Nodup) : dedup xs = xs := by
  induction xs using dedup.induct with
  | case1 a rest ih => simp at h
  | case2 a b rest hne ih =>
    rw [dedup, if_neg hne, ih (List.nodup_cons.mp h).2]
  | case3 a => rw [dedup]
  | case4 => rw [dedup]

variable {claims : BTreeMap String Claim} {p : FlowParams} {root : String}

/-- Where no claim is cited twice, both follow the same citations. -/
theorem citesOf_eq {claim : Claim} (h : claim.cites.Nodup) (path : List String) :
    citesOf claim claims path = resolvableCites claim claims path := by
  have hfilter : (claim.cites.filter fun cited => claims.containsKey cited).filter (fun cited =>
      !path.any fun seen => seen = cited) =
      claim.cites.filter fun cited => claims.containsKey cited && !path.contains cited := by
    rw [List.filter_filter]
    refine List.filter_congr fun cited _ => ?_
    have hany : (path.any fun seen => seen = cited) = path.contains cited := by
      rw [Bool.eq_iff_iff]
      simp
    rw [hany, Bool.and_comm]
  unfold citesOf resolvableCites
  rw [hfilter]
  refine dedup_of_nodup ?_
  exact (List.perm_insertionSort _ _).nodup_iff.mpr (h.filter _)

theorem upstreamOf_eq (share : Nat) : upstreamOf share p = Ports.Attribution.upstreamOf share p :=
  if_neg p.deltaDen_pos

/-- One citation after another: each child in turn, on the path with the claim
pushed. -/
theorem foldlM_children {deep : Nat} {frame : Frame} {upstream fanout : Nat}
    (hfanout : 0 < fanout) (hfits : upstream < UInt64.size)
    (ih : ∀ (next : Frame) (payouts : BTreeMap String Nat),
      next ∈ (frame.turn claims p).2 →
      distribute claims p deep next.id next.share next.depth (next.path, payouts) =
        some (next.path,
          (WorkStack.recursion (Frame.turn claims p) deep next).foldl creditRow payouts))
    (cites : List (String × Nat))
    (hcited : ∀ cited ∈ cites, (claims.get? cited.1).isSome ∧
      ∀ next, frame.child claims upstream fanout cited = some next →
        next ∈ (frame.turn claims p).2) (payouts : BTreeMap String Nat) :
    cites.foldlM (fun shared cited =>
        let portion := if cited.2 < upstream % fanout then upstream / fanout + 1
          else upstream / fanout
        if portion = 0 then some shared
        else distribute claims p deep cited.1 portion (min (frame.depth + 1) (UInt32.size - 1)) shared)
      (frame.path ++ [frame.id], payouts) =
      some (frame.path ++ [frame.id],
        ((cites.filterMap (frame.child claims upstream fanout)).flatMap
          (WorkStack.recursion (Frame.turn claims p) deep)).foldl creditRow payouts) := by
  induction cites generalizing payouts with
  | nil => rfl
  | cons cited cites ihcites =>
    have hrest := ihcites fun other hother => hcited other (by simp [hother])
    obtain ⟨hsome, hpushed⟩ := hcited cited (by simp)
    obtain ⟨claim, hclaim⟩ := Option.isSome_iff_exists.mp hsome
    have hportion : (if cited.2 < upstream % fanout then upstream / fanout + 1
        else upstream / fanout) = Ports.Attribution.portionAt upstream fanout cited.2 := by
      rw [Frame.portionAt_eq hfanout hfits]
      split_ifs <;> rfl
    rw [List.foldlM_cons, List.filterMap_cons]
    simp only [hportion]
    by_cases hzero : Ports.Attribution.portionAt upstream fanout cited.2 = 0
    · have hnone : frame.child claims upstream fanout cited = none := if_pos hzero
      rw [if_pos hzero, hnone]
      exact hrest payouts
    · obtain ⟨next, hnext⟩ : ∃ next, frame.child claims upstream fanout cited = some next := by
        unfold Frame.child
        rw [if_neg hzero, hclaim]
        exact ⟨_, rfl⟩
      obtain ⟨hid, -, hshare, hdepth, hpath⟩ := Frame.child_spec hnext
      have hcall := ih next payouts (hpushed next hnext)
      rw [hid, hshare, hdepth, hpath] at hcall
      rw [if_neg hzero, hnext]
      simp only [Ports.Attribution.maxU32] at hcall
      simp only [bind, hcall, Option.bind_some, List.flatMap_cons, List.foldl_append]
      exact hrest _

/-- The recursion below a claim leaves the path as it was, and credits what the
primary's frame and all it pushes would. -/
theorem distribute_eq (hcites : ∀ id claim, claims.get? id = some claim → claim.cites.Nodup)
    (deep : Nat) : ∀ (frame : Frame) (payouts : BTreeMap String Nat),
      frame.Standing claims p root → frame.rank claims < deep →
      distribute claims p deep frame.id frame.share frame.depth (frame.path, payouts) =
        some (frame.path,
          (WorkStack.recursion (Frame.turn claims p) deep frame).foldl creditRow payouts) := by
  induction deep with
  | zero =>
    intro frame payouts _ hrank
    exact absurd hrank (Nat.not_lt_zero _)
  | succ deep ih =>
    intro frame payouts hframe hrank
    have hle : Ports.Attribution.upstreamOf frame.share p ≤ frame.share := Nat.min_le_right _ _
    rw [distribute, hframe.here]
    simp only [citesOf_eq (hcites _ _ hframe.here), upstreamOf_eq]
    rw [WorkStack.recursion]
    by_cases hleaf : p.maxDepth.toNat ≤ frame.depth ∨
        resolvableCites frame.claim claims frame.path = []
    · have hturn : frame.turn claims p = ((frame.claim.submitter, frame.share), []) :=
        if_pos hleaf
      rw [if_pos hleaf, hturn]
      rfl
    · rw [if_neg hleaf]
      by_cases hzero : Ports.Attribution.upstreamOf frame.share p = 0
      · have hturn : frame.turn claims p =
            ((frame.claim.submitter, frame.share - 0), []) := by
          unfold Frame.turn
          dsimp only
          rw [if_neg hleaf, if_pos hzero, hzero]
        rw [if_pos hzero, hzero, hturn]
        rfl
      · have hturn : frame.turn claims p =
            ((frame.claim.submitter,
                frame.share - Ports.Attribution.upstreamOf frame.share p),
              (resolvableCites frame.claim claims frame.path).zipIdx.filterMap
                (frame.child claims (Ports.Attribution.upstreamOf frame.share p)
                  (max (resolvableCites frame.claim claims frame.path).length 1))) := by
          unfold Frame.turn
          dsimp only
          rw [if_neg hleaf, if_neg hzero]
        have hfold := @foldlM_children claims p deep frame
          (Ports.Attribution.upstreamOf frame.share p)
          (max (resolvableCites frame.claim claims frame.path).length 1)
          (by omega) (lt_of_le_of_lt hle hframe.share_lt)
          (fun next payouts hnext => ih next payouts (hframe.pushed hnext) (by
            have hlt := Frame.rank_lt hframe hnext
            omega))
          (resolvableCites frame.claim claims frame.path).zipIdx
          (fun cited hcited => by
            refine ⟨(Frame.mem_resolvableCites.mp (List.fst_mem_of_mem_zipIdx hcited)).2.1, ?_⟩
            intro next hnext
            rw [hturn]
            exact List.mem_filterMap.mpr ⟨cited, hcited, hnext⟩)
          (credit payouts frame.claim.submitter
            (frame.share - Ports.Attribution.upstreamOf frame.share p))
        rw [if_neg hzero]
        simp only [bind] at hfold ⊢
        rw [hfold, Option.bind_some, List.dropLast_concat, hturn]
        rfl

/-- A sum that saturates, where it does not. -/
theorem foldl_saturating {xs : List Nat} {sum : Nat} (h : sum + xs.sum < UInt64.size) :
    xs.foldl (fun sum units => min (sum + units) (UInt64.size - 1)) sum = sum + xs.sum := by
  induction xs generalizing sum with
  | nil => rfl
  | cons x xs ih =>
    rw [List.sum_cons] at h
    rw [List.foldl_cons, Nat.min_eq_left (by omega), ih (by omega), List.sum_cons]
    omega

/-- What the recursion credits from the first claim on. -/
theorem distribute_root {claimId : String} {claim : Claim}
    (hcites : ∀ id claim, claims.get? id = some claim → claim.cites.Nodup)
    (hroot : claims.get? claimId = some claim) (amount : UInt64) {deep : Nat}
    (hdeep : (Ports.Attribution.rootFrame claimId claim amount).rank claims < deep) :
    distribute claims p deep claimId amount.toNat 0 ([], .empty) = some ([],
      .tally (Ports.Attribution.flowRows claims p
        (Ports.Attribution.rootFrame claimId claim amount))) := by
  have hstanding := Ports.Attribution.standing_root hroot amount p
  have hrows : WorkStack.rows (Frame.turn claims p) deep
      (Ports.Attribution.rootFrame claimId claim amount) =
      Ports.Attribution.flowRows claims p (Ports.Attribution.rootFrame claimId claim amount) :=
    WorkStack.rows_of_le Frame.ranked hstanding (Nat.lt_succ_self _) hdeep
  have hperm := @WorkStack.rows_perm_recursion _ _ (Frame.turn claims p) deep
    (Ports.Attribution.rootFrame claimId claim amount)
  have htotal : BTreeMap.rowsTotal (WorkStack.recursion (Frame.turn claims p) deep
      (Ports.Attribution.rootFrame claimId claim amount)) = amount.toNat := by
    have hshare := Ports.Attribution.rowsTotal_flowRows hstanding
    rw [← hrows] at hshare
    exact (hperm.symm.map Prod.snd).sum_eq.trans hshare
  refine (distribute_eq hcites deep _ .empty hstanding hdeep).trans ?_
  rw [Ports.Attribution.foldl_creditRow _ _ (by
    rw [htotal, BTreeMap.total_empty, Nat.zero_add]
    exact amount.toNat_lt), ← BTreeMap.creditAll_perm _ hperm, hrows]
  rfl

/-- Where no claim is cited twice the recursion and the loop end with the same
payouts. -/
theorem flow_agree (hcites : ∀ id claim, claims.get? id = some claim → claim.cites.Nodup)
    (claimId : String) (amount : UInt64) (p : FlowParams) : ∃ turns deep payouts,
    (∀ more, turns ≤ more →
      Ports.Attribution.flow more claimId amount claims p = some payouts) ∧
    ∀ more, deep ≤ more → flow more claimId amount claims p = some payouts := by
  by_cases hzero : amount = 0
  · exact ⟨0, 0, .empty, fun _ _ => if_pos hzero, fun _ _ => if_pos hzero⟩
  cases hroot : claims.get? claimId with
  | none =>
    refine ⟨0, 0, .empty, fun more _ => ?_, fun more _ => ?_⟩
    · rw [Ports.Attribution.flow, if_neg hzero, hroot]
    · simp [flow, hzero, BTreeMap.containsKey, hroot]
  | some claim =>
    have hstanding := Ports.Attribution.standing_root hroot amount p
    have htotal := Ports.Attribution.rowsTotal_flowRows hstanding
    refine ⟨(Ports.Attribution.flowRows claims p
        (Ports.Attribution.rootFrame claimId claim amount)).length + 1,
      (Ports.Attribution.rootFrame claimId claim amount).rank claims + 1,
      .tally (Ports.Attribution.flowRows claims p
        (Ports.Attribution.rootFrame claimId claim amount)), fun more hmore => ?_,
      fun more hmore => ?_⟩
    · rw [Ports.Attribution.flow, if_neg hzero, hroot]
      dsimp only
      rw [Ports.Attribution.flowLoop_eq hstanding (by omega), Option.map_some,
        Ports.Attribution.backstop, BTreeMap.total_tally, htotal]
      exact congrArg some (if_neg fun h => absurd h.2 (Nat.lt_irrefl _))
    · have hvalues : (BTreeMap.tally (Ports.Attribution.flowRows claims p
          (Ports.Attribution.rootFrame claimId claim amount))).values.sum = amount.toNat := by
        rw [← BTreeMap.total, BTreeMap.total_tally, htotal]
        rfl
      have hsum := @foldl_saturating _ 0 (by
        rw [Nat.zero_add, hvalues]
        exact amount.toNat_lt)
      have hkey : claims.containsKey claimId = true := by
        rw [BTreeMap.containsKey, hroot]
        rfl
      have hrun := @distribute_root claims p claimId _ hcites hroot amount more (by omega)
      rw [flow, if_neg hzero, hkey]
      simp only [Bool.not_true, Bool.false_eq_true, if_false, bind, hrun, Option.bind_some, hsum,
        hvalues, Nat.zero_add, Nat.lt_irrefl]

theorem nodup_of_checkCites {seen cites : List String}
    (h : Claim.checkCites seen cites = .ok ()) :
    cites.Nodup ∧ ∀ cited ∈ cites, cited ∉ seen := by
  induction cites generalizing seen with
  | nil => exact ⟨List.nodup_nil, by simp⟩
  | cons cited rest ih =>
    rw [Claim.checkCites] at h
    split_ifs at h with hseen
    obtain ⟨hnodup, hfresh⟩ := ih h
    refine ⟨List.nodup_cons.mpr ⟨fun hmem => hfresh cited hmem (by simp), hnodup⟩, ?_⟩
    intro other hother
    rcases List.mem_cons.mp hother with rfl | hother
    · exact hseen
    · exact fun hmem => hfresh other hother (List.mem_cons_of_mem _ hmem)

theorem nodup_cites_of_validate {claim : Claim} (h : claim.validate = .ok ()) :
    claim.cites.Nodup := by
  unfold Claim.validate at h
  obtain ⟨_, -, h⟩ := bind_eq_ok.mp h
  split_ifs at h with hobject
  · cases h
  · obtain ⟨_, hcheck, -⟩ := bind_eq_ok.mp h
    exact (nodup_of_checkCites hcheck).1

end Attribution

/-! ## One set of money rules -/

section Rules

variable [Sha256]

/-- The decoders accept the same ratchets and jobs and read the same fields; on
a ratchet that was accepted, on any job, and on any graph of valid claims, both
compute the same, and the primary without an error. -/
theorem money_agrees :
    (∀ value, toOk (Ports.Ratchet.fromValue value) = toOk (Ratchet.fromValue value)) ∧
    (∀ value r, Ports.Ratchet.fromValue value = .ok r →
      Ratchet.span r = r.span ∧
      (∀ score, Ratchet.progress r score = r.progress score) ∧
      (∀ old new, Ratchet.improves r old new = r.improves old new) ∧
      (∀ score, ∃ paid, r.cumulative score = .ok paid ∧ paid.toNat = Ratchet.cumulative r score) ∧
      (∀ old new, ∃ reward, r.payout old new = .ok reward ∧
        reward.toNat = Ratchet.payout r old new) ∧
      ∀ score, Ratchet.exhausted r score = r.exhausted score) ∧
    (∀ value, toOk (Ports.Piecework.fromValue value) = toOk (Piecework.fromValue value)) ∧
    (∀ p unit, Piecework.noveltyKey p unit = p.noveltyKey unit) ∧
    (∀ p artifact, Piecework.unitKeys p artifact = p.unitKeys artifact) ∧
    (∀ p novel remaining, Piecework.payoutFor p novel remaining = p.payoutFor novel remaining) ∧
    (∀ p slice, Piecework.unitRange p slice = p.unitRange slice) ∧
    ∀ claims : BTreeMap String Claim,
      (∀ id claim, claims.get? id = some claim → claim.validate = .ok ()) →
      ∀ claimId amount p, ∃ turns deep payouts,
        (∀ more, turns ≤ more →
          Ports.Attribution.flow more claimId amount claims p = some payouts) ∧
        ∀ more, deep ≤ more → Attribution.flow more claimId amount claims p = some payouts := by
  refine ⟨Ratchet.fromValue_agree, fun value r haccepted => ?_, Piecework.fromValue_agree,
    Piecework.noveltyKey_eq, Piecework.unitKeys_eq, Piecework.payoutFor_eq,
    Piecework.unitRange_eq, fun claims hvalid claimId amount p => ?_⟩
  · have h := Ports.Ratchet.fromValue_valid haccepted
    exact ⟨Ratchet.span_eq h, Ratchet.progress_eq h, Ratchet.improves_eq h,
      Ratchet.cumulative_eq h, Ratchet.payout_eq h, Ratchet.exhausted_eq h⟩
  · exact Attribution.flow_agree
      (fun id claim hclaim => Attribution.nodup_cites_of_validate (hvalid id claim hclaim))
      claimId amount p

end Rules

/-- Ten units for a score of a hundred. -/
def sampleRatchet : Value :=
  .object [("baseline", .int ⟨0, by decide⟩), ("target", .int ⟨100, by decide⟩),
    ("reward", .int ⟨10, by decide⟩)]

/-- A claim of an empty artifact. -/
def samplePaper (submitter : String) (cites : List String) : Claim where
  objectiveId := "objective"
  submitter := submitter
  artifact := .object []
  nonce := "n"
  createdAt := "2026-01-01T00:00:00Z"
  cites := cites
  relations := []
  signature := none

/-- A circle, a citation of itself and one of nothing. -/
def samplePapers : BTreeMap String Claim :=
  .ofList [("a", samplePaper "alice" ["a", "b", "missing"]), ("b", samplePaper "bob" ["a"])]

theorem money_agrees_sample :
    (∃ r, Ports.Ratchet.fromValue sampleRatchet = .ok r ∧ Ratchet.span r = r.span) ∧
    ∃ turns deep payouts,
      (∀ more, turns ≤ more →
        Ports.Attribution.flow more "a" 100 samplePapers .default = some payouts) ∧
      ∀ more, deep ≤ more → Attribution.flow more "a" 100 samplePapers .default = some payouts := by
  obtain ⟨-, hratchet, -, -, -, -, -, hflow⟩ := @money_agrees (.ofTable [])
  refine ⟨⟨⟨0, 100, 10, .maximize, 1⟩, by rfl, (hratchet sampleRatchet _ (by rfl)).1⟩, ?_⟩
  refine hflow samplePapers (fun id claim hclaim => ?_) "a" 100 .default
  have hmem := BTreeMap.get?_eq_some_iff.mp hclaim
  rcases List.mem_pair.mp hmem with hpair | hpair
  · cases hpair
    rfl
  · cases hpair
    rfl

end Cairn.Ports.Reference
