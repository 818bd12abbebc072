import Cairn.Ports.Records.Claim
import Cairn.Verified.Apportion
import Cairn.Verified.Search
import Cairn.Verified.Tally
import Mathlib.Data.List.Sort

/-!
# Citation flow

`src/attribution.rs`: a settled claim keeps a part of its reward and sends the
rest to the claims it stands on. `payouts_inner` splits what goes upstream
among all transitive ancestors by what each was settled for, after a share
reserved for the citation the protocol enforced. Amounts are `u64` in the
source and natural numbers here; where the source narrows, saturates or checks,
so does the model.
-/

namespace Cairn.Ports

open Cairn.Verified
open Cairn.Ports.Canonical

inductive FlowError where
  | zeroDenominator
  | deltaAboveOne (num den : UInt64)
  | payoutOverflow (who : String)
deriving DecidableEq

/-- How far value travels, and how much of it goes. The fields are private in
the source and its constructors check them, so a value has passed the checks. -/
structure FlowParams where
  deltaNum : UInt64
  deltaDen : UInt64
  maxDepth : UInt32
  reservedNum : UInt64
  reservedDen : UInt64
  deltaDen_pos : deltaDen ≠ 0
  delta_le : deltaNum ≤ deltaDen
  reservedDen_pos : reservedDen ≠ 0
  reserved_le : reservedNum ≤ reservedDen

namespace FlowParams

def new (deltaNum deltaDen : UInt64) (maxDepth : UInt32) : Except FlowError FlowParams :=
  if hden : deltaDen = 0 then .error .zeroDenominator
  else if hle : deltaNum > deltaDen then .error (.deltaAboveOne deltaNum deltaDen)
  else .ok
    { deltaNum, deltaDen, maxDepth
      reservedNum := 0
      reservedDen := 1
      deltaDen_pos := hden
      delta_le := UInt64.not_lt.mp hle
      reservedDen_pos := by decide
      reserved_le := by decide }

def withReserved (p : FlowParams) (reservedNum reservedDen : UInt64) :
    Except FlowError FlowParams :=
  if hden : reservedDen = 0 then .error .zeroDenominator
  else if hle : reservedNum > reservedDen then .error (.deltaAboveOne reservedNum reservedDen)
  else .ok
    { p with
      reservedNum, reservedDen
      reservedDen_pos := hden
      reserved_le := UInt64.not_lt.mp hle }

/-- A quarter goes upstream, six hops at most, nothing reserved. -/
def default : FlowParams where
  deltaNum := 1
  deltaDen := 4
  maxDepth := 6
  reservedNum := 0
  reservedDen := 1
  deltaDen_pos := by decide
  delta_le := by decide
  reservedDen_pos := by decide
  reserved_le := by decide

end FlowParams

/-- `u64::try_from(n).unwrap_or(fallback)`. -/
def narrow (n fallback : Nat) : Nat := if n < UInt64.size then n else fallback

/-- `u64::MAX`. -/
def maxU64 : Nat := UInt64.size - 1

theorem narrow_of_le {n m fallback : Nat} (h : n ≤ m) (hm : m < UInt64.size) :
    narrow n fallback = n := if_pos (lt_of_le_of_lt h hm)

namespace Attribution

/-! ## Ancestors -/

/-- The citations of a claim that name a claim of the map. -/
def resolvedCites (claims : BTreeMap String Claim) (id : String) : List String :=
  match claims.get? id with
  | some claim => claim.cites.filter fun cited => (claims.get? cited).isSome
  | none => []

/-- `ancestors_of`: every transitive ancestor, sorted, without the claim. A
level that goes on has seen a new key, so the keys bound the levels. -/
def ancestorsOf (claimId : String) (claims : BTreeMap String Claim) : List String :=
  (Search.search claimId (resolvedCites claims) (claims.entries.length + 1) []
    (resolvedCites claims claimId)).insertionSort (· ≤ ·)

/-- One claim of the map cites another. -/
def CitesIn (claims : BTreeMap String Claim) (a b : String) : Prop :=
  ∃ claim, claims.get? a = some claim ∧ b ∈ claim.cites ∧ (claims.get? b).isSome

variable {claims : BTreeMap String Claim} {claimId : String} {row : String × Nat} {upstream : Nat}
  {weighted : List (String × UInt64)} {rows : List (String × Nat)}

theorem mem_resolvedCites {a b : String} : b ∈ resolvedCites claims a ↔ CitesIn claims a b := by
  unfold resolvedCites CitesIn
  cases claims.get? a with
  | none => simp
  | some claim => simp

/-- The ancestors are what a finished search has seen, sorted. -/
theorem complete_ancestorsOf (claims : BTreeMap String Claim) (claimId : String) :
    ∃ seen, Search.Complete claimId (resolvedCites claims) seen ∧
      ancestorsOf claimId claims = seen.insertionSort (· ≤ ·) := by
  have hkeys : ∀ x, ∀ y ∈ resolvedCites claims x, y ∈ claims.entries.map Prod.fst := by
    intro x y hy
    obtain ⟨claim, -, -, hsome⟩ := mem_resolvedCites.mp hy
    obtain ⟨c, hc⟩ := Option.isSome_iff_exists.mp hsome
    exact List.mem_map_of_mem (f := Prod.fst) (BTreeMap.get?_eq_some_iff.mp hc)
  exact ⟨_, Search.search_complete hkeys (claims.entries.length + 1) []
    (resolvedCites claims claimId) Search.Searching.start (hkeys claimId) (by simp), rfl⟩

theorem mem_ancestorsOf {id : String} :
    id ∈ ancestorsOf claimId claims ↔
      id ≠ claimId ∧ Relation.TransGen (CitesIn claims) claimId id := by
  obtain ⟨seen, hcomplete, heq⟩ := complete_ancestorsOf claims claimId
  rw [heq, List.mem_insertionSort, hcomplete.mem_iff]
  simp only [mem_resolvedCites]

/-- Every ancestor is a claim of the map. -/
theorem isSome_of_mem_ancestorsOf {id : String} (h : id ∈ ancestorsOf claimId claims) :
    (claims.get? id).isSome := by
  obtain ⟨b, -, claim, -, -, hsome⟩ := Relation.TransGen.tail'_iff.mp (mem_ancestorsOf.mp h).2
  exact hsome

/-! ## Splitting a settlement -/

def upstreamOf (share : Nat) (p : FlowParams) : Nat :=
  min (narrow (share * p.deltaNum.toNat / p.deltaDen.toNat) share) share

def reservedOf (p : FlowParams) (upstream : Nat) : Nat :=
  narrow (upstream * p.reservedNum.toNat / p.reservedDen.toNat) maxU64

/-- The last reward listed for each id. -/
def weightsOf (settlements : List (String × UInt64)) : BTreeMap String UInt64 :=
  BTreeMap.ofList settlements

/-- The ancestors that were settled for something. -/
def weightedAncestors (weights : BTreeMap String UInt64) (claims : BTreeMap String Claim)
    (claimId : String) : List (String × UInt64) :=
  (ancestorsOf claimId claims).filterMap fun id =>
    ((weights.get? id).filter fun w => w > 0).map fun w => (id, w)

def totalWeight (weighted : List (String × UInt64)) : Nat :=
  (weighted.map fun p => p.2.toNat).sum

/-- One row of the split: whose, how much, and what the floor cut off. -/
structure Portion where
  id : String
  share : Nat
  remainder : Nat

def portionsOf (upstream total : Nat) (weighted : List (String × UInt64)) : List Portion :=
  weighted.map fun p =>
    { id := p.1
      share := narrow (upstream * p.2.toNat / total) maxU64
      remainder := upstream * p.2.toNat % total }

/-- The floors, added with saturation. -/
def allocated (portions : List Portion) : Nat :=
  portions.foldl (fun sum p => min (sum + p.share) maxU64) 0

/-- Largest remainder first, ties by id. -/
def servedBefore (a b : Portion) : Prop :=
  b.remainder < a.remainder ∨ (a.remainder = b.remainder ∧ a.id ≤ b.id)

instance : DecidableRel servedBefore := fun _ _ => inferInstanceAs (Decidable (_ ∨ _))

/-- The order the odd units are handed out in. -/
def serviceOrder (portions : List Portion) : List Nat :=
  (portions.zipIdx.insertionSort fun a b => servedBefore a.1 b.1).map Prod.snd

def Portion.bump (p : Portion) : Portion := { p with share := min (p.share + 1) maxU64 }

/-- One unit to each index until none is left. -/
def handOut : Nat → List Nat → List Portion → List Portion
  | 0, _, portions => portions
  | _ + 1, [], portions => portions
  | leftover + 1, i :: order, portions => handOut leftover order (portions.modify i Portion.bump)

/-- Largest remainders: the floors, and the odd units on top. -/
def apportion (upstream total : Nat) (weighted : List (String × UInt64)) : List Portion :=
  let portions := portionsOf upstream total weighted
  handOut (upstream - allocated portions) (serviceOrder portions) portions

/-! ## `payouts_inner` -/

/-- Add to a running total, refusing to wrap. -/
def add (totals : BTreeMap String Nat) (who : String) (units : Nat) :
    Except FlowError (BTreeMap String Nat) :=
  if totals.amount who + units < UInt64.size then .ok (totals.credit who units)
  else .error (.payoutOverflow who)

/-- Pay the reserved share, if its target carries weight. -/
def payReserved (claims : BTreeMap String Claim) (enforced : BTreeMap String String)
    (p : FlowParams) (weighted : List (String × UInt64)) (claimId : String) (upstream : Nat)
    (totals : BTreeMap String Nat) : Except FlowError (BTreeMap String Nat × Nat) :=
  match enforced.get? claimId with
  | none => .ok (totals, upstream)
  | some target =>
    if weighted.any fun w => w.1 = target then
      let reserved := min (reservedOf p upstream) upstream
      if reserved > 0 then
        match claims.get? target with
        | some ancestor => do
            let totals ← add totals ancestor.submitter reserved
            return (totals, upstream - reserved)
        | none => .ok (totals, upstream)
      else .ok (totals, upstream)
    else .ok (totals, upstream)

/-- Pay the portions of claims that are there. -/
def payPortions (claims : BTreeMap String Claim) (totals : BTreeMap String Nat) :
    List Portion → Except FlowError (BTreeMap String Nat)
  | [] => .ok totals
  | portion :: rest =>
    if portion.share = 0 then payPortions claims totals rest
    else
      match claims.get? portion.id with
      | some ancestor => do
          let totals ← add totals ancestor.submitter portion.share
          payPortions claims totals rest
      | none => payPortions claims totals rest

/-- The body of the loop over settlements. -/
def settleInto (weights : BTreeMap String UInt64) (claims : BTreeMap String Claim)
    (enforced : BTreeMap String String) (p : FlowParams) (totals : BTreeMap String Nat)
    (settlement : String × UInt64) : Except FlowError (BTreeMap String Nat) :=
  if settlement.2 = 0 then .ok totals
  else
    match claims.get? settlement.1 with
    | none => .ok totals
    | some claim =>
      let weighted := weightedAncestors weights claims settlement.1
      let total := totalWeight weighted
      if weighted = [] ∨ total = 0 then add totals claim.submitter settlement.2.toNat
      else do
        let upstream := upstreamOf settlement.2.toNat p
        let totals ← add totals claim.submitter (settlement.2.toNat - upstream)
        if upstream = 0 then return totals
        let (totals, upstream) ← payReserved claims enforced p weighted settlement.1 upstream totals
        if upstream = 0 then return totals
        payPortions claims totals (apportion upstream total weighted)

def payoutsInner (settlements : List (String × UInt64)) (claims : BTreeMap String Claim)
    (enforced : BTreeMap String String) (p : FlowParams) :
    Except FlowError (BTreeMap String Nat) :=
  settlements.foldlM (settleInto (weightsOf settlements) claims enforced p) .empty

def payoutsWithEnforced (settlements : List (String × UInt64)) (claims : BTreeMap String Claim)
    (enforced : BTreeMap String String) (p : FlowParams) :
    Except FlowError (BTreeMap String Nat) :=
  payoutsInner settlements claims enforced p

def payoutsWeighted (settlements : List (String × UInt64)) (claims : BTreeMap String Claim)
    (p : FlowParams) : Except FlowError (BTreeMap String Nat) :=
  payoutsInner settlements claims .empty p

def payoutsOver (settlements : List (String × UInt64)) (claims : BTreeMap String Claim)
    (p : FlowParams) : Except FlowError (BTreeMap String Nat) :=
  payoutsWeighted settlements claims p

/-! ## Who gets what -/

/-- The row of the reserved share, if there is one. -/
def reservedRow (claims : BTreeMap String Claim) (enforced : BTreeMap String String)
    (p : FlowParams) (weighted : List (String × UInt64)) (claimId : String) (upstream : Nat) :
    List (String × Nat) :=
  match enforced.get? claimId with
  | none => []
  | some target =>
    if (weighted.any fun w => w.1 = target) ∧ 0 < min (reservedOf p upstream) upstream ∧
        (claims.get? target).isSome then
      [(target, min (reservedOf p upstream) upstream)]
    else []

/-- The rows of the portions that are paid. -/
def portionRows (portions : List Portion) : List (String × Nat) :=
  (portions.filter fun q => q.share ≠ 0).map fun q => (q.id, q.share)

/-- What goes upstream: the reserved row and the portions of the rest. -/
def upstreamRows (claims : BTreeMap String Claim) (enforced : BTreeMap String String)
    (p : FlowParams) (weighted : List (String × UInt64)) (claimId : String) (upstream : Nat) :
    List (String × Nat) :=
  let reserved := reservedRow claims enforced p weighted claimId upstream
  let rest := upstream - BTreeMap.rowsTotal reserved
  if upstream = 0 then []
  else if rest = 0 then reserved
  else reserved ++ portionRows (apportion rest (totalWeight weighted) weighted)

/-- What a settlement pays to which claim. -/
def distribution (weights : BTreeMap String UInt64) (claims : BTreeMap String Claim)
    (enforced : BTreeMap String String) (p : FlowParams) (settlement : String × UInt64) :
    List (String × Nat) :=
  let weighted := weightedAncestors weights claims settlement.1
  let upstream := upstreamOf settlement.2.toNat p
  if settlement.2 = 0 ∨ claims.get? settlement.1 = none then []
  else if weighted = [] ∨ totalWeight weighted = 0 then [(settlement.1, settlement.2.toNat)]
  else
    (settlement.1, settlement.2.toNat - upstream) ::
      upstreamRows claims enforced p weighted settlement.1 upstream

/-- The rows of claims, under the names of their submitters. -/
def creditsOf (claims : BTreeMap String Claim) (rows : List (String × Nat)) :
    List (String × Nat) :=
  rows.filterMap fun row => (claims.get? row.1).map fun claim => (claim.submitter, row.2)

/-- Add every row. -/
def addAll (totals : BTreeMap String Nat) (rows : List (String × Nat)) :
    Except FlowError (BTreeMap String Nat) :=
  rows.foldlM (fun totals row => add totals row.1 row.2) totals

theorem addAll_cons (totals : BTreeMap String Nat) (row : String × Nat)
    (rows : List (String × Nat)) :
    addAll totals (row :: rows) = (add totals row.1 row.2).bind fun totals => addAll totals rows :=
  rfl

theorem addAll_append (totals : BTreeMap String Nat) (rows rows' : List (String × Nat)) :
    addAll totals (rows ++ rows') = (addAll totals rows).bind fun totals => addAll totals rows' :=
  List.foldlM_append

theorem creditsOf_cons {claim : Claim} (h : claims.get? row.1 = some claim)
    (rows : List (String × Nat)) :
    creditsOf claims (row :: rows) = (claim.submitter, row.2) :: creditsOf claims rows := by
  simp [creditsOf, h]

theorem creditsOf_append (claims : BTreeMap String Claim) (rows rows' : List (String × Nat)) :
    creditsOf claims (rows ++ rows') = creditsOf claims rows ++ creditsOf claims rows' :=
  List.filterMap_append ..

theorem payPortions_eq (claims : BTreeMap String Claim) (portions : List Portion) :
    ∀ totals, payPortions claims totals portions =
      addAll totals (creditsOf claims (portionRows portions)) := by
  induction portions with
  | nil =>
    intro totals
    rfl
  | cons portion rest ih =>
    intro totals
    unfold payPortions
    by_cases hzero : portion.share = 0
    · rw [if_pos hzero, ih]
      simp [portionRows, hzero]
    · have hrows : portionRows (portion :: rest) =
          (portion.id, portion.share) :: portionRows rest := by
        simp [portionRows, hzero]
      rw [if_neg hzero, hrows]
      cases hget : claims.get? portion.id with
      | none =>
        rw [ih]
        simp [creditsOf, hget]
      | some ancestor =>
        rw [creditsOf_cons hget, addAll_cons]
        simp only [bind, ih]

theorem payReserved_eq (claims : BTreeMap String Claim) (enforced : BTreeMap String String)
    (p : FlowParams) (weighted : List (String × UInt64)) (claimId : String) (upstream : Nat)
    (totals : BTreeMap String Nat) :
    payReserved claims enforced p weighted claimId upstream totals =
      (addAll totals (creditsOf claims
        (reservedRow claims enforced p weighted claimId upstream))).map fun totals =>
          (totals, upstream - BTreeMap.rowsTotal
            (reservedRow claims enforced p weighted claimId upstream)) := by
  unfold payReserved reservedRow
  cases henforced : enforced.get? claimId with
  | none => rfl
  | some target =>
    dsimp only
    by_cases hweighted : weighted.any fun w => w.1 = target
    · rw [if_pos hweighted]
      by_cases hreserved : min (reservedOf p upstream) upstream > 0
      · rw [if_pos hreserved]
        cases hget : claims.get? target with
        | none =>
          rw [if_neg (by simp)]
          rfl
        | some ancestor =>
          have hcond : (weighted.any fun w => w.1 = target) ∧
              0 < min (reservedOf p upstream) upstream ∧ (some ancestor).isSome :=
            ⟨hweighted, hreserved, rfl⟩
          rw [if_pos hcond, creditsOf_cons hget]
          have hadd : addAll totals ((ancestor.submitter, min (reservedOf p upstream) upstream)
              :: creditsOf claims []) =
              add totals ancestor.submitter (min (reservedOf p upstream) upstream) := by
            rw [addAll_cons]
            cases add totals ancestor.submitter (min (reservedOf p upstream) upstream) <;> rfl
          rw [hadd]
          dsimp only
          cases add totals ancestor.submitter (min (reservedOf p upstream) upstream) with
          | error error => rfl
          | ok totals => simp [bind, Except.bind, Except.map, BTreeMap.rowsTotal, pure, Except.pure]
      · rw [if_neg hreserved, if_neg (fun h => hreserved h.2.1)]
        rfl
    · rw [if_neg hweighted, if_neg (fun h => hweighted h.1)]
      rfl

/-- A settlement credits the submitters of the claims it pays. -/
theorem settleInto_eq (weights : BTreeMap String UInt64) (claims : BTreeMap String Claim)
    (enforced : BTreeMap String String) (p : FlowParams) (totals : BTreeMap String Nat)
    (settlement : String × UInt64) :
    settleInto weights claims enforced p totals settlement =
      addAll totals (creditsOf claims (distribution weights claims enforced p settlement)) := by
  unfold settleInto distribution
  by_cases hzero : settlement.2 = 0
  · rw [if_pos hzero, if_pos (.inl hzero)]
    rfl
  rw [if_neg hzero]
  cases hget : claims.get? settlement.1 with
  | none =>
    rw [if_pos (.inr rfl)]
    rfl
  | some claim =>
    rw [if_neg (by simp [hzero])]
    dsimp only
    by_cases hweighted : weightedAncestors weights claims settlement.1 = [] ∨
        totalWeight (weightedAncestors weights claims settlement.1) = 0
    · rw [if_pos hweighted, if_pos hweighted, creditsOf_cons hget, addAll_cons]
      cases add totals claim.submitter settlement.2.toNat <;> rfl
    · rw [if_neg hweighted, if_neg hweighted, creditsOf_cons hget, addAll_cons]
      simp only [bind]
      congr 1
      funext totals
      unfold upstreamRows
      dsimp only
      by_cases hup : upstreamOf settlement.2.toNat p = 0
      · rw [if_pos hup, if_pos hup]
        rfl
      · rw [if_neg hup, if_neg hup, payReserved_eq]
        split_ifs with hrest
        · cases addAll totals (creditsOf claims (reservedRow claims enforced p
              (weightedAncestors weights claims settlement.1) settlement.1
              (upstreamOf settlement.2.toNat p))) with
          | error error => rfl
          | ok totals => simp [Except.map, Except.bind, hrest, pure, Except.pure]
        · rw [creditsOf_append, addAll_append]
          cases addAll totals (creditsOf claims (reservedRow claims enforced p
              (weightedAncestors weights claims settlement.1) settlement.1
              (upstreamOf settlement.2.toNat p))) with
          | error error => rfl
          | ok totals => simp [Except.map, Except.bind, hrest, payPortions_eq]

/-! ## The split is exact -/

theorem portionsOf_shares (hfits : upstream < UInt64.size) (htotal : 0 < totalWeight weighted) :
    (portionsOf upstream (totalWeight weighted) weighted).map Portion.share =
      Apportion.floors upstream (totalWeight weighted) (weighted.map fun p => p.2.toNat) := by
  have hle : ∀ w ∈ Apportion.floors upstream (totalWeight weighted)
      (weighted.map fun p => p.2.toNat), w ≤ upstream := fun w hw =>
    (List.le_sum_of_mem hw).trans (Apportion.sum_floors_le htotal rfl)
  unfold Apportion.floors portionsOf at *
  rw [List.map_map, List.map_map]
  apply List.map_congr_left
  intro p hp
  apply narrow_of_le _ hfits
  exact hle _ (List.mem_map_of_mem (List.mem_map_of_mem (f := fun p => p.2.toNat) hp))

/-- The running sum does not saturate below the largest number. -/
theorem allocated_eq {portions : List Portion} (h : (portions.map Portion.share).sum ≤ maxU64) :
    allocated portions = (portions.map Portion.share).sum := by
  have hfold : ∀ (ps : List Portion) (sum : Nat), sum + (ps.map Portion.share).sum ≤ maxU64 →
      ps.foldl (fun sum p => min (sum + p.share) maxU64) sum =
        sum + (ps.map Portion.share).sum := by
    intro ps
    induction ps with
    | nil =>
      intro sum _
      rfl
    | cons q ps ih =>
      intro sum hsum
      rw [List.map_cons, List.sum_cons] at hsum ⊢
      have hmin : min (sum + q.share) maxU64 = sum + q.share := Nat.min_eq_left (by omega)
      rw [List.foldl_cons, hmin, ih _ (by omega)]
      omega
  have hzero := hfold portions 0 (by omega)
  rw [Nat.zero_add] at hzero
  exact hzero

theorem length_serviceOrder (portions : List Portion) :
    (serviceOrder portions).length = portions.length := by
  simp [serviceOrder]

theorem lt_length_of_mem_serviceOrder {portions : List Portion} {i : Nat}
    (h : i ∈ serviceOrder portions) : i < portions.length := by
  unfold serviceOrder at h
  obtain ⟨⟨q, j⟩, hmem, rfl⟩ := List.mem_map.mp h
  rw [List.mem_insertionSort] at hmem
  simpa using List.snd_lt_of_mem_zipIdx hmem

theorem handOut_ids (leftover : Nat) (order : List Nat) :
    ∀ portions, (handOut leftover order portions).map Portion.id = portions.map Portion.id := by
  induction order generalizing leftover with
  | nil =>
    intro portions
    cases leftover <;> rfl
  | cons i order ih =>
    intro portions
    cases leftover with
    | zero => rfl
    | succ leftover =>
      rw [handOut, ih]
      exact Apportion.map_modify_of_eq fun _ => rfl

/-- Every odd unit finds a portion. -/
theorem sum_handOut :
    ∀ (order : List Nat) (leftover : Nat) (portions : List Portion),
      leftover ≤ order.length → (∀ i ∈ order, i < portions.length) →
      (portions.map Portion.share).sum + leftover ≤ maxU64 →
      ((handOut leftover order portions).map Portion.share).sum =
        (portions.map Portion.share).sum + leftover := by
  intro order
  induction order with
  | nil =>
    intro leftover portions hle _ _
    obtain rfl : leftover = 0 := by simpa using hle
    rfl
  | cons i order ih =>
    intro leftover portions hle hlt hfits
    cases leftover with
    | zero => rfl
    | succ leftover =>
      have hbump : ∀ q ∈ portions, q.bump.share = q.share + 1 := by
        intro q hq
        have hshare := List.le_sum_of_mem (List.mem_map_of_mem (f := Portion.share) hq)
        exact Nat.min_eq_left (by omega)
      have hmodify := Apportion.sum_modify (hlt i (by simp)) hbump
      rw [handOut, ih leftover, hmodify]
      · omega
      · rw [List.length_cons] at hle
        omega
      · intro j hj
        rw [List.length_modify]
        exact hlt j (by simp [hj])
      · omega

/-- Largest remainders give away the whole amount. -/
theorem sum_apportion (hfits : upstream < UInt64.size) (htotal : 0 < totalWeight weighted) :
    ((apportion upstream (totalWeight weighted) weighted).map Portion.share).sum = upstream := by
  have hshares := portionsOf_shares hfits htotal
  have hne : (weighted.map fun p => p.2.toNat) ≠ [] := by
    intro hnil
    unfold totalWeight at htotal
    rw [hnil] at htotal
    exact absurd htotal (Nat.lt_irrefl 0)
  have hle := @Apportion.sum_floors_le upstream _ htotal (weighted.map fun p => p.2.toNat) rfl
  have hlt := @Apportion.lt_sum_floors_add_length upstream _ htotal _ rfl hne
  rw [← hshares] at hle hlt
  rw [List.length_map] at hlt
  have hlength : (portionsOf upstream (totalWeight weighted) weighted).length = weighted.length :=
    List.length_map _
  have hmax : upstream ≤ maxU64 := Nat.le_sub_one_of_lt hfits
  unfold apportion
  dsimp only
  rw [allocated_eq (hle.trans hmax), sum_handOut]
  · omega
  · rw [length_serviceOrder, hlength]
    omega
  · intro i hi
    exact lt_length_of_mem_serviceOrder hi
  · omega

theorem rowsTotal_portionRows (portions : List Portion) :
    BTreeMap.rowsTotal (portionRows portions) = (portions.map Portion.share).sum := by
  induction portions with
  | nil => rfl
  | cons q rest ih =>
    unfold portionRows BTreeMap.rowsTotal at *
    by_cases hzero : q.share = 0
    · simpa [hzero] using ih
    · simpa [hzero] using ih

theorem rowsTotal_reservedRow_le (claims : BTreeMap String Claim)
    (enforced : BTreeMap String String) (p : FlowParams) (weighted : List (String × UInt64))
    (claimId : String) (upstream : Nat) :
    BTreeMap.rowsTotal (reservedRow claims enforced p weighted claimId upstream) ≤ upstream := by
  unfold reservedRow
  cases enforced.get? claimId with
  | none => exact Nat.zero_le _
  | some target =>
    dsimp only
    split_ifs
    · simp [BTreeMap.rowsTotal]
    · exact Nat.zero_le _

theorem rowsTotal_upstreamRows (claims : BTreeMap String Claim) (enforced : BTreeMap String String)
    (p : FlowParams) (htotal : 0 < totalWeight weighted) (claimId : String)
    (hfits : upstream < UInt64.size) :
    BTreeMap.rowsTotal (upstreamRows claims enforced p weighted claimId upstream) = upstream := by
  have hreserved := rowsTotal_reservedRow_le claims enforced p weighted claimId upstream
  unfold upstreamRows
  dsimp only
  split_ifs with hup hrest
  · rw [hup]
    rfl
  · omega
  · rw [BTreeMap.rowsTotal_append, rowsTotal_portionRows,
      sum_apportion (lt_of_le_of_lt (Nat.sub_le _ _) hfits) htotal]
    omega

/-- A settlement of a claim that is there pays its whole reward. -/
theorem rowsTotal_distribution (weights : BTreeMap String UInt64) (claims : BTreeMap String Claim)
    (enforced : BTreeMap String String) (p : FlowParams) (settlement : String × UInt64) :
    BTreeMap.rowsTotal (distribution weights claims enforced p settlement) =
      if (claims.get? settlement.1).isSome then settlement.2.toNat else 0 := by
  have hle : upstreamOf settlement.2.toNat p ≤ settlement.2.toNat := Nat.min_le_right _ _
  have hlt := settlement.2.toNat_lt
  unfold distribution
  dsimp only
  by_cases hzero : settlement.2 = 0
  · rw [if_pos (.inl hzero), hzero]
    simp
  cases hget : claims.get? settlement.1 with
  | none =>
    rw [if_pos (.inr rfl)]
    rfl
  | some claim =>
    rw [if_neg (by simp [hzero])]
    show _ = settlement.2.toNat
    split_ifs with hweighted
    · simp [BTreeMap.rowsTotal]
    · rw [not_or] at hweighted
      rw [BTreeMap.rowsTotal_cons, rowsTotal_upstreamRows claims enforced p
        (Nat.pos_of_ne_zero hweighted.2) _ (lt_of_le_of_lt hle hlt)]
      omega

/-! ## Every row is paid -/

theorem mem_weightedAncestors {weights : BTreeMap String UInt64} {w : String × UInt64}
    (h : w ∈ weightedAncestors weights claims claimId) :
    w.1 ∈ ancestorsOf claimId claims ∧ weights.get? w.1 = some w.2 ∧ 0 < w.2 := by
  unfold weightedAncestors at h
  rw [List.mem_filterMap] at h
  obtain ⟨id, hid, hw⟩ := h
  rw [Option.map_eq_some_iff] at hw
  obtain ⟨weight, hweight, rfl⟩ := hw
  rw [Option.filter_eq_some_iff] at hweight
  exact ⟨hid, hweight.1, by simpa using hweight.2⟩

theorem isSome_of_mem_portionRows {total : Nat}
    (hweighted : ∀ w ∈ weighted, (claims.get? w.1).isSome)
    (h : row ∈ portionRows (apportion upstream total weighted)) : (claims.get? row.1).isSome := by
  unfold portionRows at h
  obtain ⟨q, hq, rfl⟩ := List.mem_map.mp h
  have hid : q.id ∈ (apportion upstream total weighted).map Portion.id :=
    List.mem_map_of_mem (List.mem_of_mem_filter hq)
  unfold apportion at hid
  rw [handOut_ids, portionsOf, List.map_map] at hid
  obtain ⟨w, hw, hwid⟩ := List.mem_map.mp hid
  dsimp only
  rw [← hwid]
  exact hweighted w hw

theorem isSome_of_mem_distribution {weights : BTreeMap String UInt64}
    {enforced : BTreeMap String String} {p : FlowParams} {settlement : String × UInt64}
    (h : row ∈ distribution weights claims enforced p settlement) : (claims.get? row.1).isSome := by
  have hweighted : ∀ w ∈ weightedAncestors weights claims settlement.1,
      (claims.get? w.1).isSome := fun w hw =>
    isSome_of_mem_ancestorsOf (mem_weightedAncestors hw).1
  have hreserved : ∀ upstream, ∀ r ∈ reservedRow claims enforced p
      (weightedAncestors weights claims settlement.1) settlement.1 upstream,
      (claims.get? r.1).isSome := by
    intro upstream r hr
    unfold reservedRow at hr
    cases henforced : enforced.get? settlement.1 with
    | none =>
      rw [henforced] at hr
      cases hr
    | some target =>
      rw [henforced] at hr
      dsimp only at hr
      split_ifs at hr with hcond
      · rw [List.mem_singleton.mp hr]
        exact hcond.2.2
      · cases hr
  unfold distribution at h
  dsimp only at h
  split_ifs at h with hnone hweights
  · cases h
  · rw [not_or] at hnone
    rw [List.mem_singleton.mp h]
    exact Option.isSome_iff_ne_none.mpr hnone.2
  · rw [not_or] at hnone
    rcases List.mem_cons.mp h with rfl | h
    · exact Option.isSome_iff_ne_none.mpr hnone.2
    · unfold upstreamRows at h
      dsimp only at h
      split_ifs at h with hup hrest
      · cases h
      · exact hreserved _ row h
      · obtain h | h := List.mem_append.mp h
        · exact hreserved _ row h
        · exact isSome_of_mem_portionRows hweighted h

theorem rowsTotal_creditsOf (h : ∀ row ∈ rows, (claims.get? row.1).isSome) :
    BTreeMap.rowsTotal (creditsOf claims rows) = BTreeMap.rowsTotal rows := by
  induction rows with
  | nil => rfl
  | cons row rows ih =>
    obtain ⟨claim, hget⟩ := Option.isSome_iff_exists.mp (h row (by simp))
    rw [creditsOf_cons hget, BTreeMap.rowsTotal_cons, BTreeMap.rowsTotal_cons,
      ih fun r hr => h r (by simp [hr])]

/-! ## Adding up -/

theorem addAll_ok : ∀ {totals totals' : BTreeMap String Nat},
    addAll totals rows = .ok totals' → totals' = totals.creditAll rows := by
  induction rows with
  | nil =>
    intro totals totals' h
    exact (Except.ok.inj h).symm
  | cons row rows ih =>
    intro totals totals' h
    rw [addAll_cons] at h
    unfold add at h
    split_ifs at h with hfits
    · exact ih h
    · cases h

theorem addAll_error_eq {error : FlowError} :
    ∀ {totals : BTreeMap String Nat}, addAll totals rows = .error error →
      ∃ who, error = .payoutOverflow who := by
  induction rows with
  | nil =>
    intro totals h
    cases h
  | cons row rows ih =>
    intro totals h
    rw [addAll_cons] at h
    unfold add at h
    split_ifs at h
    · exact ih h
    · cases h
      exact ⟨row.1, rfl⟩

/-- Adding fails exactly when somebody's total does not fit. -/
theorem addAll_error_iff : ∀ {totals : BTreeMap String Nat},
    (∀ who, totals.amount who < UInt64.size) →
    ((∃ who, addAll totals rows = .error (.payoutOverflow who)) ↔
      ∃ who, UInt64.size ≤ totals.amount who + BTreeMap.rowsAt rows who) := by
  induction rows with
  | nil =>
    intro totals hfits
    constructor
    · rintro ⟨who, h⟩
      cases h
    · rintro ⟨who, h⟩
      rw [BTreeMap.rowsAt_nil] at h
      have hlt := hfits who
      omega
  | cons row rows ih =>
    intro totals hfits
    rw [addAll_cons]
    unfold add
    split_ifs with hrow
    · have hnext : ∀ who, (totals.credit row.1 row.2).amount who < UInt64.size := by
        intro who
        rw [BTreeMap.amount_credit]
        split_ifs with hwho
        · rw [← hwho]
          exact hrow
        · exact hfits who
      have hrest := ih hnext
      simp only [BTreeMap.amount_credit, Nat.add_assoc] at hrest
      simp only [BTreeMap.rowsAt_cons]
      exact hrest
    · constructor
      · intro _
        refine ⟨row.1, ?_⟩
        rw [BTreeMap.rowsAt_cons, if_pos rfl]
        omega
      · intro _
        exact ⟨row.1, rfl⟩

/-- Everything the settlements pay, to whom. -/
def credits (settlements : List (String × UInt64)) (claims : BTreeMap String Claim)
    (enforced : BTreeMap String String) (p : FlowParams) : List (String × Nat) :=
  settlements.flatMap fun settlement =>
    creditsOf claims (distribution (weightsOf settlements) claims enforced p settlement)

/-- What a submitter is owed, without a bound on numbers. -/
def exactTotal (settlements : List (String × UInt64)) (claims : BTreeMap String Claim)
    (enforced : BTreeMap String String) (p : FlowParams) (who : String) : Nat :=
  BTreeMap.rowsAt (credits settlements claims enforced p) who

/-- What was settled for claims that are there. -/
def settledTotal (settlements : List (String × UInt64)) (claims : BTreeMap String Claim) : Nat :=
  ((settlements.filter fun s => (claims.get? s.1).isSome).map fun s => s.2.toNat).sum

theorem payoutsInner_eq (settlements : List (String × UInt64)) (claims : BTreeMap String Claim)
    (enforced : BTreeMap String String) (p : FlowParams) :
    payoutsInner settlements claims enforced p =
      addAll .empty (credits settlements claims enforced p) := by
  have hfold : ∀ (weights : BTreeMap String UInt64) (rest : List (String × UInt64))
      (totals : BTreeMap String Nat),
      rest.foldlM (settleInto weights claims enforced p) totals =
        addAll totals (rest.flatMap fun settlement =>
          creditsOf claims (distribution weights claims enforced p settlement)) := by
    intro weights rest
    induction rest with
    | nil =>
      intro totals
      rfl
    | cons settlement rest ih =>
      intro totals
      rw [List.foldlM_cons, List.flatMap_cons, addAll_append, settleInto_eq]
      simp only [bind, ih]
  exact hfold _ settlements .empty

theorem rowsTotal_credits (settlements : List (String × UInt64)) (claims : BTreeMap String Claim)
    (enforced : BTreeMap String String) (p : FlowParams) :
    BTreeMap.rowsTotal (credits settlements claims enforced p) = settledTotal settlements claims := by
  have hsum : ∀ (weights : BTreeMap String UInt64) (rest : List (String × UInt64)),
      BTreeMap.rowsTotal (rest.flatMap fun settlement =>
        creditsOf claims (distribution weights claims enforced p settlement)) =
        settledTotal rest claims := by
    intro weights rest
    induction rest with
    | nil => rfl
    | cons settlement rest ih =>
      rw [List.flatMap_cons, BTreeMap.rowsTotal_append, ih,
        rowsTotal_creditsOf fun row hrow => isSome_of_mem_distribution hrow,
        rowsTotal_distribution]
      unfold settledTotal
      by_cases hsome : (claims.get? settlement.1).isSome
      · simp [hsome]
      · simp [hsome]
  exact hsum _ settlements

theorem payoutsInner_conserve (settlements : List (String × UInt64))
    (claims : BTreeMap String Claim) (enforced : BTreeMap String String) (p : FlowParams) :
    (∀ totals, payoutsInner settlements claims enforced p = .ok totals →
      totals.total = settledTotal settlements claims) ∧
    ((∃ who, payoutsInner settlements claims enforced p = .error (.payoutOverflow who)) ↔
      ∃ who, maxU64 < exactTotal settlements claims enforced p who) := by
  rw [payoutsInner_eq]
  constructor
  · intro totals h
    rw [addAll_ok h, BTreeMap.total_creditAll, rowsTotal_credits]
    simp
  · rw [addAll_error_iff (by simp [UInt64.size])]
    have hmax : ∀ n, maxU64 < n ↔ UInt64.size ≤ n := by
      intro n
      unfold maxU64
      simp only [UInt64.size]
      omega
    simp only [hmax, BTreeMap.amount_empty, Nat.zero_add, exactTotal]

/-- Payouts add up to what was settled for claims of the map, and fail exactly
when somebody's exact total does not fit. -/
theorem payouts_conserve (settlements : List (String × UInt64)) (claims : BTreeMap String Claim)
    (enforced : BTreeMap String String) (p : FlowParams) :
    ((∀ totals, payoutsWithEnforced settlements claims enforced p = .ok totals →
        totals.total = settledTotal settlements claims) ∧
      ((∃ who, payoutsWithEnforced settlements claims enforced p = .error (.payoutOverflow who)) ↔
        ∃ who, maxU64 < exactTotal settlements claims enforced p who)) ∧
    ((∀ totals, payoutsOver settlements claims p = .ok totals →
        totals.total = settledTotal settlements claims) ∧
      ((∃ who, payoutsOver settlements claims p = .error (.payoutOverflow who)) ↔
        ∃ who, maxU64 < exactTotal settlements claims .empty p who)) ∧
    ((∀ totals, payoutsWeighted settlements claims p = .ok totals →
        totals.total = settledTotal settlements claims) ∧
      ((∃ who, payoutsWeighted settlements claims p = .error (.payoutOverflow who)) ↔
        ∃ who, maxU64 < exactTotal settlements claims .empty p who)) :=
  ⟨payoutsInner_conserve settlements claims enforced p,
    payoutsInner_conserve settlements claims .empty p,
    payoutsInner_conserve settlements claims .empty p⟩

/-! ## The order settlements are listed in -/

/-- Listing settlements of different claims in another order lists the same
credits in another order. -/
theorem credits_perm {settlements settlements' : List (String × UInt64)}
    (hnodup : (settlements.map Prod.fst).Nodup) (h : settlements.Perm settlements')
    (claims : BTreeMap String Claim) (enforced : BTreeMap String String) (p : FlowParams) :
    (credits settlements claims enforced p).Perm (credits settlements' claims enforced p) := by
  have hweights : weightsOf settlements = weightsOf settlements' := BTreeMap.ofList_perm hnodup h
  unfold credits
  rw [hweights]
  exact h.flatMap_right _

theorem addAll_perm {rows' : List (String × Nat)} (h : rows.Perm rows')
    {totals : BTreeMap String Nat} (hfits : ∀ who, totals.amount who < UInt64.size) :
    (∀ totals', addAll totals rows = .ok totals' → addAll totals rows' = .ok totals') ∧
      ((∃ who, addAll totals rows = .error (.payoutOverflow who)) ↔
        ∃ who, addAll totals rows' = .error (.payoutOverflow who)) := by
  have hoverflow : (∃ who, addAll totals rows = .error (.payoutOverflow who)) ↔
      ∃ who, addAll totals rows' = .error (.payoutOverflow who) := by
    rw [addAll_error_iff hfits, addAll_error_iff hfits]
    simp only [BTreeMap.rowsAt_perm h]
  refine ⟨fun totals' hok => ?_, hoverflow⟩
  cases hresult : addAll totals rows' with
  | ok totals'' =>
    rw [addAll_ok hok, addAll_ok hresult, BTreeMap.creditAll_perm totals h]
  | error error =>
    obtain ⟨who, rfl⟩ := addAll_error_eq hresult
    obtain ⟨who', herror⟩ := hoverflow.mpr ⟨who, hresult⟩
    rw [hok] at herror
    cases herror

/-- In whatever order the settlements of different claims are listed, payouts
come to the same totals, or overflow in every order. -/
theorem payoutsWithEnforced_perm {settlements settlements' : List (String × UInt64)}
    (hnodup : (settlements.map Prod.fst).Nodup) (h : settlements.Perm settlements')
    (claims : BTreeMap String Claim) (enforced : BTreeMap String String) (p : FlowParams) :
    (∀ totals, payoutsWithEnforced settlements claims enforced p = .ok totals ↔
        payoutsWithEnforced settlements' claims enforced p = .ok totals) ∧
      ((∃ who, payoutsWithEnforced settlements claims enforced p = .error (.payoutOverflow who)) ↔
        ∃ who, payoutsWithEnforced settlements' claims enforced p =
          .error (.payoutOverflow who)) := by
  have hperm := credits_perm hnodup h claims enforced p
  have hfits : ∀ who, (BTreeMap.empty : BTreeMap String Nat).amount who < UInt64.size := by
    simp [UInt64.size]
  unfold payoutsWithEnforced
  rw [payoutsInner_eq, payoutsInner_eq]
  refine ⟨fun totals => ⟨?_, ?_⟩, (addAll_perm hperm hfits).2⟩
  · exact (addAll_perm hperm hfits).1 totals
  · exact (addAll_perm hperm.symm hfits).1 totals

/-- A claim of which only the submitter and the citations matter. -/
def sampleWork (submitter : String) (cites : List String) : Claim where
  objectiveId := "objective"
  submitter := submitter
  artifact := .null
  nonce := "n"
  createdAt := "2026-01-01T00:00:00Z"
  cites := cites
  relations := []
  signature := none

/-- Two claims in a circle, one of which cites itself too. -/
def sampleWorks : BTreeMap String Claim :=
  .ofList [("a", sampleWork "alice" ["a", "b"]), ("b", sampleWork "bob" ["a"])]

theorem payoutsWithEnforced_perm_sample : ∃ totals,
    payoutsWithEnforced [("b", 8), ("a", 4)] sampleWorks .empty .default = .ok totals ∧
      payoutsWithEnforced [("a", 4), ("b", 8)] sampleWorks .empty .default = .ok totals := by
  refine ⟨.ofList [("alice", 5), ("bob", 7)], by rfl, ?_⟩
  exact ((payoutsWithEnforced_perm (by decide) (List.Perm.swap _ _ _) sampleWorks .empty
    .default).1 _).mp (by rfl)

end Attribution

end Cairn.Ports
