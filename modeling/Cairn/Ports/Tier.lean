import Cairn.Ports.Verdict
import Cairn.Verified.BTreeMap
import Cairn.Verified.Reserve

/-!
# Typed units

`src/tier.rs`: what one identity holds and what it has promised, per tier. A promise
in a tier draws on that tier's units first and on the universal ones after. Amounts
are words of 128 bits, and every sum of them stops at the greatest.

The numbers that the loops compute are `TierLedger`'s, stopped at the greatest word.
Whether an identity is solvent is then the question `Verified.Reserve` answers.
-/

namespace Cairn.Ports

open Cairn.Verified

/-! ## Tiers -/

namespace Tier

/-- Every tier, universal first. -/
def all : List Tier := .universal :: Kind.all.map .earned

/-- Universal spends anywhere, everything else in itself. -/
def covers (tier wanted : Tier) : Bool := tier = .universal || tier = wanted

/-- The derived order. -/
def rank : Tier → Nat
  | .universal => 0
  | .earned kind => kind.ctorIdx + 1

theorem rank_injective : Function.Injective rank := by
  intro a b h
  cases a with
  | universal =>
    cases b with
    | universal => rfl
    | earned kind => exact absurd h (Nat.succ_ne_zero _).symm
  | earned kind =>
    cases b with
    | universal => exact absurd h (Nat.succ_ne_zero _)
    | earned kind' => cases kind <;> cases kind' <;> first | rfl | cases h

instance : LinearOrder Tier := LinearOrder.lift' rank rank_injective

theorem mem_all (tier : Tier) : tier ∈ all := by
  cases tier with
  | universal => decide
  | earned kind => cases kind <;> decide

instance : Fintype Tier where
  elems := ⟨all, by decide⟩
  complete := mem_all

theorem sum_univ (f : Tier → Nat) :
    ∑ tier, f tier = f .universal + (Kind.all.map fun kind => f (.earned kind)).sum := rfl

end Tier

/-! ## Words of 128 bits -/

abbrev U128 := BitVec 128

namespace U128

/-- `u128::MAX`. -/
def MAX : Nat := 2 ^ 128 - 1

def saturatingAdd (a b : U128) : U128 := BitVec.ofNat 128 (min (a.toNat + b.toNat) MAX)

def saturatingSub (a b : U128) : U128 := BitVec.ofNat 128 (a.toNat - b.toNat)

theorem toNat_le (a : U128) : a.toNat ≤ MAX := by
  have := a.isLt
  unfold MAX
  omega

@[simp] theorem toNat_saturatingAdd (a b : U128) :
    (saturatingAdd a b).toNat = min (a.toNat + b.toNat) MAX := by
  unfold saturatingAdd MAX
  rw [BitVec.toNat_ofNat]
  exact Nat.mod_eq_of_lt (by omega)

@[simp] theorem toNat_saturatingSub (a b : U128) :
    (saturatingSub a b).toNat = a.toNat - b.toNat := by
  have := a.isLt
  unfold saturatingSub
  rw [BitVec.toNat_ofNat]
  exact Nat.mod_eq_of_lt (by omega)

end U128

namespace Tier

/-! ## The ledger of one identity -/

/-- What one identity holds, and what it has promised, per tier. -/
structure Ledger where
  held : BTreeMap Tier U128
  committed : BTreeMap Tier U128

namespace Ledger

def new : Ledger := ⟨.empty, .empty⟩

/-- `get(&tier).copied().unwrap_or(0)`. -/
def amount (column : BTreeMap Tier U128) (tier : Tier) : U128 := (column.get? tier).getD 0

/-- `*entry(tier).or_insert(0)`, with a saturating addition. -/
def addTo (column : BTreeMap Tier U128) (tier : Tier) (units : U128) : BTreeMap Tier U128 :=
  column.insert tier (U128.saturatingAdd (amount column tier) units)

def credit (l : Ledger) (tier : Tier) (units : U128) : Ledger :=
  { l with held := addTo l.held tier units }

def commit (l : Ledger) (tier : Tier) (units : U128) : Ledger :=
  { l with committed := addTo l.committed tier units }

/-- How much of a tier's commitment its own holdings cannot cover. -/
def deficit (l : Ledger) (tier : Tier) : U128 :=
  if tier = .universal then 0
  else U128.saturatingSub (amount l.committed tier) (amount l.held tier)

/-- The loop of `universal_drawn`: a tier in both maps counts once. -/
def drawLoop (l : Ledger) : List Tier → List Tier → U128 → U128
  | [], _, total => total
  | tier :: rest, seen, total =>
    if tier = .universal ∨ tier ∈ seen then drawLoop l rest seen total
    else drawLoop l rest (tier :: seen) (U128.saturatingAdd total (l.deficit tier))

/-- Universal units already spoken for. -/
def universalDrawn (l : Ledger) : U128 :=
  drawLoop l (l.held.keys ++ l.committed.keys) [] (amount l.committed .universal)

/-- What is still spendable in a tier. -/
def spendableIn (l : Ledger) (tier : Tier) : U128 :=
  let universalLeft := U128.saturatingSub (amount l.held .universal) l.universalDrawn
  if tier = .universal then universalLeft
  else
    let own := U128.saturatingSub (amount l.held tier) (amount l.committed tier)
    U128.saturatingAdd own universalLeft

def solvent (l : Ledger) : Bool := l.universalDrawn ≤ amount l.held .universal

/-! ## What the loops compute -/

/-- The two columns as functions, in natural numbers. -/
def toTierLedger (l : Ledger) : TierLedger where
  held tier := (amount l.held tier).toNat
  committed tier := (amount l.committed tier).toNat

/-- What a column adds up to, without a bound. -/
def total (column : BTreeMap Tier U128) : Nat := (column.values.map BitVec.toNat).sum

theorem amount_addTo (column : BTreeMap Tier U128) (tier wanted : Tier) (units : U128) :
    (amount (addTo column tier units) wanted).toNat =
      if wanted = tier then min ((amount column tier).toNat + units.toNat) U128.MAX
      else (amount column wanted).toNat := by
  unfold amount addTo
  rw [BTreeMap.get?_insert]
  split_ifs with h
  · exact U128.toNat_saturatingAdd _ _
  · rfl

theorem toNat_deficit (l : Ledger) (tier : Tier) :
    (l.deficit tier).toNat = l.toTierLedger.deficit tier := by
  unfold deficit TierLedger.deficit
  split_ifs
  · rfl
  · exact U128.toNat_saturatingSub _ _

theorem amount_of_notMem {column : BTreeMap Tier U128} {tier : Tier} (h : tier ∉ column.keys) :
    amount column tier = 0 := by
  have hnone : column.get? tier = none := by
    rw [Option.eq_none_iff_forall_ne_some]
    intro x hx
    exact h (BTreeMap.mem_keys.mpr ⟨x, hx⟩)
  rw [amount, hnone]
  rfl

/-- The loop adds up the deficits of the tiers it has not seen. -/
theorem toNat_drawLoop (l : Ledger) (tiers seen : List Tier) (total : U128) :
    (drawLoop l tiers seen total).toNat = min (total.toNat +
      ∑ tier ∈ (tiers.toFinset \ seen.toFinset).erase .universal,
        l.toTierLedger.deficit tier) U128.MAX := by
  induction tiers generalizing seen total with
  | nil =>
    have hle := total.toNat_le
    simp only [drawLoop, List.toFinset_nil, Finset.empty_sdiff, Finset.erase_empty,
      Finset.sum_empty]
    omega
  | cons tier rest ih =>
    rw [drawLoop]
    split_ifs with hskip
    · rw [ih]
      congr 3
      ext x
      simp only [List.toFinset_cons, Finset.mem_erase, Finset.mem_sdiff, Finset.mem_insert,
        List.mem_toFinset]
      constructor
      · rintro ⟨hx, hrest, hseen⟩
        exact ⟨hx, Or.inr hrest, hseen⟩
      · rintro ⟨hx, rfl | hrest, hseen⟩
        · exact absurd hskip (not_or.mpr ⟨hx, hseen⟩)
        · exact ⟨hx, hrest, hseen⟩
    · rcases not_or.mp hskip with ⟨hne, hfresh⟩
      have hinsert : (((tier :: rest).toFinset \ seen.toFinset).erase Tier.universal) =
          insert tier ((rest.toFinset \ (tier :: seen).toFinset).erase .universal) := by
        ext x
        simp only [List.toFinset_cons, Finset.mem_erase, Finset.mem_sdiff, Finset.mem_insert,
          List.mem_toFinset]
        by_cases hx : x = tier
        · subst hx
          simp [hne, hfresh]
        · simp [hx]
      have hnot : tier ∉ (rest.toFinset \ (tier :: seen).toFinset).erase Tier.universal := by
        simp
      rw [ih, hinsert, Finset.sum_insert hnot, U128.toNat_saturatingAdd, toNat_deficit]
      omega

theorem deficit_of_notMem {l : Ledger} {tier : Tier} (h : tier ∉ l.committed.keys) :
    l.toTierLedger.deficit tier = 0 := by
  rw [← toNat_deficit, deficit, amount_of_notMem h]
  split_ifs <;> simp

theorem sum_deficit (l : TierLedger) :
    ∑ tier ∈ Finset.univ.erase Tier.universal, l.deficit tier =
      (Kind.all.map fun kind => l.deficit (.earned kind)).sum := by
  have hsum := Tier.sum_univ l.deficit
  rw [← Finset.add_sum_erase Finset.univ _ (Finset.mem_univ Tier.universal)] at hsum
  omega

theorem toNat_universalDrawn (l : Ledger) :
    l.universalDrawn.toNat = min l.toTierLedger.universalDrawn U128.MAX := by
  unfold universalDrawn TierLedger.universalDrawn
  rw [toNat_drawLoop, ← sum_deficit]
  congr 2
  refine Finset.sum_subset (Finset.erase_subset_erase _ (Finset.subset_univ _)) ?_
  intro tier htier hnot
  apply deficit_of_notMem
  intro hkey
  refine hnot (Finset.mem_erase.mpr ⟨Finset.ne_of_mem_erase htier, ?_⟩)
  simp [hkey]

theorem solvent_iff (l : Ledger) :
    l.solvent = true ↔
      min l.toTierLedger.universalDrawn U128.MAX ≤ l.toTierLedger.held .universal := by
  rw [solvent, decide_eq_true_iff, BitVec.le_def, toNat_universalDrawn]
  rfl

theorem toNat_spendableIn (l : Ledger) (tier : Tier) :
    (l.spendableIn tier).toNat = min (l.toTierLedger.spendableIn tier) U128.MAX := by
  have hle := (amount l.held .universal).toNat_le
  have hleft : (U128.saturatingSub (amount l.held .universal) l.universalDrawn).toNat =
      (amount l.held .universal).toNat - l.toTierLedger.universalDrawn := by
    rw [U128.toNat_saturatingSub, toNat_universalDrawn]
    omega
  by_cases h : tier = .universal
  · rw [spendableIn, TierLedger.spendableIn, if_pos h, if_pos h, hleft]
    show _ = min ((amount l.held .universal).toNat - _) _
    omega
  · rw [spendableIn, TierLedger.spendableIn, if_neg h, if_neg h, U128.toNat_saturatingAdd, hleft,
      U128.toNat_saturatingSub]
    rfl

/-- A column adds up to what its tiers have. -/
theorem total_eq_sum (column : BTreeMap Tier U128) :
    total column = ∑ tier, (amount column tier).toNat := by
  have hkeys : ∑ tier, (amount column tier).toNat =
      ∑ tier ∈ column.keys.toFinset, (amount column tier).toNat := by
    symm
    refine Finset.sum_subset (Finset.subset_univ _) fun tier _ hnot => ?_
    rw [amount_of_notMem fun hkey => hnot (List.mem_toFinset.mpr hkey)]
    rfl
  rw [hkeys, List.sum_toFinset _ column.nodup_keys, total, BTreeMap.values, BTreeMap.keys,
    List.map_map, List.map_map]
  congr 1
  refine List.map_congr_left fun e he => ?_
  have hget : column.get? e.1 = some e.2 := BTreeMap.get?_eq_some_iff.mpr he
  show e.2.toNat = (amount column e.1).toNat
  rw [amount, hget]
  rfl

theorem universalDrawn_le_total (l : Ledger) :
    l.toTierLedger.universalDrawn ≤ total l.committed := by
  have hsum := Tier.sum_univ fun tier => (amount l.committed tier).toNat
  have hdeficits : (Kind.all.map fun kind => l.toTierLedger.deficit (.earned kind)).sum ≤
      (Kind.all.map fun kind => (amount l.committed (.earned kind)).toNat).sum := by
    refine List.sum_le_sum fun kind _ => ?_
    unfold TierLedger.deficit
    rw [if_neg (by simp)]
    exact Nat.sub_le _ _
  rw [total_eq_sum, hsum, TierLedger.universalDrawn]
  exact Nat.add_le_add_left hdeficits _

/-- What one tier holds or has promised, with what the reserve does. -/
theorem add_amount_le_total (column : BTreeMap Tier U128) {tier : Tier} (h : tier ≠ .universal) :
    (amount column .universal).toNat + (amount column tier).toNat ≤ total column := by
  have hpair := Finset.sum_le_sum_of_subset (f := fun tier => (amount column tier).toNat)
    (Finset.subset_univ {Tier.universal, tier})
  rw [Finset.sum_pair h.symm] at hpair
  rw [total_eq_sum]
  exact hpair

theorem amount_le_total (column : BTreeMap Tier U128) (tier : Tier) :
    (amount column tier).toNat ≤ total column := by
  rw [total_eq_sum]
  exact Finset.single_le_sum (f := fun tier => (amount column tier).toNat)
    (fun _ _ => Nat.zero_le _) (Finset.mem_univ tier)

/-! ## Solvent means assignable -/

theorem universalDrawn_eq_sum (l : TierLedger) :
    l.universalDrawn = ∑ tier, Reserve.spill .universal l.held l.committed tier := by
  rw [Tier.sum_univ]
  rfl

theorem covers_iff (tier wanted : Tier) :
    tier.covers wanted = true ↔ tier = .universal ∨ tier = wanted := by
  simp [covers]

theorem solvent_iff_assignment {l : Ledger} (hcommitted : total l.committed < 2 ^ 128) :
    l.solvent = true ↔
      ∃ backing : Reserve.Units l.toTierLedger.committed → Reserve.Units l.toTierLedger.held,
        Function.Injective backing ∧ ∀ unit, (backing unit).1.covers unit.1 = true := by
  have hdrawn := universalDrawn_le_total l
  have hexact : min l.toTierLedger.universalDrawn U128.MAX = l.toTierLedger.universalDrawn := by
    unfold U128.MAX
    omega
  rw [solvent_iff, hexact, universalDrawn_eq_sum, ← Reserve.nonempty_assignment_iff]
  constructor
  · rintro ⟨a⟩
    exact ⟨a.backing, a.distinct, fun unit => (covers_iff _ _).mpr (a.covers unit)⟩
  · rintro ⟨backing, hdistinct, hcovers⟩
    exact ⟨⟨backing, hdistinct, fun unit => (covers_iff _ _).mp (hcovers unit)⟩⟩

/-! ## What a step changes -/

/-- Where one tier changes, its spill is all that changes in the sum. -/
theorem universalDrawn_change {l l' : TierLedger} {tier : Tier}
    (h : ∀ other, other ≠ tier → Reserve.spill .universal l'.held l'.committed other =
      Reserve.spill .universal l.held l.committed other) :
    l'.universalDrawn + Reserve.spill .universal l.held l.committed tier =
      l.universalDrawn + Reserve.spill .universal l'.held l'.committed tier := by
  have hrest : ∑ other ∈ Finset.univ.erase tier,
        Reserve.spill .universal l'.held l'.committed other =
      ∑ other ∈ Finset.univ.erase tier, Reserve.spill .universal l.held l.committed other :=
    Finset.sum_congr rfl fun other hother => h other (Finset.ne_of_mem_erase hother)
  rw [universalDrawn_eq_sum, universalDrawn_eq_sum,
    ← Finset.add_sum_erase Finset.univ _ (Finset.mem_univ tier),
    ← Finset.add_sum_erase Finset.univ (Reserve.spill .universal l.held l.committed)
      (Finset.mem_univ tier), hrest]
  omega

theorem spill_le_universalDrawn (l : TierLedger) (tier : Tier) :
    Reserve.spill .universal l.held l.committed tier ≤ l.universalDrawn := by
  rw [universalDrawn_eq_sum]
  exact Finset.single_le_sum (fun _ _ => Nat.zero_le _) (Finset.mem_univ tier)

theorem committed_commit (l : Ledger) (tier other : Tier) (units : U128) :
    (l.commit tier units).toTierLedger.committed other =
      if other = tier then min (l.toTierLedger.committed tier + units.toNat) U128.MAX
      else l.toTierLedger.committed other :=
  amount_addTo l.committed tier other units

theorem held_credit (l : Ledger) (tier other : Tier) (units : U128) :
    (l.credit tier units).toTierLedger.held other =
      if other = tier then min (l.toTierLedger.held tier + units.toNat) U128.MAX
      else l.toTierLedger.held other :=
  amount_addTo l.held tier other units

theorem universalDrawn_commit (l : Ledger) (tier : Tier) (units : U128) :
    (l.commit tier units).toTierLedger.universalDrawn +
        (l.toTierLedger.committed tier - Reserve.kept .universal l.toTierLedger.held tier) =
      l.toTierLedger.universalDrawn +
        (min (l.toTierLedger.committed tier + units.toNat) U128.MAX -
          Reserve.kept .universal l.toTierLedger.held tier) := by
  have hchange := @universalDrawn_change l.toTierLedger
    (l.commit tier units).toTierLedger tier fun other hother => by
      unfold Reserve.spill
      rw [committed_commit, if_neg hother]
      rfl
  unfold Reserve.spill at hchange
  rw [committed_commit, if_pos rfl] at hchange
  exact hchange

/-- What is spendable is what can still be promised, while the sums stay in their type. -/
theorem solvent_commit_iff {l : Ledger} {tier : Tier} {units : U128}
    (hcommitted : total l.committed < 2 ^ 128) (hsolvent : l.solvent = true)
    (hroom : total l.held + 1 < 2 ^ 128 ∨ total l.committed + units.toNat < 2 ^ 128) :
    (l.commit tier units).solvent = true ↔ units.toNat ≤ (l.spendableIn tier).toNat := by
  have hdrawn := universalDrawn_le_total l
  have hspill := spill_le_universalDrawn l.toTierLedger tier
  have hcommit := universalDrawn_commit l tier units
  have hreserve := (amount l.held .universal).toNat_le
  have hunits := units.toNat_le
  have htop : U128.MAX = 2 ^ 128 - 1 := rfl
  have hsame : (l.commit tier units).toTierLedger.held = l.toTierLedger.held := rfl
  rw [solvent_iff] at hsolvent ⊢
  rw [toNat_spendableIn, hsame]
  have hheld : l.toTierLedger.held .universal = (amount l.held .universal).toNat := rfl
  by_cases h : tier = .universal
  · have hkept : Reserve.kept .universal l.toTierLedger.held tier = 0 := if_pos h
    have hone := amount_le_total l.held .universal
    unfold Reserve.spill at hspill
    rw [TierLedger.spendableIn, if_pos h]
    omega
  · have hkept : Reserve.kept .universal l.toTierLedger.held tier = l.toTierLedger.held tier :=
      if_neg h
    have hpair := add_amount_le_total l.held h
    have hone := amount_le_total l.committed tier
    have hown : l.toTierLedger.held tier = (amount l.held tier).toNat := rfl
    have hpromised : l.toTierLedger.committed tier = (amount l.committed tier).toNat := rfl
    unfold Reserve.spill at hspill
    rw [TierLedger.spendableIn, if_neg h]
    omega

/-! ## A credit takes nothing away -/

theorem held_le_held_credit (l : Ledger) (tier other : Tier) (units : U128) :
    l.toTierLedger.held other ≤ (l.credit tier units).toTierLedger.held other := by
  have hle : l.toTierLedger.held tier ≤ U128.MAX := (amount l.held tier).toNat_le
  rw [held_credit]
  split_ifs with h
  · subst h
    omega
  · exact le_refl _

theorem universalDrawn_credit_le (l : Ledger) (tier : Tier) (units : U128) :
    (l.credit tier units).toTierLedger.universalDrawn ≤ l.toTierLedger.universalDrawn := by
  rw [universalDrawn_eq_sum, universalDrawn_eq_sum]
  refine Finset.sum_le_sum fun other _ => ?_
  have hheld := held_le_held_credit l tier other units
  unfold Reserve.spill Reserve.kept
  split_ifs
  · exact le_refl _
  · exact Nat.sub_le_sub_left hheld _

theorem solvent_credit {l : Ledger} (h : l.solvent = true) (tier : Tier) (units : U128) :
    (l.credit tier units).solvent = true := by
  have hdrawn := universalDrawn_credit_le l tier units
  have hheld := held_le_held_credit l tier .universal units
  rw [solvent_iff] at h ⊢
  omega

theorem spendableIn_le_credit (l : Ledger) (tier wanted : Tier) (units : U128) :
    (l.spendableIn wanted).toNat ≤ ((l.credit tier units).spendableIn wanted).toNat := by
  have hdrawn := universalDrawn_credit_le l tier units
  have hreserve := held_le_held_credit l tier .universal units
  have hown := held_le_held_credit l tier wanted units
  have hsame : (l.credit tier units).toTierLedger.committed = l.toTierLedger.committed := rfl
  rw [toNat_spendableIn, toNat_spendableIn]
  unfold TierLedger.spendableIn
  rw [hsame]
  dsimp only
  split_ifs <;> omega

/-- Solvent means that the promises can be backed unit by unit, and what is spendable is what
can be promised next. A credit takes nothing away. -/
theorem assignability (l : Ledger) :
    (total l.held < 2 ^ 128 → total l.committed < 2 ^ 128 →
      (l.solvent = true ↔
        ∃ backing : Reserve.Units l.toTierLedger.committed → Reserve.Units l.toTierLedger.held,
          Function.Injective backing ∧ ∀ unit, (backing unit).1.covers unit.1 = true) ∧
      ∀ tier units, l.solvent = true →
        (total l.held + 1 < 2 ^ 128 ∨ total l.committed + units.toNat < 2 ^ 128) →
        ((l.commit tier units).solvent = true ↔ units ≤ l.spendableIn tier)) ∧
    ∀ tier units, (l.solvent = true → (l.credit tier units).solvent = true) ∧
      ∀ wanted, l.spendableIn wanted ≤ (l.credit tier units).spendableIn wanted := by
  refine ⟨fun _ hcommitted => ⟨solvent_iff_assignment hcommitted, ?_⟩, fun tier units => ⟨?_, ?_⟩⟩
  · intro tier units hsolvent hroom
    exact solvent_commit_iff hcommitted hsolvent hroom
  · exact fun hsolvent => solvent_credit hsolvent tier units
  · exact fun wanted => spendableIn_le_credit l tier wanted units

/-- A hundred of the reserve and thirty of certificate work, with forty promised to Lean. -/
def sampleLedger : Ledger :=
  ((new.credit .universal 100).credit (.earned .certificate) 30).commit (.earned .lean) 40

theorem assignability_sample : (sampleLedger.commit (.earned .certificate) 90).solvent = true :=
  (((assignability sampleLedger).1 (by decide) (by decide)).2 (.earned .certificate) 90
    (by decide) (Or.inl (by decide))).mpr (by decide)

/-- A tier that holds the greatest word, with one unit promised. -/
def fullLedger : Ledger :=
  (new.credit (.earned .lean) (BitVec.allOnes 128)).commit (.earned .lean) 1

/-- A promise that would leave its type is cut to the greatest word, which is covered. -/
theorem not_spendable_iff :
    ¬∀ (l : Ledger) (tier : Tier) (units : U128), total l.held < 2 ^ 128 →
      total l.committed < 2 ^ 128 → l.solvent = true →
      ((l.commit tier units).solvent = true ↔ units ≤ l.spendableIn tier) := by
  intro hclaim
  have hfull := hclaim fullLedger (.earned .lean) (BitVec.allOnes 128) (by decide) (by decide)
    (by decide)
  revert hfull
  decide

end Ledger

end Tier

end Cairn.Ports
