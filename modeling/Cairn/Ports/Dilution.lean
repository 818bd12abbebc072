import Cairn.Ports.Attribution

/-!
# Slicing and dilution

What a submitter can move by arranging the citations around a settlement. A
share upstream is a floor of what its weight is worth and at most one unit on
top (`apportion_units`), and the floor reads nothing of the other ancestors but
their total weight. Slicing one ancestor into a chain leaves that total alone;
citing more raises it, and what was reserved beforehand is out of its reach.
-/

namespace Cairn.Ports

open Cairn.Verified
open Cairn.Ports.Canonical

namespace Attribution

theorem rowsAt_portionRows (portions : List Portion) (id : String) :
    BTreeMap.rowsAt (portionRows portions) id =
      ((portions.filter fun q => q.id = id).map Portion.share).sum := by
  induction portions with
  | nil => rfl
  | cons q rest ih =>
    have hcons : BTreeMap.rowsAt (portionRows (q :: rest)) id =
        (if q.id = id then q.share else 0) + BTreeMap.rowsAt (portionRows rest) id := by
      by_cases hzero : q.share = 0
      · simp [portionRows, hzero]
      · rw [← BTreeMap.rowsAt_cons (q.id, q.share)]
        simp [portionRows, hzero]
    rw [hcons, ih]
    by_cases hid : q.id = id
    · simp [hid]
    · simp [hid]

/-! ## One share -/

variable {id : String} {w : UInt64}

theorem filter_id_eq {portions : List Portion} (hnodup : (portions.map Portion.id).Nodup)
    {q : Portion} (hq : q ∈ portions) (hid : q.id = id) :
    portions.filter (fun p => p.id = id) = [q] := by
  induction portions with
  | nil => cases hq
  | cons p rest ih =>
    rw [List.map_cons, List.nodup_cons] at hnodup
    rcases List.mem_cons.mp hq with rfl | hq
    · have hnone : rest.filter (fun p => p.id = id) = [] := by
        rw [List.filter_eq_nil_iff]
        intro p hp heq
        have hp' : p.id = q.id := (of_decide_eq_true heq).trans hid.symm
        exact hnodup.1 (hp' ▸ List.mem_map_of_mem hp)
      rw [List.filter_cons_of_pos (by simpa using hid), hnone]
    · have hne : ¬p.id = id := fun hp =>
        hnodup.1 ((hp.trans hid.symm) ▸ List.mem_map_of_mem hq)
      rw [List.filter_cons_of_neg (by simpa using hne), ih hnodup.2 hq]

theorem nodup_serviceOrder (portions : List Portion) : (serviceOrder portions).Nodup := by
  have hperm : (serviceOrder portions).Perm (portions.zipIdx.map Prod.snd) :=
    (List.perm_insertionSort _ _).map _
  rw [hperm.nodup_iff, List.zipIdx_map_snd]
  exact List.nodup_range'

theorem handOut_of_notMem (order : List Nat) :
    ∀ (leftover : Nat) (portions : List Portion) {i : Nat}, i ∉ order →
      (handOut leftover order portions)[i]? = portions[i]? := by
  induction order with
  | nil =>
    intro leftover portions i _
    cases leftover <;> rfl
  | cons j order ih =>
    intro leftover portions i hi
    cases leftover with
    | zero => rfl
    | succ leftover =>
      rw [List.mem_cons, not_or] at hi
      rw [handOut, ih leftover _ hi.2, List.getElem?_modify_ne _ _ (Ne.symm hi.1)]

/-- An index is served at most once. -/
theorem handOut_getElem? (order : List Nat) :
    ∀ (leftover : Nat) (portions : List Portion), order.Nodup →
      ∀ (i : Nat) (q : Portion), portions[i]? = some q → q.share ≤ maxU64 →
        ∃ q', (handOut leftover order portions)[i]? = some q' ∧ q'.id = q.id ∧
          q.share ≤ q'.share ∧ q'.share ≤ q.share + 1 := by
  induction order with
  | nil =>
    intro leftover portions _ i q hq hfits
    refine ⟨q, ?_, rfl, Nat.le_refl _, Nat.le_succ _⟩
    rw [handOut_of_notMem [] leftover portions List.not_mem_nil, hq]
  | cons j order ih =>
    intro leftover portions hnodup i q hq hfits
    obtain ⟨hj, hrest⟩ := List.nodup_cons.mp hnodup
    cases leftover with
    | zero => exact ⟨q, hq, rfl, Nat.le_refl _, Nat.le_succ _⟩
    | succ leftover =>
      rw [handOut]
      by_cases hij : i = j
      · subst hij
        have hlow : q.share ≤ q.bump.share := le_min (Nat.le_succ _) hfits
        have hhigh : q.bump.share ≤ q.share + 1 := Nat.min_le_left _ _
        refine ⟨q.bump, ?_, rfl, hlow, hhigh⟩
        -- served here, and not in the rest of the order
        rw [handOut_of_notMem order leftover _ hj, List.getElem?_modify_eq, hq]
        rfl
      · apply ih leftover _ hrest i q _ hfits
        rw [List.getElem?_modify_ne _ _ (fun h => hij h.symm), hq]

/-- A share is the floor of what its weight is worth, or one unit more. -/
theorem apportion_units {upstream : Nat} (hfits : upstream ≤ maxU64)
    {weighted : List (String × UInt64)} (hnodup : (weighted.map Prod.fst).Nodup)
    (hmem : (id, w) ∈ weighted) :
    upstream * w.toNat / totalWeight weighted ≤
        BTreeMap.rowsAt (portionRows (apportion upstream (totalWeight weighted) weighted)) id ∧
      BTreeMap.rowsAt (portionRows (apportion upstream (totalWeight weighted) weighted)) id ≤
        upstream * w.toNat / totalWeight weighted + 1 := by
  obtain ⟨i, hi⟩ := List.getElem?_of_mem hmem
  have hle : w.toNat ≤ totalWeight weighted :=
    List.le_sum_of_mem (List.mem_map_of_mem (f := fun p : String × UInt64 => p.2.toNat) hmem)
  have hfloor : upstream * w.toNat / totalWeight weighted ≤ upstream :=
    Nat.div_le_of_le_mul (by rw [Nat.mul_comm]; exact Nat.mul_le_mul_right _ hle)
  have hnarrow : narrow (upstream * w.toNat / totalWeight weighted) maxU64 =
      upstream * w.toNat / totalWeight weighted :=
    narrow_of_le hfloor (lt_of_le_of_lt hfits (by decide))
  have hportion : (portionsOf upstream (totalWeight weighted) weighted)[i]? = some
      { id := id
        share := upstream * w.toNat / totalWeight weighted
        remainder := upstream * w.toNat % totalWeight weighted } := by
    rw [portionsOf, List.getElem?_map, hi]
    simp only [Option.map_some, hnarrow]
  obtain ⟨q, hq, hqid, hlow, hhigh⟩ := handOut_getElem? _
    (upstream - allocated (portionsOf upstream (totalWeight weighted) weighted)) _
    (nodup_serviceOrder _) i _ hportion (hfloor.trans hfits)
  have hids : ((apportion upstream (totalWeight weighted) weighted).map Portion.id).Nodup := by
    rw [apportion, handOut_ids, portionsOf, List.map_map]
    exact hnodup
  have hunits :
      BTreeMap.rowsAt (portionRows (apportion upstream (totalWeight weighted) weighted)) id =
        q.share := by
    have hfilter : (apportion upstream (totalWeight weighted) weighted).filter
        (fun p => p.id = id) = [q] := filter_id_eq hids (List.mem_of_getElem? hq) hqid
    rw [rowsAt_portionRows, hfilter, List.map_singleton, List.sum_singleton]
  rw [hunits]
  exact ⟨hlow, hhigh⟩

/-! ## The weight upstream -/

theorem nodup_ancestorsOf (claims : BTreeMap String Claim) (claimId : String) :
    (ancestorsOf claimId claims).Nodup := by
  obtain ⟨seen, hcomplete, heq⟩ := complete_ancestorsOf claims claimId
  rw [heq, (List.perm_insertionSort _ _).nodup_iff]
  exact hcomplete.nodup

/-- What a claim weighs in a split. -/
def weightAt (weights : BTreeMap String UInt64) (id : String) : Nat :=
  ((weights.get? id).getD 0).toNat

/-- An ancestor that was settled for something takes part in the split. -/
theorem weightedAncestors_of_mem {weights : BTreeMap String UInt64}
    {claims : BTreeMap String Claim} {claimId id : String}
    (hmem : id ∈ ancestorsOf claimId claims) (hget : weights.get? id = some w) (hpos : 0 < w) :
    (id, w) ∈ weightedAncestors weights claims claimId := by
  have hfilter : (weights.get? id).filter (fun w => w > 0) = some w := by
    rw [hget, Option.filter_some, if_pos (by simpa using hpos)]
  exact List.mem_filterMap.mpr ⟨id, hmem, by rw [hfilter]; rfl⟩

theorem nodup_weightedAncestors (weights : BTreeMap String UInt64)
    (claims : BTreeMap String Claim) (claimId : String) :
    ((weightedAncestors weights claims claimId).map Prod.fst).Nodup := by
  have hsub : ((weightedAncestors weights claims claimId).map Prod.fst).Sublist
      (ancestorsOf claimId claims) := by
    unfold weightedAncestors
    induction ancestorsOf claimId claims with
    | nil => exact List.Sublist.refl _
    | cons id rest ih =>
      cases hget : (weights.get? id).filter fun w => w > 0 with
      | none =>
        rw [List.filterMap_cons_none (by rw [hget]; rfl)]
        exact ih.cons _
      | some w =>
        rw [List.filterMap_cons_some (by rw [hget]; rfl), List.map_cons]
        exact ih.cons_cons _
  exact hsub.nodup (nodup_ancestorsOf claims claimId)

/-- The total weight, ancestor by ancestor. -/
theorem totalWeight_eq (weights : BTreeMap String UInt64) (claims : BTreeMap String Claim)
    (claimId : String) :
    totalWeight (weightedAncestors weights claims claimId) =
      ((ancestorsOf claimId claims).map (weightAt weights)).sum := by
  unfold totalWeight weightedAncestors
  induction ancestorsOf claimId claims with
  | nil => rfl
  | cons id rest ih =>
    rw [List.map_cons, List.sum_cons, ← ih]
    cases hget : weights.get? id with
    | none =>
      rw [List.filterMap_cons_none (by rw [hget]; rfl)]
      simp [weightAt, hget]
    | some w =>
      by_cases hpos : 0 < w
      · rw [List.filterMap_cons_some (b := (id, w)) (by
          rw [hget, Option.filter_some, if_pos (by simpa using hpos)]; rfl)]
        simp [weightAt, hget]
      · rw [List.filterMap_cons_none (by
          rw [hget, Option.filter_some, if_neg (by simpa using hpos)]; rfl)]
        have hzero : w.toNat = 0 := by
          rw [UInt64.lt_iff_toNat_lt, UInt64.toNat_zero] at hpos
          omega
        simp [weightAt, hget, hzero]

/-- A claim outside the split is paid nothing. -/
theorem rowsAt_eq_zero {upstream total : Nat} {weighted : List (String × UInt64)}
    (h : id ∉ weighted.map Prod.fst) :
    BTreeMap.rowsAt (portionRows (apportion upstream total weighted)) id = 0 := by
  apply BTreeMap.rowsAt_of_not_mem
  intro row hrow hid
  obtain ⟨q, hq, rfl⟩ := List.mem_map.mp hrow
  have hids : (apportion upstream total weighted).map Portion.id = weighted.map Prod.fst := by
    rw [apportion, handOut_ids, portionsOf, List.map_map]
    rfl
  exact h (hids ▸ hid ▸ List.mem_map_of_mem (List.mem_of_mem_filter hq))

/-! ## One settlement -/

/-- The part that leaves a settlement. -/
theorem upstreamOf_eq (r : UInt64) (p : FlowParams) :
    upstreamOf r.toNat p = r.toNat * p.deltaNum.toNat / p.deltaDen.toNat := by
  have hle : r.toNat * p.deltaNum.toNat / p.deltaDen.toNat ≤ r.toNat := by
    apply Nat.div_le_of_le_mul
    rw [Nat.mul_comm]
    exact Nat.mul_le_mul_right _ (UInt64.le_iff_toNat_le.mp p.delta_le)
  unfold upstreamOf
  rw [narrow_of_le hle r.toNat_lt]
  exact Nat.min_eq_left hle

/-- The part that is reserved of what leaves. -/
theorem reservedOf_eq {upstream : Nat} (hfits : upstream ≤ maxU64) (p : FlowParams) :
    min (reservedOf p upstream) upstream =
      upstream * p.reservedNum.toNat / p.reservedDen.toNat := by
  have hle : upstream * p.reservedNum.toNat / p.reservedDen.toNat ≤ upstream := by
    apply Nat.div_le_of_le_mul
    rw [Nat.mul_comm]
    exact Nat.mul_le_mul_right _ (UInt64.le_iff_toNat_le.mp p.reserved_le)
  unfold reservedOf
  rw [narrow_of_le hle (lt_of_le_of_lt hfits (by decide))]
  exact Nat.min_eq_left hle

theorem upstreamOf_fits (r : UInt64) (p : FlowParams) : upstreamOf r.toNat p ≤ maxU64 :=
  (Nat.min_le_right _ _).trans (Nat.le_sub_one_of_lt r.toNat_lt)

theorem totalWeight_pos_of_mem {weights : BTreeMap String UInt64} {claims : BTreeMap String Claim}
    {claimId id : String} (h : (id, w) ∈ weightedAncestors weights claims claimId) :
    0 < totalWeight (weightedAncestors weights claims claimId) := by
  have hle : w.toNat ≤ totalWeight (weightedAncestors weights claims claimId) :=
    List.le_sum_of_mem (List.mem_map_of_mem (f := fun p : String × UInt64 => p.2.toNat) h)
  have hpos := UInt64.lt_iff_toNat_lt.mp (mem_weightedAncestors h).2.2
  rw [UInt64.toNat_zero] at hpos
  exact lt_of_lt_of_le hpos hle

section Settlement

variable {weights : BTreeMap String UInt64} {claims : BTreeMap String Claim}
  {enforced : BTreeMap String String} {p : FlowParams} {id : String} {r : UInt64}

/-- A settlement that has weight upstream keeps what does not leave. -/
theorem distribution_of_weight (hr : r ≠ 0) (hclaim : (claims.get? id).isSome)
    (htotal : 0 < totalWeight (weightedAncestors weights claims id)) :
    distribution weights claims enforced p (id, r) =
      (id, r.toNat - upstreamOf r.toNat p) ::
        upstreamRows claims enforced p (weightedAncestors weights claims id) id
          (upstreamOf r.toNat p) := by
  have hne : ¬(weightedAncestors weights claims id = [] ∨
      totalWeight (weightedAncestors weights claims id) = 0) := by
    rintro (hnil | hzero)
    · rw [hnil] at htotal
      exact absurd htotal (Nat.lt_irrefl 0)
    · omega
  have hthere : ¬(r = 0 ∨ claims.get? id = none) := by
    rintro (hzero | hnone)
    · exact hr hzero
    · rw [hnone] at hclaim
      cases hclaim
  unfold distribution
  dsimp only
  rw [if_neg hthere, if_neg hne]

/-- With no weight upstream it keeps everything. -/
theorem distribution_of_no_weight (hr : r ≠ 0) (hclaim : (claims.get? id).isSome)
    (htotal : totalWeight (weightedAncestors weights claims id) = 0) :
    distribution weights claims enforced p (id, r) = [(id, r.toNat)] := by
  have hthere : ¬(r = 0 ∨ claims.get? id = none) := by
    rintro (hzero | hnone)
    · exact hr hzero
    · rw [hnone] at hclaim
      cases hclaim
  unfold distribution
  dsimp only
  rw [if_neg hthere, if_pos (.inr htotal)]

/-- With nothing enforced, all that leaves is apportioned. -/
theorem rowsAt_upstreamRows_of_none (hnone : enforced.get? id = none)
    (weighted : List (String × UInt64)) (upstream : Nat) (a : String) :
    BTreeMap.rowsAt (upstreamRows claims enforced p weighted id upstream) a =
      if upstream = 0 then 0
      else
        BTreeMap.rowsAt (portionRows (apportion upstream (totalWeight weighted) weighted)) a := by
  have hreserved : reservedRow claims enforced p weighted id upstream = [] := by
    unfold reservedRow
    rw [hnone]
  unfold upstreamRows
  dsimp only
  rw [hreserved]
  by_cases hzero : upstream = 0
  · rw [if_pos hzero, if_pos hzero]
    rfl
  · rw [if_neg hzero, if_neg (by simpa using hzero), if_neg hzero]
    rfl

/-- What the enforced citation gets is what was reserved for it, at least. -/
theorem le_rowsAt_upstreamRows {target : String} (henforced : enforced.get? id = some target)
    {weighted : List (String × UInt64)} (hmem : target ∈ weighted.map Prod.fst)
    (htarget : (claims.get? target).isSome) {upstream : Nat} (hfits : upstream ≤ maxU64) :
    upstream * p.reservedNum.toNat / p.reservedDen.toNat ≤
      BTreeMap.rowsAt (upstreamRows claims enforced p weighted id upstream) target := by
  by_cases hpos : upstream * p.reservedNum.toNat / p.reservedDen.toNat = 0
  · omega
  have hup : upstream ≠ 0 := by
    rintro rfl
    simp at hpos
  have hany : (weighted.any fun w => w.1 = target) = true := by
    obtain ⟨w, hw, hid⟩ := List.mem_map.mp hmem
    exact List.any_eq_true.mpr ⟨w, hw, by simpa using hid⟩
  have hrow : reservedRow claims enforced p weighted id upstream =
      [(target, upstream * p.reservedNum.toNat / p.reservedDen.toNat)] := by
    unfold reservedRow
    rw [henforced]
    dsimp only
    rw [reservedOf_eq hfits, if_pos ⟨hany, Nat.pos_of_ne_zero hpos, htarget⟩]
  have hat : BTreeMap.rowsAt (reservedRow claims enforced p weighted id upstream) target =
      upstream * p.reservedNum.toNat / p.reservedDen.toNat := by
    rw [hrow, BTreeMap.rowsAt_cons, if_pos rfl]
    rfl
  unfold upstreamRows
  dsimp only
  rw [if_neg hup]
  split_ifs
  · exact Nat.le_of_eq hat.symm
  · rw [BTreeMap.rowsAt_append, hat]
    exact Nat.le_add_right _ _

end Settlement

/-! ## Dilution -/

/-- Three claims on top of each other, the last citing both others. -/
def sampleStack : BTreeMap String Claim :=
  .ofList [("a", sampleWork "alice" []), ("d", sampleWork "carol" ["a", "m"]),
    ("m", sampleWork "bob" ["a"])]

/-- The default, and half of what leaves is reserved. -/
def sampleReserve : FlowParams :=
  { FlowParams.default with
    reservedNum := 1
    reservedDen := 2
    reservedDen_pos := by decide
    reserved_le := by decide }

theorem citesIn_sampleStack {b : String} (hb : b = "a" ∨ b = "m") :
    CitesIn sampleStack "d" b := by
  rcases hb with rfl | rfl
  · exact ⟨sampleWork "carol" ["a", "m"], by rfl, by decide, by rfl⟩
  · exact ⟨sampleWork "carol" ["a", "m"], by rfl, by decide, by rfl⟩

/-- `claims'` is `claims` with a chain where `m` was among the ancestors of `d`. -/
structure Replaces (claims claims' : BTreeMap String Claim) (d m : String)
    (chain : List String) : Prop where
  nodup : chain.Nodup
  /-- The chain is of new claims, the first of which may take the id. -/
  fresh : ∀ c ∈ chain, c = m ∨ claims.get? c = none
  gone : m ∉ chain → claims'.get? m = none
  submitters : ∀ a ∉ chain, a ≠ m →
    (claims'.get? a).map Claim.submitter = (claims.get? a).map Claim.submitter
  /-- Between the claims that stay, the citations stay. -/
  others : ∀ a ∉ chain, a ≠ m → ∀ b ∉ chain, b ≠ m → (CitesIn claims' a b ↔ CitesIn claims a b)
  cited : ∀ c ∈ chain, Relation.TransGen (CitesIn claims') d c
  /-- What `m` cited is cited by the chain. -/
  cites : ∀ b, b ≠ m → CitesIn claims m b → ∃ c ∈ chain, Relation.TransGen (CitesIn claims') c b
  /-- The chain cites nothing that `d` did not stand on before. -/
  onlyCites : ∀ c ∈ chain, ∀ b ∉ chain, CitesIn claims' c b →
    b = d ∨ Relation.TransGen (CitesIn claims) d b

/-- The chain was settled for what `m` was, and nothing else was settled anew. -/
structure Reweighs (weights weights' : BTreeMap String UInt64) (m : String)
    (chain : List String) : Prop where
  others : ∀ a ∉ chain, a ≠ m → weights'.get? a = weights.get? a
  positive : ∀ c ∈ chain, ∃ w, weights'.get? c = some w ∧ 0 < w
  sum : (chain.map (weightAt weights')).sum = weightAt weights m

namespace Replaces

variable {claims claims' : BTreeMap String Claim} {d m : String} {chain : List String}

variable {a : String}

/-- What stays of the ancestors is reached around the chain. -/
theorem reaches_after (h : Replaces claims claims' d m chain) (hd : d ∉ chain) (hne : d ≠ m)
    (hreach : Relation.TransGen (CitesIn claims) d a) :
    a ∉ chain → a ≠ m → a = d ∨ Relation.TransGen (CitesIn claims') d a := by
  -- `y` is `m` or stays: a claim of the chain was not there
  have hstays : ∀ y, (claims.get? y).isSome → y ≠ m → y ∉ chain := by
    intro y hsome hym hy
    rcases h.fresh y hy with rfl | hnone
    · exact hym rfl
    · rw [hnone] at hsome
      cases hsome
  induction hreach with
  | single hstep =>
    intro ha ham
    exact .inr (.single ((h.others d hd hne _ ha ham).mpr hstep))
  | @tail y z hreach hstep ih =>
    intro hz hzm
    right
    by_cases hym : y = m
    · subst hym
      obtain ⟨c, hc, hcz⟩ := h.cites z hzm hstep
      exact (h.cited c hc).trans hcz
    · have hy : y ∉ chain := by
        obtain ⟨claim, hclaim, -, -⟩ := hstep
        exact hstays y (by rw [hclaim]; rfl) hym
      have hstep' := (h.others y hy hym z hz hzm).mpr hstep
      rcases ih hy hym with rfl | hreach'
      · exact .single hstep'
      · exact hreach'.tail hstep'

/-- The chain reaches nothing new. -/
theorem reaches_before (h : Replaces claims claims' d m chain) (hd : d ∉ chain) (hne : d ≠ m)
    (hreach : Relation.TransGen (CitesIn claims') d a) :
    a ∉ chain → a ≠ m → a = d ∨ Relation.TransGen (CitesIn claims) d a := by
  induction hreach with
  | single hstep =>
    intro ha ham
    exact .inr (.single ((h.others d hd hne _ ha ham).mp hstep))
  | @tail y z hreach hstep ih =>
    intro hz hzm
    by_cases hy : y ∈ chain
    · exact h.onlyCites y hy z hz hstep
    · have hym : y ≠ m := by
        rintro rfl
        obtain ⟨claim, hclaim, -, -⟩ := hstep
        rw [h.gone hy] at hclaim
        cases hclaim
      have hstep' := (h.others y hy hym z hz hzm).mp hstep
      right
      rcases ih hy hym with rfl | hreach'
      · exact .single hstep'
      · exact hreach'.tail hstep'

theorem mem_ancestorsOf_iff (h : Replaces claims claims' d m chain) (hd : d ∉ chain)
    (hne : d ≠ m) :
    a ∈ ancestorsOf d claims' ↔ a ∈ chain ∨ (a ∈ ancestorsOf d claims ∧ a ≠ m) := by
  rw [mem_ancestorsOf, mem_ancestorsOf]
  by_cases ha : a ∈ chain
  · have had : a ≠ d := fun heq => hd (heq ▸ ha)
    simp only [ha, true_or, iff_true]
    exact ⟨had, h.cited a ha⟩
  · simp only [ha, false_or]
    constructor
    · rintro ⟨had, hreach⟩
      have ham : a ≠ m := by
        rintro rfl
        obtain ⟨y, -, claim, -, -, hsome⟩ := Relation.TransGen.tail'_iff.mp hreach
        rw [h.gone ha] at hsome
        cases hsome
      exact ⟨⟨had, (h.reaches_before hd hne hreach ha ham).resolve_left had⟩, ham⟩
    · rintro ⟨⟨had, hreach⟩, ham⟩
      exact ⟨had, (h.reaches_after hd hne hreach ha ham).resolve_left had⟩

/-- A claim of the chain was no ancestor, except under the id of `m`. -/
theorem notMem_ancestorsOf (h : Replaces claims claims' d m chain) {c : String} (hc : c ∈ chain)
    (hcm : c ≠ m) : c ∉ ancestorsOf d claims := by
  intro hmem
  have hsome := isSome_of_mem_ancestorsOf hmem
  rw [(h.fresh c hc).resolve_left hcm] at hsome
  cases hsome

/-- A chain weighs as much as what it stands for. -/
theorem totalWeight_eq {weights weights' : BTreeMap String UInt64}
    (h : Replaces claims claims' d m chain) (hw : Reweighs weights weights' m chain)
    (hd : d ∉ chain) (hm : m ∈ ancestorsOf d claims) :
    totalWeight (weightedAncestors weights' claims' d) =
      totalWeight (weightedAncestors weights claims d) := by
  have hne : d ≠ m := fun heq => (mem_ancestorsOf.mp hm).1 heq.symm
  have hrest : ∀ a ∈ (ancestorsOf d claims).erase m, a ∈ ancestorsOf d claims ∧ a ≠ m := by
    intro a ha
    rw [(nodup_ancestorsOf claims d).mem_erase_iff] at ha
    exact ⟨ha.2, ha.1⟩
  have hafter : (ancestorsOf d claims').Perm (chain ++ (ancestorsOf d claims).erase m) := by
    rw [List.perm_ext_iff_of_nodup (nodup_ancestorsOf claims' d)]
    · intro a
      rw [h.mem_ancestorsOf_iff hd hne, List.mem_append,
        (nodup_ancestorsOf claims d).mem_erase_iff, and_comm (a := a ≠ m)]
    · rw [List.nodup_append]
      refine ⟨h.nodup, (nodup_ancestorsOf claims d).erase m, ?_⟩
      rintro c hc a ha rfl
      exact h.notMem_ancestorsOf hc (hrest c ha).2 (hrest c ha).1
  have hsame : ((ancestorsOf d claims).erase m).map (weightAt weights') =
      ((ancestorsOf d claims).erase m).map (weightAt weights) := by
    apply List.map_congr_left
    intro a ha
    have hchain : a ∉ chain := fun hc => h.notMem_ancestorsOf hc (hrest a ha).2 (hrest a ha).1
    unfold weightAt
    rw [hw.others a hchain (hrest a ha).2]
  have hbefore : (ancestorsOf d claims).Perm (m :: (ancestorsOf d claims).erase m) :=
    List.perm_cons_erase hm
  rw [Attribution.totalWeight_eq, Attribution.totalWeight_eq, (hafter.map _).sum_eq,
    (hbefore.map _).sum_eq, List.map_append, List.sum_append, hw.sum, hsame, List.map_cons,
    List.sum_cons]

end Replaces

/-- The middle claim in two slices. -/
def sampleSliced : BTreeMap String Claim :=
  (sampleStack.insert "m" (sampleWork "bob" ["n"])).insert "n" (sampleWork "bob" ["a"])

theorem get?_sampleSliced {a : String} (ha : a ∉ ["m", "n"]) :
    sampleSliced.get? a = sampleStack.get? a := by
  simp only [List.mem_cons, List.not_mem_nil, or_false, not_or] at ha
  unfold sampleSliced
  rw [BTreeMap.get?_insert, if_neg ha.2, BTreeMap.get?_insert, if_neg ha.1]

theorem replaces_sampleSliced : Replaces sampleStack sampleSliced "d" "m" ["m", "n"] where
  nodup := by decide
  fresh := by decide
  gone h := absurd List.mem_cons_self h
  submitters a ha _ := by rw [get?_sampleSliced ha]
  others a ha _ b hb _ := by
    unfold CitesIn
    rw [get?_sampleSliced ha, get?_sampleSliced hb]
  cited := by
    have hm : CitesIn sampleSliced "d" "m" :=
      ⟨sampleWork "carol" ["a", "m"], by rfl, by decide, by rfl⟩
    have hn : CitesIn sampleSliced "m" "n" := ⟨sampleWork "bob" ["n"], by rfl, by decide, by rfl⟩
    intro c hc
    simp only [List.mem_cons, List.not_mem_nil, or_false] at hc
    rcases hc with rfl | rfl
    · exact .single hm
    · exact (Relation.TransGen.single hm).tail hn
  cites := by
    rintro b - ⟨claim, hclaim, hb, -⟩
    obtain rfl : sampleWork "bob" ["a"] = claim := Option.some_inj.mp hclaim
    obtain rfl : b = "a" := List.mem_singleton.mp hb
    exact ⟨"n", by decide, .single ⟨sampleWork "bob" ["a"], by rfl, by decide, by rfl⟩⟩
  onlyCites := by
    rintro c hc b hb ⟨claim, hclaim, hcites, -⟩
    simp only [List.mem_cons, List.not_mem_nil, or_false] at hc
    right
    rcases hc with rfl | rfl
    · obtain rfl : sampleWork "bob" ["n"] = claim := Option.some_inj.mp hclaim
      obtain rfl : b = "n" := List.mem_singleton.mp hcites
      exact absurd (by decide) hb
    · obtain rfl : sampleWork "bob" ["a"] = claim := Option.some_inj.mp hclaim
      obtain rfl : b = "a" := List.mem_singleton.mp hcites
      exact .single (citesIn_sampleStack (.inl rfl))

theorem reweighs_sampleSliced :
    Reweighs (weightsOf [("a", 10), ("m", 5), ("d", 16)])
      (weightsOf [("a", 10), ("m", 5), ("d", 16), ("m", 2), ("n", 3)]) "m" ["m", "n"] where
  others a ha _ := by
    simp only [List.mem_cons, List.not_mem_nil, or_false, not_or] at ha
    have hsplit : weightsOf [("a", 10), ("m", 5), ("d", 16), ("m", 2), ("n", 3)] =
        ((weightsOf [("a", 10), ("m", 5), ("d", 16)]).insert "m" 2).insert "n" 3 := by rfl
    rw [hsplit, BTreeMap.get?_insert, if_neg ha.2, BTreeMap.get?_insert, if_neg ha.1]
  positive := by
    intro c hc
    simp only [List.mem_cons, List.not_mem_nil, or_false] at hc
    rcases hc with rfl | rfl
    · exact ⟨2, by rfl, by decide⟩
    · exact ⟨3, by rfl, by decide⟩
  sum := by rfl

end Attribution

end Cairn.Ports
