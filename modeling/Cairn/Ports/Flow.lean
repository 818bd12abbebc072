import Cairn.Ports.Attribution
import Cairn.Verified.WorkStack
import Mathlib.Data.Finset.Card

/-!
# Per-hop citation flow

`flow` of `src/attribution.rs` sends part of an amount along the citations of a
claim, hop by hop, with a stack of frames in place of recursion. A frame knows
the path that reached it and does not follow a citation back onto that path;
the path does not hold the frame itself, so a claim that cites itself is
visited twice. What keeps the loop finite on any graph is that a citation step
either reaches a claim the path has not met or repeats one once.
-/

namespace Cairn.Ports

open Cairn.Verified
open Cairn.Ports.Canonical

namespace Attribution

/-- `u32::MAX`. -/
def maxU32 : Nat := UInt32.size - 1

/-- One node of the traversal, and the path that reached it. `id` is the key
the claim was found under. -/
structure Frame where
  id : String
  claim : Claim
  share : Nat
  depth : Nat
  path : List String

/-- Citations worth following: in the map, not on the path, sorted. -/
def resolvableCites (claim : Claim) (claims : BTreeMap String Claim) (path : List String) :
    List String :=
  (claim.cites.filter fun cited =>
    claims.containsKey cited && !path.contains cited).insertionSort (· ≤ ·)

/-- What the citation at a position gets of what goes upstream: the odd units
go to the first ones. -/
def portionAt (upstream fanout position : Nat) : Nat :=
  let base := upstream / fanout
  if position < upstream % fanout then min (base + 1) maxU64 else base

/-- `credit`: add to a total with saturation. A zero makes an entry too. -/
def creditRow (payouts : BTreeMap String Nat) (row : String × Nat) : BTreeMap String Nat :=
  payouts.insert row.1 (min (payouts.amount row.1 + row.2) maxU64)

namespace Frame

/-- The frame pushed for one citation, if it gets anything. -/
def child (claims : BTreeMap String Claim) (frame : Frame) (upstream fanout : Nat)
    (cited : String × Nat) : Option Frame :=
  let portion := portionAt upstream fanout cited.2
  if portion = 0 then none
  else
    (claims.get? cited.1).map fun claim =>
      { id := cited.1
        claim := claim
        share := portion
        depth := min (frame.depth + 1) maxU32
        path := frame.path ++ [frame.id] }

/-- One turn of the loop: whom the popped frame credits, and what it pushes. -/
def turn (claims : BTreeMap String Claim) (p : FlowParams) (frame : Frame) :
    (String × Nat) × List Frame :=
  let cites := resolvableCites frame.claim claims frame.path
  if p.maxDepth.toNat ≤ frame.depth ∨ cites = [] then ((frame.claim.submitter, frame.share), [])
  else
    let upstream := upstreamOf frame.share p
    ((frame.claim.submitter, frame.share - upstream),
      if upstream = 0 then []
      else cites.zipIdx.filterMap (frame.child claims upstream (max cites.length 1)))

end Frame

/-- The loop over the stack; nothing where the turns run out first. -/
def flowLoop (claims : BTreeMap String Claim) (p : FlowParams) (turns : Nat)
    (stack : List Frame) (payouts : BTreeMap String Nat) : Option (BTreeMap String Nat) :=
  WorkStack.run (Frame.turn claims p) creditRow turns stack payouts

/-- The backstop: what is missing from the amount goes to the settled claim. -/
def backstop (submitter : String) (amount : Nat) (payouts : BTreeMap String Nat) :
    BTreeMap String Nat :=
  if payouts.total < UInt64.size ∧ payouts.total < amount then
    creditRow payouts (submitter, amount - payouts.total)
  else payouts

def rootFrame (claimId : String) (root : Claim) (amount : UInt64) : Frame where
  id := claimId
  claim := root
  share := amount.toNat
  depth := 0
  path := []

/-- Split an amount across submitters, following citations from a claim. -/
def flow (turns : Nat) (claimId : String) (amount : UInt64) (claims : BTreeMap String Claim)
    (p : FlowParams) : Option (BTreeMap String Nat) :=
  if amount = 0 then some .empty
  else
    match claims.get? claimId with
    | none => some .empty
    | some root =>
      (flowLoop claims p turns [rootFrame claimId root amount] .empty).map
        (backstop root.submitter amount.toNat)

/-- Reached by this many citations that resolve. -/
inductive Hops (claims : BTreeMap String Claim) (root : String) : Nat → String → Prop
  | here : Hops claims root 0 root
  | step {n : Nat} {a b : String} (before : Hops claims root n a) (cites : CitesIn claims a b) :
      Hops claims root (n + 1) b

/-! ## The stack shrinks -/

namespace Frame

/-- What holds of every frame on the stack. -/
structure Standing (claims : BTreeMap String Claim) (p : FlowParams) (root : String)
    (frame : Frame) : Prop where
  here : claims.get? frame.id = some frame.claim
  share_lt : frame.share < UInt64.size
  depth_le : frame.depth ≤ p.maxDepth.toNat
  hops : Hops claims root frame.depth frame.id

/-- The claims the path has not met. -/
def unmet (claims : BTreeMap String Claim) (frame : Frame) : Finset String :=
  claims.keys.toFinset \ frame.path.toFinset

/-- A frame whose claim is on its own path ranks just above the others that
have met as much. -/
def rank (claims : BTreeMap String Claim) (frame : Frame) : Nat :=
  2 * (frame.unmet claims).card + if frame.id ∈ frame.path then 1 else 0

variable {claims : BTreeMap String Claim} {p : FlowParams} {root : String}
variable {frame next : Frame}

theorem mem_resolvableCites {claim : Claim} {path : List String} {cited : String} :
    cited ∈ resolvableCites claim claims path ↔
      cited ∈ claim.cites ∧ (claims.get? cited).isSome ∧ cited ∉ path := by
  simp [resolvableCites, BTreeMap.containsKey]

/-- A frame that pushes is not too deep, and pushes children of its citations. -/
theorem of_mem_turn (h : next ∈ (frame.turn claims p).2) :
    frame.depth < p.maxDepth.toNat ∧ ∃ cited,
      cited.1 ∈ resolvableCites frame.claim claims frame.path ∧
      frame.child claims (upstreamOf frame.share p)
        (max (resolvableCites frame.claim claims frame.path).length 1) cited = some next := by
  unfold turn at h
  dsimp only at h
  split_ifs at h with hleaf hzero
  · cases h
  · cases h
  · rw [not_or, not_le] at hleaf
    obtain ⟨cited, hcited, hchild⟩ := List.mem_filterMap.mp h
    exact ⟨hleaf.1, cited, List.fst_mem_of_mem_zipIdx hcited, hchild⟩

variable {upstream fanout : Nat}

/-- What a child is. -/
theorem child_spec {cited : String × Nat}
    (h : frame.child claims upstream fanout cited = some next) :
    next.id = cited.1 ∧ claims.get? next.id = some next.claim ∧
      next.share = portionAt upstream fanout cited.2 ∧
      next.depth = min (frame.depth + 1) maxU32 ∧ next.path = frame.path ++ [frame.id] := by
  unfold child at h
  dsimp only at h
  split_ifs at h
  obtain ⟨claim, hclaim, rfl⟩ := Option.map_eq_some_iff.mp h
  exact ⟨rfl, hclaim, rfl, rfl, rfl⟩

theorem portionAt_le {upstream fanout position : Nat} (hfanout : 0 < fanout) :
    portionAt upstream fanout position ≤ upstream := by
  have hdiv := Nat.div_add_mod upstream fanout
  have hle : upstream / fanout ≤ fanout * (upstream / fanout) := Nat.le_mul_of_pos_left _ hfanout
  unfold portionAt
  dsimp only
  split_ifs <;> omega

/-- A pushed frame stands as the one that pushed it. -/
theorem Standing.pushed (h : frame.Standing claims p root) (hnext : next ∈ (frame.turn claims p).2) :
    next.Standing claims p root := by
  obtain ⟨hdepth, cited, hmem, hchild⟩ := of_mem_turn hnext
  obtain ⟨hid, hhere, hshare, hnextdepth, -⟩ := child_spec hchild
  obtain ⟨hcites, hsome, -⟩ := mem_resolvableCites.mp hmem
  have hmax := p.maxDepth.toNat_lt
  have hplain : next.depth = frame.depth + 1 := by
    rw [hnextdepth]
    simp only [maxU32, UInt32.size]
    omega
  refine ⟨hhere, ?_, by omega, ?_⟩
  · rw [hshare]
    have hle := @portionAt_le (upstreamOf frame.share p) _ cited.2
      (show 0 < max (resolvableCites frame.claim claims frame.path).length 1 by omega)
    have hup : upstreamOf frame.share p ≤ frame.share := Nat.min_le_right _ _
    exact lt_of_le_of_lt (hle.trans hup) h.share_lt
  · rw [hplain, hid]
    exact .step h.hops ⟨frame.claim, h.here, hcites, hsome⟩

/-- A pushed frame ranks below. -/
theorem rank_lt (h : frame.Standing claims p root) (hnext : next ∈ (frame.turn claims p).2) :
    next.rank claims < frame.rank claims := by
  obtain ⟨-, cited, hmem, hchild⟩ := of_mem_turn hnext
  obtain ⟨hid, -, -, -, hpath⟩ := child_spec hchild
  have hfresh : next.id ∉ frame.path := by
    rw [hid]
    exact (mem_resolvableCites.mp hmem).2.2
  have hkey : frame.id ∈ claims.keys := BTreeMap.mem_keys.mpr ⟨frame.claim, h.here⟩
  unfold rank
  by_cases hself : frame.id ∈ frame.path
  · -- The path does not grow, and the next claim is not on it.
    have hsame : next.unmet claims = frame.unmet claims := by
      unfold unmet
      rw [hpath]
      ext id
      simp only [Finset.mem_sdiff, List.mem_toFinset, List.mem_append, List.mem_singleton, not_or]
      constructor
      · rintro ⟨hid, hmet, -⟩
        exact ⟨hid, hmet⟩
      · rintro ⟨hid, hmet⟩
        exact ⟨hid, hmet, fun heq => hmet (heq ▸ hself)⟩
    have hnot : next.id ∉ next.path := by
      rw [hpath, List.mem_append, List.mem_singleton, not_or]
      exact ⟨hfresh, fun heq => hfresh (heq ▸ hself)⟩
    rw [hsame, if_neg hnot, if_pos hself]
    omega
  · -- The path meets the popped claim.
    have hsub : next.unmet claims ⊂ frame.unmet claims := by
      unfold unmet
      rw [hpath, Finset.ssubset_iff_of_subset (by
        intro id hid
        simp only [Finset.mem_sdiff, List.mem_toFinset, List.mem_append, not_or] at hid ⊢
        exact ⟨hid.1, hid.2.1⟩)]
      refine ⟨frame.id, ?_, ?_⟩
      · simp only [Finset.mem_sdiff, List.mem_toFinset]
        exact ⟨hkey, hself⟩
      · simp
    have hcard := Finset.card_lt_card hsub
    rw [if_neg hself]
    split_ifs <;> omega

theorem ranked : WorkStack.Ranked (turn claims p) (Standing claims p root) (rank claims) :=
  fun _ h _ hnext => ⟨h.pushed hnext, rank_lt h hnext⟩

/-! ## Shares -/

/-- Without saturation a portion is the floor and perhaps an odd unit. -/
theorem portionAt_eq (hfanout : 0 < fanout)
    (hfits : upstream < UInt64.size) (position : Nat) :
    portionAt upstream fanout position =
      upstream / fanout + if position < upstream % fanout then 1 else 0 := by
  have hdiv := Nat.div_add_mod upstream fanout
  have hle : upstream / fanout ≤ fanout * (upstream / fanout) := Nat.le_mul_of_pos_left _ hfanout
  unfold portionAt
  dsimp only
  split_ifs with hodd
  · refine Nat.min_eq_left ?_
    unfold maxU64
    omega
  · rfl

theorem sum_odd (base odd count : Nat) :
    ((List.range count).map fun position => base + if position < odd then 1 else 0).sum =
      count * base + min count odd := by
  induction count with
  | zero => simp
  | succ count ih =>
    rw [List.range_succ, List.map_append, List.sum_append, ih, List.map_singleton,
      List.sum_singleton, Nat.succ_mul]
    split_ifs <;> omega

/-- Over all positions the portions are what goes upstream. -/
theorem sum_portionAt (hfanout : 0 < fanout)
    (hfits : upstream < UInt64.size) :
    ((List.range fanout).map (portionAt upstream fanout)).sum = upstream := by
  have hodd := Nat.mod_lt upstream hfanout
  rw [funext (portionAt_eq hfanout hfits), sum_odd, Nat.min_eq_right hodd.le]
  exact Nat.div_add_mod upstream fanout

/-- The children of citations that resolve share out their portions. -/
theorem sum_children {cites : List (String × Nat)}
    (hsome : ∀ cited ∈ cites, (claims.get? cited.1).isSome) :
    ((cites.filterMap (frame.child claims upstream fanout)).map Frame.share).sum =
      (cites.map fun cited => portionAt upstream fanout cited.2).sum := by
  induction cites with
  | nil => rfl
  | cons cited cites ih =>
    obtain ⟨claim, hclaim⟩ := Option.isSome_iff_exists.mp (hsome cited (by simp))
    have ih := ih fun other hother => hsome other (by simp [hother])
    rw [List.map_cons, List.sum_cons, ← ih, List.filterMap_cons]
    unfold child
    dsimp only
    by_cases hzero : portionAt upstream fanout cited.2 = 0
    · rw [if_pos hzero, hzero, Nat.zero_add]
    · rw [if_neg hzero, hclaim]
      rfl

/-- A frame's share is what it keeps and what it sends on. -/
theorem weigh (h : frame.Standing claims p root) :
    (frame.turn claims p).1.2 + ((frame.turn claims p).2.map Frame.share).sum = frame.share := by
  have hle : upstreamOf frame.share p ≤ frame.share := Nat.min_le_right _ _
  unfold turn
  dsimp only
  split_ifs with hleaf hzero
  · simp
  · simp [hzero]
  · rw [not_or] at hleaf
    have hlength : 0 < (resolvableCites frame.claim claims frame.path).length :=
      List.length_pos_iff.mpr hleaf.2
    have hsome : ∀ cited ∈ (resolvableCites frame.claim claims frame.path).zipIdx,
        (claims.get? cited.1).isSome := fun cited hcited =>
      (mem_resolvableCites.mp (List.fst_mem_of_mem_zipIdx hcited)).2.1
    have hpositions : ((resolvableCites frame.claim claims frame.path).zipIdx.map fun cited =>
        portionAt (upstreamOf frame.share p)
          (resolvableCites frame.claim claims frame.path).length cited.2) =
        (List.range (resolvableCites frame.claim claims frame.path).length).map
          (portionAt (upstreamOf frame.share p)
            (resolvableCites frame.claim claims frame.path).length) := by
      rw [List.range_eq_range', ← List.zipIdx_map_snd, List.map_map]
      rfl
    rw [Nat.max_eq_left hlength, sum_children hsome, hpositions,
      sum_portionAt hlength (lt_of_le_of_lt hle h.share_lt)]
    exact Nat.sub_add_cancel hle

end Frame

/-! ## The loop -/

theorem amount_le_total (t : BTreeMap String Nat) (who : String) : t.amount who ≤ t.total := by
  unfold BTreeMap.amount BTreeMap.total BTreeMap.values
  cases hget : t.get? who with
  | none => exact Nat.zero_le _
  | some n => exact List.le_sum_of_mem (List.mem_map_of_mem (BTreeMap.get?_eq_some_iff.mp hget))

/-- Below the largest number no credit saturates. -/
theorem foldl_creditRow (rows : List (String × Nat)) : ∀ t : BTreeMap String Nat,
    t.total + BTreeMap.rowsTotal rows < UInt64.size → rows.foldl creditRow t = t.creditAll rows := by
  induction rows with
  | nil =>
    intro t _
    rfl
  | cons row rows ih =>
    intro t hfits
    rw [BTreeMap.rowsTotal_cons] at hfits
    have hle := amount_le_total t row.1
    have hcredit : creditRow t row = t.credit row.1 row.2 := by
      unfold creditRow BTreeMap.credit
      rw [Nat.min_eq_left (by unfold maxU64; omega)]
    rw [List.foldl_cons, hcredit, BTreeMap.creditAll_cons]
    refine ih _ ?_
    rw [BTreeMap.total_credit]
    omega

/-- The rows the loop credits, from a frame on the stack alone. -/
def flowRows (claims : BTreeMap String Claim) (p : FlowParams) (frame : Frame) :
    List (String × Nat) :=
  WorkStack.rows (Frame.turn claims p) (frame.rank claims + 1) frame

section Loop

variable {claims : BTreeMap String Claim} {p : FlowParams} {root : String} {frame : Frame}

theorem rowsTotal_flowRows (h : frame.Standing claims p root) :
    BTreeMap.rowsTotal (flowRows claims p frame) = frame.share :=
  WorkStack.sum_rows Frame.ranked (fun _ hframe => Frame.weigh hframe) _ h (Nat.lt_succ_self _)

/-- The loop ends once it has more turns than rows, and credits them all. -/
theorem flowLoop_eq (h : frame.Standing claims p root) {turns : Nat}
    (hturns : (flowRows claims p frame).length < turns) :
    flowLoop claims p turns [frame] .empty = some (BTreeMap.tally (flowRows claims p frame)) := by
  have hbelow : ∀ item ∈ [frame], item.Standing claims p root ∧
      item.rank claims < frame.rank claims + 1 := by
    intro item hitem
    rw [List.mem_singleton.mp hitem]
    exact ⟨h, Nat.lt_succ_self _⟩
  have hrun : WorkStack.run (Frame.turn claims p) creditRow turns [frame] BTreeMap.empty = _ :=
    WorkStack.run_eq Frame.ranked hbelow (by simpa [flowRows] using hturns) BTreeMap.empty
  unfold flowLoop
  rw [hrun]
  simp only [List.flatMap_cons, List.flatMap_nil, List.append_nil, Option.some.injEq]
  refine foldl_creditRow _ _ ?_
  have htotal := rowsTotal_flowRows h
  unfold flowRows at htotal
  rw [BTreeMap.total_empty, htotal, Nat.zero_add]
  exact h.share_lt

/-- Every row goes to the submitter of a claim within the depth. -/
theorem flowRows_hops (h : frame.Standing claims p root) :
    ∀ row ∈ flowRows claims p frame, ∃ n id claim, n ≤ p.maxDepth.toNat ∧
      Hops claims root n id ∧ claims.get? id = some claim ∧ claim.submitter = row.1 := by
  refine WorkStack.forall_rows (Frame.ranked (p := p)) ?_ _ h
  intro item hitem
  refine ⟨item.depth, item.id, item.claim, hitem.depth_le, hitem.hops, hitem.here, ?_⟩
  unfold Frame.turn
  dsimp only
  split_ifs <;> rfl

end Loop

theorem standing_root {claims : BTreeMap String Claim} {claimId : String} {root : Claim}
    (h : claims.get? claimId = some root) (amount : UInt64) (p : FlowParams) :
    (rootFrame claimId root amount).Standing claims p claimId :=
  ⟨h, amount.toNat_lt, Nat.zero_le _, .here⟩

/-- From a claim of the map, on any graph: the loop ends, what it has paid out
is the amount so that the backstop adds nothing, and whoever is paid submitted
a claim within the depth. -/
theorem flow_conserves {claims : BTreeMap String Claim} {claimId : String}
    (hclaim : (claims.get? claimId).isSome) (amount : UInt64) (p : FlowParams) :
    ∃ turns payouts, (∀ more, turns ≤ more → flow more claimId amount claims p = some payouts) ∧
      payouts.total = amount.toNat ∧
      (∀ root, claims.get? claimId = some root → amount ≠ 0 →
        flowLoop claims p turns [rootFrame claimId root amount] .empty = some payouts) ∧
      ∀ who, 0 < payouts.amount who → ∃ n id claim, n ≤ p.maxDepth.toNat ∧
        Hops claims claimId n id ∧ claims.get? id = some claim ∧ claim.submitter = who := by
  obtain ⟨root, hroot⟩ := Option.isSome_iff_exists.mp hclaim
  by_cases hzero : amount = 0
  · refine ⟨0, .empty, fun more _ => if_pos hzero, by simp [hzero], ?_, by simp⟩
    exact fun _ _ hne => absurd hzero hne
  have hstanding := standing_root hroot amount p
  refine ⟨(flowRows claims p (rootFrame claimId root amount)).length + 1,
    BTreeMap.tally (flowRows claims p (rootFrame claimId root amount)), ?_, ?_, ?_, ?_⟩
  · intro more hmore
    unfold flow
    rw [if_neg hzero, hroot]
    dsimp only
    rw [flowLoop_eq hstanding (by omega), Option.map_some, backstop,
      BTreeMap.total_tally, rowsTotal_flowRows hstanding]
    exact congrArg some (if_neg fun h => absurd h.2 (Nat.lt_irrefl _))
  · rw [BTreeMap.total_tally, rowsTotal_flowRows hstanding]
    rfl
  · intro root' hroot' _
    obtain rfl : root' = root := by
      rw [hroot] at hroot'
      exact (Option.some.inj hroot').symm
    exact flowLoop_eq hstanding (Nat.lt_succ_self _)
  · intro who hpaid
    rw [BTreeMap.amount_tally] at hpaid
    have hrow : ∃ row ∈ flowRows claims p (rootFrame claimId root amount), row.1 = who := by
      by_contra hnone
      push Not at hnone
      rw [BTreeMap.rowsAt_of_not_mem hnone] at hpaid
      omega
    obtain ⟨row, hmem, rfl⟩ := hrow
    exact flowRows_hops hstanding row hmem

theorem flow_conserves_sample : ∃ turns payouts,
    (∀ more, turns ≤ more → flow more "a" 100 sampleWorks .default = some payouts) ∧
      payouts.total = 100 := by
  obtain ⟨turns, payouts, hflow, htotal, -⟩ :=
    @flow_conserves sampleWorks "a" (by decide) 100 .default
  exact ⟨turns, payouts, hflow, htotal⟩

/-- The circle is walked once, the self-citation too. -/
example : (flow 20 "a" 100 sampleWorks .default).map BTreeMap.entries =
    some [("alice", 85), ("bob", 15)] := by
  decide

end Attribution

end Cairn.Ports
