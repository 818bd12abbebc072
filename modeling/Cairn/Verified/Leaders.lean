import Mathlib.Data.List.Dedup
import Mathlib.Data.List.Sort
import Mathlib.Order.MinMax

/-!
# The greatest values by name

Values come in under names, and the greatest `k` names are kept, each with the
greatest value it came with. A name that is not kept was never worth more than
what is kept, so it may come back later without having been remembered: what is
kept depends on what came in, not on the order.
-/

namespace Cairn.Verified.Leaders

variable {ι ν : Type*} [LinearOrder ν]

/-- The greatest value that came under its name. -/
def Greatest (came : List (ι × ν)) (p : ι × ν) : Prop :=
  p ∈ came ∧ ∀ q ∈ came, q.1 = p.1 → q.2 ≤ p.2

/-- What is kept are the greatest values of at most `k` names, and everything
else is worth no more. -/
structure Leading (k : Nat) (came kept : List (ι × ν)) : Prop where
  nodup : (kept.map Prod.fst).Nodup
  greatest : ∀ p ∈ kept, Greatest came p
  length : kept.length ≤ k
  rest : ∀ q ∈ came, q.1 ∈ kept.map Prod.fst ∨ kept.length = k ∧ ∀ p ∈ kept, q.2 ≤ p.2

variable {k : Nat} {came kept kept' : List (ι × ν)} {i : ι} {v : ν}

theorem leading_nil : Leading k ([] : List (ι × ν)) [] where
  nodup := List.nodup_nil
  greatest p hp := by cases hp
  length := Nat.zero_le k
  rest q hq := by cases hq

theorem Greatest.append_of_ne {p : ι × ν} (h : Greatest came p) (hne : i ≠ p.1) :
    Greatest (came ++ [(i, v)]) p := by
  refine ⟨List.mem_append_left _ h.1, fun q hq heq => ?_⟩
  rcases List.mem_append.mp hq with hq | hq
  · exact h.2 q hq heq
  · rw [List.mem_singleton.mp hq] at heq
    exact absurd heq hne

/-- A kept name is worth the greater of what it was and what comes. -/
theorem Leading.update (h : Leading k came kept) (hids : kept'.map Prod.fst = kept.map Prod.fst)
    (hi : i ∈ kept.map Prod.fst)
    (hmem : ∀ p ∈ kept', p ∈ kept ∧ p.1 ≠ i ∨ ∃ old, (i, old) ∈ kept ∧ p = (i, max old v)) :
    Leading k (came ++ [(i, v)]) kept' := by
  have hlength : kept'.length = kept.length := by
    rw [← List.length_map (f := Prod.fst), hids, List.length_map]
  -- nothing that is kept loses value
  have hmono : ∀ p ∈ kept', ∃ old ∈ kept, old.2 ≤ p.2 := by
    intro p hp
    rcases hmem p hp with ⟨hold, -⟩ | ⟨old, hold, rfl⟩
    · exact ⟨p, hold, le_refl _⟩
    · exact ⟨(i, old), hold, le_max_left _ _⟩
  refine ⟨hids ▸ h.nodup, fun p hp => ?_, hlength ▸ h.length, fun q hq => ?_⟩
  · rcases hmem p hp with ⟨hold, hne⟩ | ⟨old, hold, rfl⟩
    · exact (h.greatest p hold).append_of_ne (Ne.symm hne)
    · obtain ⟨hcame, hgreatest⟩ := h.greatest _ hold
      constructor
      · rcases le_total old v with hle | hle
        · rw [max_eq_right hle]
          exact List.mem_append_right _ (List.mem_singleton_self _)
        · rw [max_eq_left hle]
          exact List.mem_append_left _ hcame
      · intro q hq heq
        rcases List.mem_append.mp hq with hq | hq
        · exact (hgreatest q hq heq).trans (le_max_left _ _)
        · rw [List.mem_singleton.mp hq]
          exact le_max_right _ _
  · rw [hids, hlength]
    rcases List.mem_append.mp hq with hq | hq
    · refine (h.rest q hq).imp_right fun ⟨hfull, hle⟩ => ⟨hfull, fun p hp => ?_⟩
      obtain ⟨old, hold, hless⟩ := hmono p hp
      exact (hle old hold).trans hless
    · rw [List.mem_singleton.mp hq]
      exact .inl hi

/-- A new name where there is room. -/
theorem Leading.add (h : Leading k came kept) (hi : i ∉ kept.map Prod.fst)
    (hroom : kept.length < k) : Leading k (came ++ [(i, v)]) (kept ++ [(i, v)]) := by
  have hall : ∀ q ∈ came, q.1 ∈ kept.map Prod.fst := fun q hq =>
    (h.rest q hq).resolve_right fun hfull => absurd hfull.1 hroom.ne
  refine ⟨?_, fun p hp => ?_, ?_, fun q hq => ?_⟩
  · rw [List.map_append]
    exact h.nodup.append (List.nodup_singleton i) (List.disjoint_singleton.mpr hi)
  · rcases List.mem_append.mp hp with hp | hp
    · exact (h.greatest p hp).append_of_ne fun heq => hi (heq ▸ List.mem_map_of_mem hp)
    · rw [List.mem_singleton.mp hp]
      refine ⟨List.mem_append_right _ (List.mem_singleton_self _), fun q hq heq => ?_⟩
      rcases List.mem_append.mp hq with hq | hq
      · have hin : i ∈ kept.map Prod.fst := by
          rw [← show q.1 = i from heq]
          exact hall q hq
        exact absurd hin hi
      · rw [List.mem_singleton.mp hq]
  · rw [List.length_append, List.length_singleton]
    exact hroom
  · refine .inl ?_
    rw [List.map_append]
    rcases List.mem_append.mp hq with hq | hq
    · exact List.mem_append_left _ (hall q hq)
    · exact List.mem_append_right _ (List.mem_map_of_mem hq)

/-- A new name in the place of the least. -/
theorem Leading.replace {before after : List (ι × ν)} {least : ι × ν}
    (h : Leading k came (before ++ least :: after))
    (hi : i ∉ (before ++ least :: after).map Prod.fst)
    (hfull : (before ++ least :: after).length = k)
    (hleast : ∀ p ∈ before ++ least :: after, least.2 ≤ p.2) (hlt : least.2 < v) :
    Leading k (came ++ [(i, v)]) (before ++ after ++ [(i, v)]) := by
  have hsub : ∀ p ∈ before ++ after, p ∈ before ++ least :: after := fun p hp =>
    (List.sublist_cons_self least after).append_left before |>.subset hp
  have hkept : least ∈ before ++ least :: after := by simp
  -- whatever comes under a name that is not kept is below the least
  have hbelow : ∀ q ∈ came, q.1 ∉ (before ++ after).map Prod.fst → q.2 ≤ least.2 := by
    intro q hq hout
    rcases h.rest q hq with hin | ⟨-, hle⟩
    · obtain ⟨p, hp, heq⟩ := List.mem_map.mp hin
      rw [List.mem_append, List.mem_cons] at hp
      rcases hp with hp | rfl | hp
      · exact absurd (heq ▸ List.mem_map_of_mem (List.mem_append_left _ hp)) hout
      · exact (h.greatest p hkept).2 q hq heq.symm
      · exact absurd (heq ▸ List.mem_map_of_mem (List.mem_append_right _ hp)) hout
    · exact hle _ hkept
  have hi' : i ∉ (before ++ after).map Prod.fst := fun hmem => by
    obtain ⟨p, hp, heq⟩ := List.mem_map.mp hmem
    exact hi (heq ▸ List.mem_map_of_mem (hsub p hp))
  have hlength : (before ++ after ++ [(i, v)]).length = k := by
    simp only [List.length_append, List.length_cons, List.length_nil] at hfull ⊢
    omega
  refine ⟨?_, fun p hp => ?_, hlength.le, fun q hq => ?_⟩
  · have hnodup := h.nodup.sublist
      (((List.sublist_cons_self least after).append_left before).map Prod.fst)
    rw [List.map_append]
    exact hnodup.append (List.nodup_singleton i) (List.disjoint_singleton.mpr hi')
  · rcases List.mem_append.mp hp with hp | hp
    · exact (h.greatest p (hsub p hp)).append_of_ne fun heq => hi' (heq ▸ List.mem_map_of_mem hp)
    · rw [List.mem_singleton.mp hp]
      refine ⟨List.mem_append_right _ (List.mem_singleton_self _), fun q hq heq => ?_⟩
      rcases List.mem_append.mp hq with hq | hq
      · have hout : q.1 ∉ (before ++ after).map Prod.fst := by
          rw [show q.1 = i from heq]
          exact hi'
        exact (hbelow q hq hout).trans hlt.le
      · rw [List.mem_singleton.mp hq]
  · rw [List.map_append]
    rcases List.mem_append.mp hq with hq | hq
    · by_cases hin : q.1 ∈ (before ++ after).map Prod.fst
      · exact .inl (List.mem_append_left _ hin)
      · refine .inr ⟨hlength, fun p hp => ?_⟩
        have hle := hbelow q hq hin
        rcases List.mem_append.mp hp with hp | hp
        · exact hle.trans (hleast p (hsub p hp))
        · rw [List.mem_singleton.mp hp]
          exact hle.trans hlt.le
    · exact .inl (List.mem_append_right _ (List.mem_map_of_mem hq))

/-- A new name that is worth no more than the least. -/
theorem Leading.refuse (h : Leading k came kept) (hi : i ∉ kept.map Prod.fst)
    (hfull : kept.length = k) (hle : ∀ p ∈ kept, v ≤ p.2) :
    Leading k (came ++ [(i, v)]) kept := by
  refine ⟨h.nodup, fun p hp => ?_, h.length, fun q hq => ?_⟩
  · exact (h.greatest p hp).append_of_ne fun heq => hi (heq ▸ List.mem_map_of_mem hp)
  · rcases List.mem_append.mp hq with hq | hq
    · exact h.rest q hq
    · rw [List.mem_singleton.mp hq]
      exact .inr ⟨hfull, hle⟩

/-! ## What is kept in the end -/

variable [DecidableEq ι]

/-- The greatest value that came under a name. -/
def lead (came : List (ι × ν)) (i : ι) : Option ν :=
  ((came.filter fun q => q.1 = i).map Prod.snd).max?

/-- The greatest value of each name. -/
def maxima (came : List (ι × ν)) : List ν := (came.map Prod.fst).dedup.filterMap (lead came)

/-- The `n` largest values, counted as often as they occur. -/
def largest (n : Nat) (values : List ν) : List ν :=
  (values.mergeSort fun a b => decide (b ≤ a)).take n

instance lawfulOrderMax : Std.LawfulOrderMax ν := .of_max_le_iff (fun _ _ _ => max_le_iff) max_choice

theorem lead_eq_some_iff : lead came i = some v ↔ Greatest came (i, v) := by
  rw [lead, List.max?_eq_some_iff]
  constructor
  · rintro ⟨hmem, hle⟩
    obtain ⟨⟨j, w⟩, hq, rfl⟩ := List.mem_map.mp hmem
    obtain ⟨hcame, hname⟩ := List.mem_filter.mp hq
    obtain rfl : j = i := of_decide_eq_true hname
    exact ⟨hcame, fun q hq heq => hle q.2
      (List.mem_map_of_mem (List.mem_filter.mpr ⟨hq, decide_eq_true heq⟩))⟩
  · rintro ⟨hcame, hle⟩
    refine ⟨List.mem_map_of_mem (f := Prod.snd) (List.mem_filter.mpr ⟨hcame, decide_eq_true rfl⟩),
      fun w hw => ?_⟩
    obtain ⟨q, hq, rfl⟩ := List.mem_map.mp hw
    obtain ⟨hcame, hname⟩ := List.mem_filter.mp hq
    exact hle q hcame (of_decide_eq_true hname)

/-- The names that came are those that are kept, and others. -/
theorem Leading.perm_names (h : Leading k came kept) :
    (came.map Prod.fst).dedup.Perm (kept.map Prod.fst ++
      (came.map Prod.fst).dedup.filter fun i => i ∉ kept.map Prod.fst) := by
  have hkept : (kept.map Prod.fst).Perm
      ((came.map Prod.fst).dedup.filter fun i => i ∈ kept.map Prod.fst) := by
    rw [List.perm_ext_iff_of_nodup h.nodup ((List.nodup_dedup _).filter _)]
    intro i
    rw [List.mem_filter, List.mem_dedup, decide_eq_true_iff]
    refine ⟨fun hi => ⟨?_, hi⟩, fun hi => hi.2⟩
    obtain ⟨p, hp, rfl⟩ := List.mem_map.mp hi
    exact List.mem_map_of_mem (h.greatest p hp).1
  have hsplit := List.filter_append_perm (fun i => decide (i ∈ kept.map Prod.fst))
    (came.map Prod.fst).dedup
  simp only [← decide_not] at hsplit
  exact hsplit.symm.trans (hkept.symm.append_right _)

theorem Leading.filterMap_lead (h : Leading k came kept) :
    (kept.map Prod.fst).filterMap (lead came) = kept.map Prod.snd := by
  rw [List.filterMap_map, ← List.filterMap_eq_map]
  exact List.filterMap_congr fun p hp => lead_eq_some_iff.mpr (h.greatest p hp)

theorem perm_mergeSort (l : List ν) : (l.mergeSort fun a b => decide (b ≤ a)).Perm l :=
  List.mergeSort_perm l _

theorem pairwise_mergeSort (l : List ν) :
    (l.mergeSort fun a b => decide (b ≤ a)).Pairwise fun a b => b ≤ a := by
  have h := @List.pairwise_mergeSort _ (fun a b : ν => decide (b ≤ a))
    (fun a b c hab hbc => by
      simp only [decide_eq_true_eq] at *
      exact hbc.trans hab)
    (fun a b => by
      simp only [Bool.or_eq_true, decide_eq_true_eq]
      exact le_total b a) l
  simpa only [decide_eq_true_eq] using h

/-- A descending list is the sorted one of its values. -/
theorem mergeSort_eq_of_perm {l l' : List ν} (hperm : l.Perm l')
    (hl' : l'.Pairwise fun a b => b ≤ a) : l.mergeSort (fun a b => decide (b ≤ a)) = l' :=
  List.Perm.eq_of_pairwise (fun _ _ _ _ hab hba => le_antisymm hba hab) (pairwise_mergeSort l) hl'
    ((perm_mergeSort l).trans hperm)

theorem largest_perm {l l' : List ν} (h : l.Perm l') (n : Nat) : largest n l = largest n l' := by
  rw [largest, largest,
    mergeSort_eq_of_perm (h.trans (perm_mergeSort l').symm) (pairwise_mergeSort l')]

/-- Values that are no less than all others are the largest, if they are enough. -/
theorem perm_largest_append {top low : List ν} (hlength : top.length ≤ k)
    (hfull : low ≠ [] → top.length = k) (hle : ∀ a ∈ top, ∀ b ∈ low, b ≤ a) :
    top.Perm (largest k (top ++ low)) := by
  have heq : (top ++ low).mergeSort (fun a b => decide (b ≤ a)) =
      top.mergeSort (fun a b => decide (b ≤ a)) ++ low.mergeSort (fun a b => decide (b ≤ a)) := by
    refine mergeSort_eq_of_perm ((perm_mergeSort top).symm.append (perm_mergeSort low).symm) ?_
    refine List.pairwise_append.mpr
      ⟨pairwise_mergeSort top, pairwise_mergeSort low, fun a ha b hb => ?_⟩
    exact hle a ((perm_mergeSort top).mem_iff.mp ha) b ((perm_mergeSort low).mem_iff.mp hb)
  rw [largest, heq]
  by_cases hlow : low = []
  · rw [hlow, List.mergeSort_nil, List.append_nil,
      List.take_of_length_le (by rwa [List.length_mergeSort])]
    exact (perm_mergeSort top).symm
  · have hsize : (top.mergeSort fun a b => decide (b ≤ a)).length = k := by
      rw [List.length_mergeSort, hfull hlow]
    rw [← hsize, List.take_left]
    exact (perm_mergeSort top).symm

/-- The kept values are the largest of the names' maxima. -/
theorem Leading.perm_largest (h : Leading k came kept) :
    (kept.map Prod.snd).Perm (largest k (maxima came)) := by
  have hlow : ∀ v ∈ ((came.map Prod.fst).dedup.filter
      fun i => i ∉ kept.map Prod.fst).filterMap (lead came),
      ∃ q ∈ came, q.1 ∉ kept.map Prod.fst ∧ q.2 = v := by
    intro v hv
    obtain ⟨i, hi, hlead⟩ := List.mem_filterMap.mp hv
    exact ⟨(i, v), (lead_eq_some_iff.mp hlead).1, of_decide_eq_true (List.mem_filter.mp hi).2, rfl⟩
  have hmaxima := h.perm_names.filterMap (lead came)
  rw [List.filterMap_append, h.filterMap_lead] at hmaxima
  have hsame : largest k (maxima came) = largest k (kept.map Prod.snd ++
      ((came.map Prod.fst).dedup.filter fun i => i ∉ kept.map Prod.fst).filterMap (lead came)) :=
    largest_perm hmaxima k
  rw [hsame]
  refine perm_largest_append (by rw [List.length_map]; exact h.length) (fun hne => ?_)
    fun a ha b hb => ?_
  · obtain ⟨v, hv⟩ := List.exists_mem_of_ne_nil _ hne
    obtain ⟨q, hq, hout, -⟩ := hlow v hv
    rw [List.length_map]
    exact ((h.rest q hq).resolve_left hout).1
  · obtain ⟨p, hp, rfl⟩ := List.mem_map.mp ha
    obtain ⟨q, hq, hout, rfl⟩ := hlow b hb
    exact ((h.rest q hq).resolve_left hout).2 p hp

variable {came' : List (ι × ν)}

theorem lead_perm (h : came.Perm came') (i : ι) :
    lead came i = lead came' i := by
  refine Option.ext fun v => ?_
  rw [lead_eq_some_iff, lead_eq_some_iff, Greatest, Greatest, h.mem_iff]
  simp only [h.mem_iff]

theorem maxima_perm (h : came.Perm came') :
    (maxima came).Perm (maxima came') := by
  have hlead : lead came = lead came' := funext (lead_perm h)
  rw [maxima, maxima, hlead]
  exact ((h.map Prod.fst).dedup).filterMap _

/-- A name that is kept is kept also when the values come in another order, if no
two of them are equal. -/
theorem Leading.mem_names_of_perm (h : Leading k came kept)
    (h' : Leading k came' kept') (hperm : came.Perm came') (hnodup : (came.map Prod.snd).Nodup)
    {i : ι} (hi : i ∈ kept.map Prod.fst) : i ∈ kept'.map Prod.fst := by
  obtain ⟨p, hp, rfl⟩ := List.mem_map.mp hi
  have hvalues : (kept.map Prod.snd).Perm (kept'.map Prod.snd) := by
    have hkept := h.perm_largest
    rw [largest_perm (maxima_perm hperm) k] at hkept
    exact hkept.trans h'.perm_largest.symm
  obtain ⟨q, hq, hvalue⟩ := List.mem_map.mp (hvalues.mem_iff.mp (List.mem_map_of_mem hp))
  have hcame : q ∈ came := hperm.mem_iff.mpr (h'.greatest q hq).1
  obtain rfl := List.inj_on_of_nodup_map hnodup hcame (h.greatest p hp).1 hvalue
  exact List.mem_map_of_mem hq

end Cairn.Verified.Leaders
