import Mathlib.Data.Finset.Max
import Mathlib.Data.List.Sort
import Mathlib.Data.Set.Finite.Lemmas

/-!
# The greatest elements of a finite set

`topK k s` keeps the elements of `s` that fewer than `k` others exceed.
Dropping the rest early changes no later answer: a set that lies between the
greatest `k` elements and the whole has the same greatest `k` elements.
-/

namespace Cairn.Verified

universe u

variable {α : Type u} [LinearOrder α]

/-- The elements that fewer than `k` others exceed. -/
def topK (k : Nat) (s : Finset α) : Finset α :=
  s.filter fun x => (s.filter fun y => x < y).card < k

variable {k : Nat} {s : Finset α} {x : α}

theorem mem_topK :
    x ∈ topK k s ↔ x ∈ s ∧ (s.filter fun y => x < y).card < k := Finset.mem_filter

theorem topK_subset (k : Nat) (s : Finset α) : topK k s ⊆ s := Finset.filter_subset _ _

/-- What a larger set keeps, a smaller one that has it keeps too. -/
theorem mem_topK_of_subset {k' : Nat} {t : Finset α} (hk : k ≤ k') (hst : s ⊆ t) (hx : x ∈ topK k t)
    (hxs : x ∈ s) : x ∈ topK k' s := by
  rw [mem_topK] at hx ⊢
  have hle : (s.filter fun y => x < y).card ≤ (t.filter fun y => x < y).card :=
    Finset.card_le_card (Finset.filter_subset_filter _ hst)
  exact ⟨hxs, by omega⟩

/-- A set that fits is kept whole. -/
theorem topK_of_card_le (h : s.card ≤ k) : topK k s = s := by
  apply Finset.filter_true_of_mem
  intro x hx
  have hlt : (s.filter fun y => x < y).card < s.card := by
    apply Finset.card_lt_card
    rw [Finset.filter_ssubset]
    exact ⟨x, hx, lt_irrefl x⟩
  omega

/-- Above an element that is exceeded often, enough is kept. -/
theorem le_card_topK_above (h : k ≤ (s.filter fun y => x < y).card) :
    k ≤ ((topK k s).filter fun y => x < y).card := by
  by_contra hlt
  rw [not_le] at hlt
  -- the greatest of the elements above `x` that were dropped is exceeded only by kept ones
  have hne : ((s.filter fun y => x < y) \ ((topK k s).filter fun y => x < y)).Nonempty := by
    rw [Finset.nonempty_iff_ne_empty, Ne, Finset.sdiff_eq_empty_iff_subset]
    intro hsub
    have hcard := Finset.card_le_card hsub
    omega
  obtain ⟨m, hm, hmax⟩ := Finset.exists_max_image _ id hne
  rw [Finset.mem_sdiff, Finset.mem_filter, Finset.mem_filter] at hm
  obtain ⟨⟨hms, hxm⟩, hdropped⟩ := hm
  have hsub : (s.filter fun y => m < y) ⊆ (topK k s).filter fun y => x < y := by
    intro z hz
    rw [Finset.mem_filter] at hz
    by_contra hnot
    have hzm := hmax z (by
      rw [Finset.mem_sdiff, Finset.mem_filter]
      exact ⟨⟨hz.1, hxm.trans hz.2⟩, hnot⟩)
    exact absurd hz.2 (not_lt.mpr hzm)
  have hcard := Finset.card_le_card hsub
  exact hdropped ⟨mem_topK.mpr ⟨hms, by omega⟩, hxm⟩

/-- Dropping early is safe. -/
theorem topK_eq_of_between {t : Finset α} (hkept : topK k t ⊆ s) (hst : s ⊆ t) :
    topK k s = topK k t := by
  ext x
  constructor
  · intro hx
    rw [mem_topK] at hx ⊢
    refine ⟨hst hx.1, ?_⟩
    by_contra hmany
    rw [not_lt] at hmany
    have habove := le_card_topK_above hmany
    have hcard : ((topK k t).filter fun y => x < y).card ≤ (s.filter fun y => x < y).card :=
      Finset.card_le_card (Finset.filter_subset_filter _ hkept)
    omega
  · intro hx
    exact mem_topK_of_subset le_rfl hst hx (hkept hx)

/-! ## Descending lists -/

theorem mem_take_iff {l : List α} (h : l.Pairwise fun a b => b < a) :
    x ∈ l.take k ↔ x ∈ topK k l.toFinset := by
  rw [mem_topK, List.mem_toFinset]
  induction l generalizing k with
  | nil => simp
  | cons a l ih =>
    rw [List.pairwise_cons] at h
    have hfresh : a ∉ l := fun ha => lt_irrefl a (h.1 a ha)
    cases k with
    | zero => simp
    | succ k =>
      rw [List.take_succ_cons, List.mem_cons, List.mem_cons]
      by_cases hxa : x = a
      · subst hxa
        have hnone : (((x :: l).toFinset).filter fun y => x < y) = ∅ := by
          rw [Finset.filter_eq_empty_iff]
          intro y hy
          rw [List.mem_toFinset, List.mem_cons] at hy
          obtain rfl | hy := hy
          · exact lt_irrefl _
          · exact not_lt.mpr (h.1 y hy).le
        simp only [hnone, Finset.card_empty]
        simp
      · have hstep : x ∈ l → (((a :: l).toFinset).filter fun y => x < y).card =
            (l.toFinset.filter fun y => x < y).card + 1 := by
          intro hx
          rw [List.toFinset_cons, Finset.filter_insert, if_pos (h.1 x hx),
            Finset.card_insert_of_notMem (by simp [hfresh])]
        have hrest := ih h.2 (k := k)
        simp only [hxa, false_or]
        rw [hrest]
        constructor
        · rintro ⟨hx, hlt⟩
          exact ⟨hx, by rw [hstep hx]; omega⟩
        · rintro ⟨hx, hlt⟩
          rw [hstep hx] at hlt
          exact ⟨hx, by omega⟩

/-! ## Retention

Elements come in copies: those of one rank, told apart by a tag. A store that
keeps, in every cell, the copy with the least tag of each of the greatest `k`
ranks is determined by what it has seen. -/

section Retention

variable {β : Type u} {τ ι : Type} [LinearOrder τ] [DecidableEq ι]
variable (rank : β → α) (tag : β → τ) (cell : β → ι)

/-- The ranks seen in a cell. -/
def ranksIn (s : List β) (i : ι) : Finset α := ((s.filter fun a => cell a = i).map rank).toFinset

/-- No copy has a smaller tag. -/
def Least (s : List β) (a : β) : Prop := a ∈ s ∧ ∀ b ∈ s, rank b = rank a → tag a ≤ tag b

/-- The copy with the least tag of one of the greatest `k` ranks of its cell. -/
def Retained (k : Nat) (s : List β) (a : β) : Prop :=
  Least rank tag s a ∧ rank a ∈ topK k (ranksIn rank cell s (cell a))

variable {rank : β → α} {tag : β → τ} {cell : β → ι}

variable {s t : List β} {a : β}

omit [LinearOrder τ] in
theorem mem_ranksIn {i : ι} {r : α} :
    r ∈ ranksIn rank cell s i ↔ ∃ a ∈ s, cell a = i ∧ rank a = r := by
  simp [ranksIn, and_assoc]

omit [LinearOrder τ] in
theorem ranksIn_mono (h : s ⊆ t) (i : ι) : ranksIn rank cell s i ⊆ ranksIn rank cell t i := by
  intro r hr
  obtain ⟨a, ha, hrest⟩ := mem_ranksIn.mp hr
  exact mem_ranksIn.mpr ⟨a, h ha, hrest⟩

omit [LinearOrder α] [DecidableEq ι] in
theorem exists_least {s : List β} {a : β} (h : a ∈ s) :
    ∃ b, Least rank tag s b ∧ rank b = rank a := by
  have hfinite : {b | b ∈ s ∧ rank b = rank a}.Finite :=
    s.finite_toSet.subset fun b hb => hb.1
  obtain ⟨b, ⟨hmem, hrank⟩, hmin⟩ := Set.exists_min_image _ tag hfinite ⟨a, h, rfl⟩
  refine ⟨b, ⟨hmem, ?_⟩, hrank⟩
  intro c hc hcb
  exact hmin c ⟨hc, hcb.trans hrank⟩

omit [LinearOrder α] [DecidableEq ι] in
theorem Least.of_subset (h : Least rank tag t a) (hst : s ⊆ t) (ha : a ∈ s) : Least rank tag s a :=
  ⟨ha, fun b hb => h.2 b (hst hb)⟩

omit [LinearOrder α] [DecidableEq ι] in
theorem Least.tag_eq {b : β} (ha : Least rank tag s a) (hb : Least rank tag s b)
    (h : rank a = rank b) : tag a = tag b :=
  le_antisymm (ha.2 b hb.1 h.symm) (hb.2 a ha.1 h)

omit [LinearOrder α] [DecidableEq ι] in
theorem least_cons_of_ne {b : β} (h : rank b ≠ rank a) :
    Least rank tag (a :: s) b ↔ Least rank tag s b := by
  have hne : b ≠ a := fun heq => h (by rw [heq])
  unfold Least
  simp only [List.mem_cons, hne, false_or, forall_eq_or_imp, and_congr_right_iff,
    and_iff_right_iff_imp]
  exact fun _ _ hrank => absurd hrank.symm h

/-- What is retained of more with less room is retained of less with more. -/
theorem Retained.of_subset {k k' : Nat} (h : Retained rank tag cell k t a) (hk : k ≤ k')
    (hst : s ⊆ t) (ha : a ∈ s) : Retained rank tag cell k' s a :=
  ⟨h.1.of_subset hst ha,
    mem_topK_of_subset hk (ranksIn_mono hst _) h.2 (mem_ranksIn.mpr ⟨a, ha, rfl, rfl⟩)⟩

/-- Dropping what is not retained changes nothing that is retained. -/
theorem retained_iff_of_between {k : Nat}
    (hcell : ∀ a ∈ t, ∀ b ∈ t, rank a = rank b → cell a = cell b) (hst : s ⊆ t)
    (hkept : ∀ a, Retained rank tag cell k t a → a ∈ s) :
    Retained rank tag cell k s a ↔ Retained rank tag cell k t a := by
  -- the least copy of a rank that counts is still there
  have hleast : ∀ a ∈ t, rank a ∈ topK k (ranksIn rank cell t (cell a)) →
      ∃ b ∈ s, Least rank tag t b ∧ rank b = rank a ∧ cell b = cell a := by
    intro a ha htop
    obtain ⟨b, hb, hrank⟩ := @exists_least _ _ _ _ rank tag _ _ ha
    have hsame := hcell b hb.1 a ha hrank
    refine ⟨b, hkept b ⟨hb, ?_⟩, hb, hrank, hsame⟩
    rw [hrank, hsame]
    exact htop
  have htop : ∀ i, topK k (ranksIn rank cell s i) = topK k (ranksIn rank cell t i) := by
    intro i
    apply topK_eq_of_between _ (ranksIn_mono hst i)
    intro r hr
    obtain ⟨a, ha, rfl, rfl⟩ := mem_ranksIn.mp (topK_subset _ _ hr)
    obtain ⟨b, hb, -, hrank, hsame⟩ := hleast a ha hr
    exact mem_ranksIn.mpr ⟨b, hb, hsame, hrank⟩
  constructor
  · rintro ⟨⟨ha, hmin⟩, hrank⟩
    rw [htop] at hrank
    obtain ⟨b, hb, hbleast, hba, -⟩ := hleast a (hst ha) hrank
    refine ⟨⟨hst ha, ?_⟩, hrank⟩
    intro c hc hca
    exact (hmin b hb hba).trans (hbleast.2 c hc (hca.trans hba.symm))
  · intro h
    exact h.of_subset le_rfl hst (hkept a h)

end Retention

end Cairn.Verified
