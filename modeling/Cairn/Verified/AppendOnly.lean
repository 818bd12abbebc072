import Mathlib.Data.List.Basic
import Mathlib.Data.List.Nodup
import Mathlib.Data.Finset.Card

/-!
# Append-only lists

Where an element of an extended list stands: in the old part, or in the new
one; lists extended by elements of one kind; and lists extended by elements
that are new to them, which a finite stock of elements can do only so often.
-/

namespace Cairn.Verified.AppendOnly

universe u

variable {α : Type u}

/-- An element of `xs ++ ys` with what stands before it. -/
theorem split_append {xs ys before after : List α} {x : α}
    (h : xs ++ ys = before ++ x :: after) :
    (∃ mid, xs = before ++ x :: mid ∧ after = mid ++ ys) ∨
    (∃ mid, before = xs ++ mid ∧ ys = mid ++ x :: after) := by
  rw [List.append_eq_append_iff] at h
  obtain ⟨mid, hbefore, hys⟩ | ⟨mid, hxs, htail⟩ := h
  · exact .inr ⟨mid, hbefore, hys⟩
  · cases mid with
    | nil =>
      rw [List.append_nil] at hxs
      exact .inr ⟨[], by rw [hxs, List.append_nil], htail.symm⟩
    | cons y mid =>
      rw [List.cons_append] at htail
      obtain ⟨rfl, hafter⟩ := List.cons.inj htail
      exact .inl ⟨mid, hxs, hafter⟩

/-- An element of a list extended by one: an old one, or the new one. -/
theorem split_concat {xs before after : List α} {x y : α}
    (h : xs ++ [y] = before ++ x :: after) :
    (∃ mid, xs = before ++ x :: mid) ∨ (before = xs ∧ x = y) := by
  obtain ⟨mid, hxs, -⟩ | ⟨mid, hbefore, hnew⟩ := split_append h
  · exact .inl ⟨mid, hxs⟩
  · cases mid with
    | nil =>
      rw [List.append_nil] at hbefore
      exact .inr ⟨hbefore, (List.cons.inj hnew).1.symm⟩
    | cons z mid => simp at hnew

/-- What the old part has is found there. -/
theorem findIdx_append_lt {p : α → Bool} {xs ys : List α} {x : α} (hx : x ∈ xs) (hp : p x = true) :
    (xs ++ ys).findIdx p < xs.length := by
  have hlt : xs.findIdx p < xs.length := List.findIdx_lt_length_of_exists ⟨x, hx, hp⟩
  rw [List.findIdx_append, if_pos hlt]
  exact hlt

/-- The list up to the first element with a property. -/
theorem exists_split_findIdx {p : α → Bool} {xs : List α} {x : α} (hx : x ∈ xs) (hp : p x = true) :
    ∃ before y after, xs = before ++ y :: after ∧ p y = true ∧ before.length = xs.findIdx p := by
  have hlt : xs.findIdx p < xs.length := List.findIdx_lt_length_of_exists ⟨x, hx, hp⟩
  refine ⟨xs.take (xs.findIdx p), xs.get ⟨xs.findIdx p, hlt⟩, xs.drop (xs.findIdx p + 1), ?_, ?_, ?_⟩
  · rw [List.get_eq_getElem, List.getElem_cons_drop, List.take_append_drop]
  · exact List.findIdx_getElem
  · rw [List.length_take]
    omega

/-! ## Extension by elements of one kind -/

/-- `ys` is `xs` with elements that satisfy `P` appended. -/
def ExtendsBy (P : α → Prop) (xs ys : List α) : Prop := ∃ new, ys = xs ++ new ∧ ∀ x ∈ new, P x

namespace ExtendsBy

variable {P Q : α → Prop} {xs ys zs : List α}

theorem refl (xs : List α) : ExtendsBy P xs xs := ⟨[], by simp, by simp⟩

theorem trans (h : ExtendsBy P xs ys) (h' : ExtendsBy P ys zs) : ExtendsBy P xs zs := by
  obtain ⟨new, rfl, hnew⟩ := h
  obtain ⟨new', rfl, hnew'⟩ := h'
  refine ⟨new ++ new', by rw [List.append_assoc], ?_⟩
  intro x hx
  obtain hx | hx := List.mem_append.mp hx
  · exact hnew x hx
  · exact hnew' x hx

theorem concat (h : ExtendsBy P xs ys) {y : α} (hy : P y) : ExtendsBy P xs (ys ++ [y]) :=
  h.trans ⟨[y], rfl, by simpa using hy⟩

theorem mono (h : ExtendsBy P xs ys) (hPQ : ∀ x, P x → Q x) : ExtendsBy Q xs ys := by
  obtain ⟨new, hys, hnew⟩ := h
  exact ⟨new, hys, fun x hx => hPQ x (hnew x hx)⟩

theorem isPrefix (h : ExtendsBy P xs ys) : xs <+: ys := by
  obtain ⟨new, rfl, -⟩ := h
  exact List.prefix_append _ _

end ExtendsBy

/-! ## Extension by new elements -/

/-- `ys` is `xs` with different elements of `S` appended that `xs` lacks. -/
def GrowsBy (S : Set α) (xs ys : List α) : Prop :=
  ∃ new, ys = xs ++ new ∧ new.Nodup ∧ ∀ x ∈ new, x ∉ xs ∧ x ∈ S

namespace GrowsBy

variable {S : Set α} {xs ys zs : List α}

theorem refl (xs : List α) : GrowsBy S xs xs := ⟨[], by simp, by simp, by simp⟩

theorem concat (h : GrowsBy S xs ys) {y : α} (hnew : y ∉ ys) (hy : y ∈ S) :
    GrowsBy S xs (ys ++ [y]) := by
  rcases h with ⟨new, rfl, hnodup, hfrom⟩
  have hold : y ∉ xs := fun hin => hnew (List.mem_append_left _ hin)
  have hother : y ∉ new := fun hin => hnew (List.mem_append_right _ hin)
  refine ⟨new ++ [y], List.append_assoc .., ?_, ?_⟩
  · rw [List.nodup_append]
    exact ⟨hnodup, List.nodup_singleton y, by
      intro a ha b hb
      rw [List.mem_singleton.mp hb]
      exact fun heq => hother (heq ▸ ha)⟩
  · intro x hx
    rcases List.mem_append.mp hx with hx | hx
    · exact hfrom x hx
    · rw [List.mem_singleton.mp hx]
      exact ⟨hold, hy⟩

theorem trans (h : GrowsBy S xs ys) (h' : GrowsBy S ys zs) : GrowsBy S xs zs := by
  rcases h' with ⟨new, rfl, hnodup, hfrom⟩
  induction new using List.reverseRecOn with
  | nil => simpa using h
  | append_singleton new y ih =>
    rw [List.nodup_append] at hnodup
    have hgrown : GrowsBy S xs (ys ++ new) :=
      ih hnodup.1 fun x hx => hfrom x (List.mem_append_left _ hx)
    have hlast := hfrom y (List.mem_append_right _ (List.mem_singleton_self y))
    rw [← List.append_assoc]
    apply hgrown.concat _ hlast.2
    intro hin
    rcases List.mem_append.mp hin with hin | hin
    · exact hlast.1 hin
    · exact hnodup.2.2 y hin y (List.mem_singleton_self y) rfl

theorem mono {T : Set α} (h : GrowsBy S xs ys) (hST : S ⊆ T) : GrowsBy T xs ys := by
  rcases h with ⟨new, hys, hnodup, hfrom⟩
  exact ⟨new, hys, hnodup, fun x hx => ⟨(hfrom x hx).1, hST (hfrom x hx).2⟩⟩

/-- What a stock can still add, before and after. -/
theorem card_missing {stock : Finset α} [DecidablePred fun x => x ∉ xs]
    [DecidablePred fun x => x ∉ ys] (h : GrowsBy (stock : Set α) xs ys) :
    (ys.length - xs.length) + (stock.filter (· ∉ ys)).card = (stock.filter (· ∉ xs)).card := by
  classical
  rcases h with ⟨new, rfl, hnodup, hfrom⟩
  have hlength : (xs ++ new).length - xs.length = new.toFinset.card := by
    rw [List.toFinset_card_of_nodup hnodup, List.length_append]
    omega
  rw [hlength, ← Finset.card_union_of_disjoint]
  · congr 1
    ext x
    simp only [Finset.mem_union, List.mem_toFinset, Finset.mem_filter, List.mem_append]
    constructor
    · rintro (hx | ⟨hx, hfresh⟩)
      · exact ⟨(hfrom x hx).2, (hfrom x hx).1⟩
      · exact ⟨hx, fun hin => hfresh (.inl hin)⟩
    · rintro ⟨hx, hfresh⟩
      by_cases hin : x ∈ new
      · exact .inl hin
      · exact .inr ⟨hx, fun h => h.elim hfresh hin⟩
  · rw [Finset.disjoint_left]
    intro x hx hmissing
    exact (Finset.mem_filter.mp hmissing).2 (List.mem_append_right _ (List.mem_toFinset.mp hx))

end GrowsBy

end Cairn.Verified.AppendOnly
