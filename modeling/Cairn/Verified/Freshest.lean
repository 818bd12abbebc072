import Mathlib

/-!
# The freshest offer

A place that holds one thing and takes an offer only when it outranks what is
there ends up with the offer of the greatest rank. Where no two offers share a
rank, which offer that is depends on what was offered and not on the order.
-/

namespace Cairn.Verified

universe u v

variable {α : Type u} {β : Type v}

/-- No two offers share a rank. -/
def RanksApart (rank : α → β) (xs : List α) : Prop :=
  ∀ x ∈ xs, ∀ y ∈ xs, rank x = rank y → x = y

theorem RanksApart.mono {rank : α → β} {xs ys : List α} (h : RanksApart rank ys)
    (hsub : ∀ x ∈ xs, x ∈ ys) : RanksApart rank xs :=
  fun x hx y hy => h x (hsub x hx) y (hsub y hy)

variable [LinearOrder β]

/-- Take an offer unless what is held ranks as high. -/
def fresher (rank : α → β) (held : Option α) (x : α) : Option α :=
  match held with
  | none => some x
  | some y => if rank y < rank x then some x else some y

/-- What is held after these offers. -/
def freshest (rank : α → β) (xs : List α) : Option α := xs.foldl (fresher rank) none

variable {rank : α → β} {xs ys : List α} {x y : α}

theorem freshest_concat (xs : List α) (x : α) :
    freshest rank (xs ++ [x]) = fresher rank (freshest rank xs) x := by
  rw [freshest, List.foldl_append]
  rfl

/-- Offering again what is held changes nothing. -/
theorem fresher_self (x : α) : fresher rank (some x) x = some x := if_neg (lt_irrefl _)

theorem fresher_ne_none (held : Option α) (x : α) : fresher rank held x ≠ none := by
  cases held with
  | none => simp [fresher]
  | some y =>
    unfold fresher
    dsimp only
    split <;> simp

theorem freshest_eq_none : freshest rank xs = none ↔ xs = [] := by
  constructor
  · intro h
    induction xs using List.reverseRecOn with
    | nil => rfl
    | append_singleton xs z _ =>
      rw [freshest_concat] at h
      exact absurd h (fresher_ne_none _ z)
  · rintro rfl
    rfl

/-- What is held was offered, and nothing offered outranks it. -/
theorem freshest_spec (h : freshest rank xs = some x) : x ∈ xs ∧ ∀ y ∈ xs, rank y ≤ rank x := by
  induction xs using List.reverseRecOn generalizing x with
  | nil => cases h
  | append_singleton xs z ih =>
    rw [freshest_concat] at h
    cases hheld : freshest rank xs with
    | none =>
      rw [hheld] at h
      rw [freshest_eq_none.mp hheld, show z = x from Option.some.inj h]
      simp
    | some w =>
      rw [hheld] at h
      rcases ih hheld with ⟨hmem, hle⟩
      unfold fresher at h
      dsimp only at h
      split at h
      · rename_i hlt
        rw [← show z = x from Option.some.inj h]
        refine ⟨by simp, fun y hy => ?_⟩
        rcases List.mem_append.mp hy with hy | hy
        · exact (hle y hy).trans hlt.le
        · rw [List.mem_singleton.mp hy]
      · rename_i hge
        rw [← show w = x from Option.some.inj h]
        refine ⟨List.mem_append_left _ hmem, fun y hy => ?_⟩
        rcases List.mem_append.mp hy with hy | hy
        · exact hle y hy
        · rw [List.mem_singleton.mp hy]
          exact not_lt.mp hge

/-- Among offers of different ranks, the one that is held is the greatest. -/
theorem freshest_eq_some_iff (hapart : RanksApart rank xs) :
    freshest rank xs = some x ↔ x ∈ xs ∧ ∀ y ∈ xs, rank y ≤ rank x := by
  refine ⟨freshest_spec, fun ⟨hmem, hle⟩ => ?_⟩
  cases hheld : freshest rank xs with
  | none =>
    rw [freshest_eq_none.mp hheld] at hmem
    cases hmem
  | some w =>
    rcases freshest_spec hheld with ⟨hw, hmax⟩
    rw [hapart w hw x hmem (le_antisymm (hle w hw) (hmax x hmem))]

/-- The order of the offers does not matter, nor how often one is made. -/
theorem freshest_congr (hapart : RanksApart rank xs) (h : ∀ x, x ∈ xs ↔ x ∈ ys) :
    freshest rank xs = freshest rank ys := by
  have hapart' : RanksApart rank ys := hapart.mono fun x hx => (h x).mpr hx
  apply Option.ext
  intro x
  rw [freshest_eq_some_iff hapart, freshest_eq_some_iff hapart', h]
  simp only [h]

/-- Nor does it where only the highest rank is not shared. -/
theorem freshest_congr_of_unique_top
    (hunique : ∀ x ∈ xs, ∀ y ∈ xs, (∀ z ∈ xs, rank z ≤ rank x) → (∀ z ∈ xs, rank z ≤ rank y) →
      x = y)
    (h : ∀ x, x ∈ xs ↔ x ∈ ys) : freshest rank xs = freshest rank ys := by
  cases hx : freshest rank xs with
  | none =>
    rw [freshest_eq_none] at hx
    subst hx
    refine (freshest_eq_none.mpr (List.eq_nil_iff_forall_not_mem.mpr fun x hx => ?_)).symm
    cases (h x).mpr hx
  | some x =>
    obtain ⟨hmem, hle⟩ := freshest_spec hx
    cases hy : freshest rank ys with
    | none =>
      rw [freshest_eq_none.mp hy] at h
      cases (h x).mp hmem
    | some y =>
      obtain ⟨hmem', hle'⟩ := freshest_spec hy
      rw [hunique x hmem y ((h y).mpr hmem') hle fun z hz => hle' z ((h z).mp hz)]

/-- A first offer that nothing outranks stays. -/
theorem freshest_cons_of_top (h : ∀ z ∈ xs, rank z ≤ rank x) :
    freshest rank (x :: xs) = some x := by
  show xs.foldl (fresher rank) (some x) = some x
  induction xs with
  | nil => rfl
  | cons z xs ih =>
    obtain ⟨hz, hxs⟩ := List.forall_mem_cons.mp h
    rw [List.foldl_cons, fresher, if_neg (not_lt.mpr hz)]
    exact ih hxs

/-- A place that is offered what another one holds ends up as if it had heard
everything the other one has. -/
theorem fresher_freshest (hapart : RanksApart rank (xs ++ ys)) (hy : freshest rank ys = some y) :
    fresher rank (freshest rank xs) y = freshest rank (xs ++ ys) := by
  rcases freshest_spec hy with ⟨hmem, hle⟩
  rw [← freshest_concat]
  have hsub : ∀ x ∈ xs ++ [y], x ∈ xs ++ ys := by
    intro x hx
    rcases List.mem_append.mp hx with hx | hx
    · exact List.mem_append_left _ hx
    · rw [List.mem_singleton.mp hx]
      exact List.mem_append_right _ hmem
  apply Option.ext
  intro x
  rw [freshest_eq_some_iff (hapart.mono hsub), freshest_eq_some_iff hapart]
  constructor
  · rintro ⟨hx, hmax⟩
    refine ⟨hsub x hx, fun z hz => ?_⟩
    rcases List.mem_append.mp hz with hz | hz
    · exact hmax z (List.mem_append_left _ hz)
    · exact (hle z hz).trans (hmax y (by simp))
  · rintro ⟨hx, hmax⟩
    refine ⟨?_, fun z hz => hmax z (hsub z hz)⟩
    rcases List.mem_append.mp hx with hx | hx
    · exact List.mem_append_left _ hx
    · have hsame : x = y := hapart x (List.mem_append_right _ hx) y (List.mem_append_right _ hmem)
        (le_antisymm (hle x hx) (hmax y (List.mem_append_right _ hmem)))
      rw [hsame]
      simp

end Cairn.Verified
