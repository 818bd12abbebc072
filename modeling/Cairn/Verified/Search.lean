import Mathlib.Data.List.Dedup
import Mathlib.Logic.Relation
import Mathlib.Tactic.Tauto

/-!
# Search level by level

A search from a root that keeps the nodes it has seen and the frontier it goes
on from. A level that leaves something to visit has seen a new node, so as
many levels as there are nodes finish the search; what it has seen then is
what the root reaches.
-/

namespace Cairn.Verified.Search

universe u

variable {α : Type u} [DecidableEq α]

/-- What a level has seen, and what it leaves for the next. -/
structure State (α : Type u) where
  seen : List α
  next : List α

section Definitions

variable (root : α) (neighbours : α → List α)

/-- Visit one node of the frontier. -/
def visit (s : State α) (x : α) : State α :=
  if x = root ∨ x ∈ s.seen then s
  else
    { seen := x :: s.seen
      next := s.next ++ (neighbours x).filter fun y => y ∉ x :: s.seen }

/-- Visit the frontier. -/
def level (seen frontier : List α) : State α :=
  frontier.foldl (visit root neighbours) { seen, next := [] }

/-- Level by level until nothing is left to visit. -/
def search : Nat → List α → List α → List α
  | 0, seen, _ => seen
  | _ + 1, seen, [] => seen
  | fuel + 1, seen, x :: frontier =>
    let s := level root neighbours seen (x :: frontier)
    search fuel s.seen s.next

/-- What a search knows while `frontier` is left to visit. -/
structure Searching (seen frontier : List α) : Prop where
  reached : ∀ x, x ∈ seen ∨ x ∈ frontier →
    Relation.TransGen (fun a b => b ∈ neighbours a) root x
  unseen : root ∉ seen
  nodup : seen.Nodup
  closed : ∀ x, x = root ∨ x ∈ seen → ∀ y ∈ neighbours x, y = root ∨ y ∈ seen ∨ y ∈ frontier

end Definitions

variable {root : α} {neighbours : α → List α}

omit [DecidableEq α] in
theorem Searching.start : Searching root neighbours [] (neighbours root) where
  reached := by
    rintro x (h | h)
    · cases h
    · exact .single h
  unseen := List.not_mem_nil
  nodup := List.nodup_nil
  closed := by
    rintro x (rfl | h) y hy
    · exact .inr (.inr hy)
    · cases h

variable {rest : List α}

theorem Searching.visit {s : State α} {x : α}
    (h : Searching root neighbours s.seen (x :: rest ++ s.next)) :
    Searching root neighbours (visit root neighbours s x).seen
      (rest ++ (visit root neighbours s x).next) := by
  unfold Search.visit
  by_cases hskip : x = root ∨ x ∈ s.seen
  · rw [if_pos hskip]
    refine ⟨fun y hy => h.reached y ?_, h.unseen, h.nodup, fun y hy z hz => ?_⟩
    · simp only [List.cons_append, List.mem_cons]
      tauto
    · have hclosed := h.closed y hy z hz
      simp only [List.cons_append, List.mem_cons] at hclosed
      obtain hz | hz | rfl | hz := hclosed
      · exact .inl hz
      · exact .inr (.inl hz)
      · exact hskip.imp_right .inl
      · exact .inr (.inr hz)
  · rw [if_neg hskip]
    rw [not_or] at hskip
    have hx := h.reached x (.inr (by simp))
    constructor
    · simp only [List.mem_cons, List.mem_append, List.mem_filter]
      rintro y ((rfl | hy) | hy | hy | hy)
      · exact hx
      · exact h.reached y (.inl hy)
      · exact h.reached y (.inr (by simp [hy]))
      · exact h.reached y (.inr (by simp [hy]))
      · exact hx.tail hy.1
    · rw [List.mem_cons, not_or]
      exact ⟨fun hroot => hskip.1 hroot.symm, h.unseen⟩
    · exact List.nodup_cons.mpr ⟨hskip.2, h.nodup⟩
    · simp only [List.mem_cons, List.mem_append, List.mem_filter, decide_eq_true_eq]
      rintro y hy z hz
      by_cases hyx : y = x
      · subst hyx
        tauto
      · have hold : y = root ∨ y ∈ s.seen := by tauto
        have hclosed := h.closed y hold z hz
        simp only [List.cons_append, List.mem_cons, List.mem_append] at hclosed
        tauto

/-- What is known stays known over a level. -/
theorem Searching.foldl : ∀ {s : State α},
    Searching root neighbours s.seen (rest ++ s.next) →
      Searching root neighbours (rest.foldl (Search.visit root neighbours) s).seen
        (rest.foldl (Search.visit root neighbours) s).next := by
  induction rest with
  | nil => exact fun h => h
  | cons x rest ih => exact fun h => ih h.visit

theorem Searching.level {seen frontier : List α} (h : Searching root neighbours seen frontier) :
    Searching root neighbours (level root neighbours seen frontier).seen
      (level root neighbours seen frontier).next :=
  Searching.foldl (s := { seen, next := [] }) (by rw [List.append_nil]; exact h)

variable (root neighbours) in
theorem visit_seen (s : State α) (x : α) :
    (visit root neighbours s x = s) ∨
      (x ∉ s.seen ∧ (visit root neighbours s x).seen = x :: s.seen) := by
  unfold visit
  by_cases hskip : x = root ∨ x ∈ s.seen
  · rw [if_pos hskip]
    exact .inl rfl
  · rw [if_neg hskip]
    exact .inr ⟨fun h => hskip (.inr h), rfl⟩

theorem seen_subset_foldl : ∀ {s : State α},
    s.seen ⊆ (rest.foldl (visit root neighbours) s).seen := by
  induction rest with
  | nil => exact fun h => h
  | cons x rest ih =>
    intro s y hy
    apply ih
    obtain hsame | ⟨-, hmore⟩ := visit_seen root neighbours s x
    · rw [hsame]
      exact hy
    · rw [hmore]
      exact List.mem_cons_of_mem _ hy

/-- A level that leaves something to visit has seen a new node. -/
theorem exists_new_of_next : ∀ {s : State α}, s.next = [] →
    (rest.foldl (visit root neighbours) s).next ≠ [] →
    ∃ x ∈ rest, x ∉ s.seen ∧ x ∈ (rest.foldl (visit root neighbours) s).seen := by
  induction rest with
  | nil => exact fun hnone hnext => absurd hnone hnext
  | cons x rest ih =>
    intro s hnone hnext
    rw [List.foldl_cons] at hnext ⊢
    obtain hsame | ⟨hfresh, hmore⟩ :=
      visit_seen root neighbours s x
    · rw [hsame] at hnext ⊢
      obtain ⟨y, hy, hnew⟩ := ih hnone hnext
      exact ⟨y, List.mem_cons_of_mem _ hy, hnew⟩
    · refine ⟨x, List.mem_cons_self, hfresh, seen_subset_foldl ?_⟩
      rw [hmore]
      exact List.mem_cons_self

/-- A search that has nothing left to visit. -/
def Complete (root : α) (neighbours : α → List α) (seen : List α) : Prop :=
  Searching root neighbours seen []

theorem Complete.mem_iff {seen : List α} (h : Complete root neighbours seen) {x : α} :
    x ∈ seen ↔ x ≠ root ∧ Relation.TransGen (fun a b => b ∈ neighbours a) root x := by
  constructor
  · intro hx
    exact ⟨fun hroot => h.unseen (hroot ▸ hx), h.reached x (.inl hx)⟩
  · rintro ⟨hne, hreach⟩
    have hseen : x = root ∨ x ∈ seen := by
      induction hreach with
      | single hstep => simpa using h.closed root (.inl rfl) _ hstep
      | @tail y z _ hstep ih =>
        by_cases hy : y = root
        · simpa using h.closed y (.inl hy) _ hstep
        · simpa using h.closed y (ih hy) _ hstep
    exact hseen.resolve_left hne

/-- As many levels as there are nodes left finish the search. -/
theorem search_complete {nodes : List α} (hnodes : ∀ x, ∀ y ∈ neighbours x, y ∈ nodes) :
    ∀ (fuel : Nat) (seen frontier : List α), Searching root neighbours seen frontier →
      (∀ x ∈ frontier, x ∈ nodes) → (nodes.filter fun x => x ∉ seen).length < fuel →
      Complete root neighbours (search root neighbours fuel seen frontier) := by
  intro fuel
  induction fuel with
  | zero =>
    intro seen frontier _ _ hfuel
    exact absurd hfuel (Nat.not_lt_zero _)
  | succ fuel ih =>
    intro seen frontier h hfrontier hfuel
    cases frontier with
    | nil => exact h
    | cons x frontier =>
      have hlevel := h.level
      have hsub : seen ⊆ (level root neighbours seen (x :: frontier)).seen :=
        seen_subset_foldl (s := { seen, next := [] })
      unfold search
      dsimp only
      by_cases hnext : (level root neighbours seen (x :: frontier)).next = []
      · rw [hnext] at hlevel ⊢
        cases fuel with
        | zero => exact hlevel
        | succ fuel => exact hlevel
      · obtain ⟨y, hy, hfresh, hnew⟩ :=
          exists_new_of_next (s := { seen, next := [] }) rfl hnext
        apply ih _ _ hlevel
        · intro z hz
          obtain ⟨w, -, hw⟩ := Relation.TransGen.tail'_iff.mp (hlevel.reached z (.inr hz))
          exact hnodes w z hw
        · have hlt : (nodes.filter fun z =>
              z ∉ (level root neighbours seen (x :: frontier)).seen).length <
              (nodes.filter fun z => z ∉ seen).length := by
            have hmono : (nodes.filter fun z =>
                z ∉ (level root neighbours seen (x :: frontier)).seen).Sublist
                (nodes.filter fun z => z ∉ seen) := by
              apply List.monotone_filter_right
              intro z hz
              simp only [decide_eq_true_eq] at hz ⊢
              exact fun hin => hz (hsub hin)
            apply Nat.lt_of_le_of_ne hmono.length_le
            intro heq
            have hsame := hmono.eq_of_length heq
            have hmem : y ∈ nodes.filter fun z => z ∉ seen :=
              List.mem_filter.mpr ⟨hfrontier y hy, by simpa using hfresh⟩
            rw [← hsame, List.mem_filter] at hmem
            simp only [decide_eq_true_eq] at hmem
            exact hmem.2 hnew
          omega

end Cairn.Verified.Search
