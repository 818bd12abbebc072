import Cairn.Ports.Challenge
import Mathlib.Logic.Relation

/-!
# Bisection is sound and complete

Runs of `Dispute::play` from a dispute that `Dispute::open` accepted, with any
moves of either side in any order; a refused move leaves the dispute as it was.
The interval in dispute always starts at a state both sides opened alike and
ends at one they opened differently, and each completed round halves it. When
it is one step wide, running that step decides, and a side whose opened states
all lie on a genuine run wins.
-/

namespace Cairn.Ports

open Cairn.Verified
open Cairn.Ports.Canonical

/-- The root a side of a dispute is held to. -/
def Side.rootOf (side : Side) (defenderRoot challengerRoot : String) : String :=
  match side with
  | .defender => defenderRoot
  | .challenger => challengerRoot

namespace Dispute

theorem lookup_cons (i : Nat) (side : Side) (state : Value)
    (opened : List ((Nat × Side) × Value)) (j : Nat) (other : Side) :
    List.lookup (j, other) (((i, side), state) :: opened) =
      if j = i ∧ other = side then some state else List.lookup (j, other) opened := by
  rw [List.lookup_cons]
  by_cases h : j = i ∧ other = side
  · obtain ⟨rfl, rfl⟩ := h
    simp
  · have hne : ((j, other) == (i, side)) = false := by
      rw [beq_eq_false_iff_ne, Ne, Prod.mk.injEq]
      exact h
    rw [hne, if_neg h]

theorem openedState_cons (d : Dispute) (i : Nat) (side : Side) (state : Value) (j : Nat)
    (other : Side) (lo hi : Nat) :
    ({ d with opened := ((i, side), state) :: d.opened, lo, hi } : Dispute).openedState j other =
      if j = i ∧ other = side then some state else d.openedState j other :=
  lookup_cons i side state d.opened j other

/-- The width of the interval in dispute. -/
def width (d : Dispute) : Nat := d.hi - d.lo

theorem query_between {d : Dispute} (h : 1 < d.hi - d.lo) : d.lo < d.query ∧ d.query < d.hi := by
  unfold query
  omega

/-- The dispute after an accepted move. -/
def moved (d : Dispute) (side : Side) (m : Move) : Dispute :=
  match d.openedState d.query side.other with
  | none => { d with opened := ((d.query, side), m.state) :: d.opened }
  | some state =>
    if state = m.state then
      { d with opened := ((d.query, side), m.state) :: d.opened, lo := d.query }
    else { d with opened := ((d.query, side), m.state) :: d.opened, hi := d.query }

theorem openedState_moved (d : Dispute) (side : Side) (m : Move) (i : Nat) (s : Side) :
    (d.moved side m).openedState i s =
      if i = d.query ∧ s = side then some m.state else d.openedState i s := by
  unfold moved
  cases d.openedState d.query side.other with
  | none => exact openedState_cons d _ _ _ i s d.lo d.hi
  | some state =>
    by_cases heq : state = m.state
    · dsimp only
      rw [if_pos heq]
      exact openedState_cons d _ _ _ i s d.query d.hi
    · dsimp only
      rw [if_neg heq]
      exact openedState_cons d _ _ _ i s d.lo d.query

/-- A move is the first of its round, or closes it and narrows the interval. -/
theorem interval_moved (d : Dispute) (side : Side) (m : Move) :
    (d.openedState d.query side.other = none ∧ (d.moved side m).lo = d.lo ∧
      (d.moved side m).hi = d.hi) ∨
    (d.openedState d.query side.other = some m.state ∧ (d.moved side m).lo = d.query ∧
      (d.moved side m).hi = d.hi) ∨
    (∃ state, d.openedState d.query side.other = some state ∧ state ≠ m.state ∧
      (d.moved side m).lo = d.lo ∧ (d.moved side m).hi = d.query) := by
  unfold moved
  cases hother : d.openedState d.query side.other with
  | none => exact .inl ⟨rfl, rfl, rfl⟩
  | some state =>
    right
    by_cases heq : state = m.state
    · dsimp only
      rw [if_pos heq]
      exact .inl ⟨by rw [heq], rfl, rfl⟩
    · dsimp only
      rw [if_neg heq]
      exact .inr ⟨state, rfl, heq, rfl, rfl⟩

theorem outcome_moved (d : Dispute) (side : Side) (m : Move) :
    (d.moved side m).outcome = d.outcome := by
  unfold moved
  cases d.openedState d.query side.other with
  | none => rfl
  | some state => by_cases heq : state = m.state <;> simp [heq]

theorem other_ne (side : Side) : side.other ≠ side := by cases side <;> simp [Side.other]

section Runs

variable [Sha256]

/-- What an accepted move answers. -/
structure Answers (d : Dispute) (side : Side) (m : Move) : Prop where
  undecided : d.outcome = none
  wide : 1 < d.hi - d.lo
  index : m.index = d.query
  opens : m.opens (d.rootOf side) = true
  fresh : d.openedState d.query side = none

variable {d d' e : Dispute} {m : Move} {side : Side} {challengerRoot defenderRoot id : String}
  {ends : Endpoints} {length : Nat}

/-- Accepting a move: it is recorded, and the interval narrows when it is the
round's second. -/
theorem play_of_answers (h : d.Answers side m) : d.play side m = .ok (d.moved side m) := by
  have hnext : d.next = .openAt d.query ([Side.defender, Side.challenger].filter fun side =>
      (d.openedState d.query side).isNone) := by
    unfold next
    rw [h.undecided]
    exact if_neg (by have := h.wide; omega)
  have hself : ∀ lo hi, ({ d with opened := ((d.query, side), m.state) :: d.opened, lo, hi } :
      Dispute).openedState d.query side = some m.state := by
    intro lo hi
    rw [openedState_cons, if_pos ⟨rfl, rfl⟩]
  have hother : ∀ lo hi, ({ d with opened := ((d.query, side), m.state) :: d.opened, lo, hi } :
      Dispute).openedState d.query side.other = d.openedState d.query side.other := by
    intro lo hi
    rw [openedState_cons, if_neg (by cases side <;> simp [Side.other])]
  have hfresh : (d.openedState d.query side).isSome = false := by rw [h.fresh]; rfl
  unfold play
  rw [hnext]
  dsimp only
  rw [if_neg (not_not.mpr h.index), h.opens, if_neg (by decide), hfresh, if_neg (by decide)]
  unfold moved
  cases side with
  | defender =>
    rw [hself d.lo d.hi]
    have hthem := hother d.lo d.hi
    rw [Side.other] at hthem ⊢
    rw [hthem]
    cases d.openedState d.query .challenger with
    | none => rfl
    | some state =>
      dsimp only
      by_cases heq : m.state = state
      · rw [if_pos heq, if_pos heq.symm]
      · rw [if_neg heq, if_neg fun h => heq h.symm]
  | challenger =>
    rw [hself d.lo d.hi]
    have hthem := hother d.lo d.hi
    rw [Side.other] at hthem ⊢
    rw [hthem]
    cases d.openedState d.query .defender with
    | none => rfl
    | some state =>
      dsimp only
      by_cases heq : state = m.state
      · rw [if_pos heq, if_pos heq]
      · rw [if_neg heq, if_neg heq]

theorem answers_of_play (h : d.play side m = .ok d') : d.Answers side m := by
  unfold play next at h
  cases houtcome : d.outcome with
  | some outcome =>
    rw [houtcome] at h
    cases h
  | none =>
    rw [houtcome] at h
    by_cases hwide : d.hi - d.lo ≤ 1
    · simp only [if_pos hwide] at h
      cases h
    · simp only [if_neg hwide] at h
      split_ifs at h with hindex hopens hfresh
      refine ⟨houtcome, by omega, not_not.mp hindex, ?_, ?_⟩
      · simpa using hopens
      · simpa using hfresh

/-- Which moves are accepted, and what one does. -/
theorem play_eq_ok : d.play side m = .ok d' ↔ d.Answers side m ∧ d' = d.moved side m := by
  constructor
  · intro h
    have hanswers := answers_of_play h
    rw [play_of_answers hanswers] at h
    exact ⟨hanswers, (Except.ok.inj h).symm⟩
  · rintro ⟨h, rfl⟩
    exact play_of_answers h

/-- A refused move changes nothing. -/
def tryPlay (d : Dispute) (side : Side) (m : Move) : Dispute :=
  match d.play side m with
  | .ok d => d
  | .error _ => d

def playAll (d : Dispute) (moves : List (Side × Move)) : Dispute :=
  moves.foldl (fun d p => d.tryPlay p.1 p.2) d

theorem playAll_concat (d : Dispute) (moves : List (Side × Move)) (p : Side × Move) :
    d.playAll (moves ++ [p]) = (d.playAll moves).tryPlay p.1 p.2 := by
  unfold playAll
  rw [List.foldl_append]
  rfl

theorem tryPlay_cases (d : Dispute) (side : Side) (m : Move) :
    (d.Answers side m ∧ d.tryPlay side m = d.moved side m) ∨
      (¬d.Answers side m ∧ d.tryPlay side m = d) := by
  unfold tryPlay
  by_cases h : d.Answers side m
  · rw [play_of_answers h]
    exact .inl ⟨h, rfl⟩
  · cases hplay : d.play side m with
    | ok d' => exact absurd (answers_of_play hplay) h
    | error e => exact .inr ⟨h, rfl⟩

/-- A property that every accepted move of a run keeps holds after it. -/
theorem playAll_induction_mem {P : Dispute → Prop} (h : P d) (moves : List (Side × Move))
    (step : ∀ d, ∀ p ∈ moves, d.Answers p.1 p.2 → P d → P (d.moved p.1 p.2)) :
    P (d.playAll moves) := by
  induction moves using List.reverseRecOn with
  | nil => exact h
  | append_singleton moves p ih =>
    rw [playAll_concat]
    have hrest := ih fun d q hq => step d q (List.mem_append_left _ hq)
    obtain ⟨hanswers, heq⟩ | ⟨-, heq⟩ := tryPlay_cases (d.playAll moves) p.1 p.2
    · rw [heq]
      exact step _ p (by simp) hanswers hrest
    · rw [heq]
      exact hrest

/-- A property that every accepted move keeps holds over a run. -/
theorem playAll_induction {P : Dispute → Prop}
    (step : ∀ d side m, d.Answers side m → P d → P (d.moved side m)) {d : Dispute} (h : P d)
    (moves : List (Side × Move)) : P (d.playAll moves) :=
  playAll_induction_mem h moves fun d p _ => step d p.1 p.2

omit [Sha256] in
theorem rootOf_moved (d : Dispute) (side : Side) (m : Move) (s : Side) :
    (d.moved side m).rootOf s = d.rootOf s := by
  unfold moved
  cases d.openedState d.query side.other with
  | none => cases s <;> rfl
  | some state => by_cases heq : state = m.state <;> cases s <;> simp [heq, rootOf]

/-! ## The invariant -/

/-- Both sides opened `lo` alike and `hi` differently; of the states in between
only the one asked about may be open, to one side. -/
structure Bisecting (d : Dispute) : Prop where
  lt : d.lo < d.hi
  agreed : ∃ s, d.openedState d.lo .defender = some s ∧ d.openedState d.lo .challenger = some s
  differ : ∃ s t, d.openedState d.hi .defender = some s ∧
    d.openedState d.hi .challenger = some t ∧ s ≠ t
  undecided : d.outcome = none
  fresh : ∀ i side, d.lo < i → i < d.hi → (d.openedState i side).isSome →
    i = d.query ∧ d.openedState i side.other = none

theorem Bisecting.moved {d : Dispute} (h : d.Bisecting) {side : Side} {m : Move}
    (hanswers : d.Answers side m) : (d.moved side m).Bisecting := by
  obtain ⟨hlo, hhi⟩ := query_between hanswers.wide
  -- the ends are not asked about, so a move leaves them as they were opened
  have hkeep : ∀ i s, i ≠ d.query → (d.moved side m).openedState i s = d.openedState i s := by
    intro i s hi
    rw [openedState_moved, if_neg fun h => hi h.1]
  have hself : (d.moved side m).openedState d.query side = some m.state := by
    rw [openedState_moved, if_pos ⟨rfl, rfl⟩]
  have hother : (d.moved side m).openedState d.query side.other =
      d.openedState d.query side.other := by
    rw [openedState_moved, if_neg fun h => other_ne side h.2]
  have hundecided : (d.moved side m).outcome = none := by rw [outcome_moved, h.undecided]
  have hagreed := h.agreed
  rw [← hkeep d.lo .defender hlo.ne, ← hkeep d.lo .challenger hlo.ne] at hagreed
  have hdiffer := h.differ
  rw [← hkeep d.hi .defender hhi.ne', ← hkeep d.hi .challenger hhi.ne'] at hdiffer
  have hinside : ∀ i s, d.lo < i → i < d.hi → i ≠ d.query →
      (d.moved side m).openedState i s = none := by
    intro i s hi hi' hne
    rw [hkeep i s hne]
    by_contra hopen
    exact hne (h.fresh i s hi hi' (Option.isSome_iff_ne_none.mpr hopen)).1
  obtain ⟨hnone, hl, hr⟩ | ⟨hsame, hl, hr⟩ | ⟨state, hthem, hne, hl, hr⟩ :=
    interval_moved d side m
  · refine ⟨by rw [hl, hr]; exact h.lt, by rw [hl]; exact hagreed, by rw [hr]; exact hdiffer,
      hundecided, ?_⟩
    have hquery : (d.moved side m).query = d.query := by unfold query; rw [hl, hr]
    rw [hl, hr, hquery]
    intro i s hi hi' hopen
    by_cases hiq : i = d.query
    · subst hiq
      refine ⟨rfl, ?_⟩
      by_cases hs : s = side
      · rw [hs, hother, hnone]
      · have hs' : s = side.other := by cases s <;> cases side <;> simp_all [Side.other]
        rw [hs', hother, hnone] at hopen
        cases hopen
    · rw [hinside i s hi hi' hiq] at hopen
      cases hopen
  · refine ⟨by rw [hl, hr]; exact hhi, ?_, by rw [hr]; exact hdiffer, hundecided, ?_⟩
    · rw [hl]
      refine ⟨m.state, ?_⟩
      cases side with
      | defender => exact ⟨hself, hother.trans hsame⟩
      | challenger => exact ⟨hother.trans hsame, hself⟩
    · rw [hl, hr]
      intro i s hi hi' hopen
      rw [hinside i s (hlo.trans hi) hi' hi.ne'] at hopen
      cases hopen
  · refine ⟨by rw [hl, hr]; exact hlo, by rw [hl]; exact hagreed, ?_, hundecided, ?_⟩
    · rw [hr]
      cases side with
      | defender => exact ⟨m.state, state, hself, hother.trans hthem, hne.symm⟩
      | challenger => exact ⟨state, m.state, hother.trans hthem, hself, hne⟩
    · rw [hl, hr]
      intro i s hi hi' hopen
      rw [hinside i s hi (hi'.trans hhi) hi'.ne] at hopen
      cases hopen

theorem Bisecting.playAll (h : d.Bisecting) (moves : List (Side × Move)) :
    (d.playAll moves).Bisecting :=
  playAll_induction (fun _ _ _ hanswers h => h.moved hanswers) h moves

theorem checkEndpoint_eq_ok {root : String} {index : Nat} :
    checkEndpoint side root index m = .ok () ↔ m.index = index ∧ m.opens root = true := by
  unfold checkEndpoint
  split_ifs with hindex hopens
  · simp [hindex]
  · simpa using fun _ => hopens
  · simp_all

/-- What a dispute is opened with. -/
structure EndsChecked (ends : Endpoints) (defenderRoot challengerRoot : String)
    (length : Nat) : Prop where
  long : 2 ≤ length
  defenderStart : checkEndpoint .defender defenderRoot 0 ends.defenderStart = .ok ()
  challengerStart : checkEndpoint .challenger challengerRoot 0 ends.challengerStart = .ok ()
  defenderFinal : checkEndpoint .defender defenderRoot (length - 1) ends.defenderFinal = .ok ()
  challengerFinal :
    checkEndpoint .challenger challengerRoot (length - 1) ends.challengerFinal = .ok ()
  sameStart : ends.defenderStart.state = ends.challengerStart.state
  differentEnd : ends.defenderFinal.state ≠ ends.challengerFinal.state

theorem open_eq_ok (h : openDispute id defenderRoot challengerRoot length ends = .ok d) :
    EndsChecked ends defenderRoot challengerRoot length ∧
      d = { id, defenderRoot, challengerRoot, length
            lo := 0
            hi := length - 1
            opened :=
              [((length - 1, .challenger), ends.challengerFinal.state),
                ((length - 1, .defender), ends.defenderFinal.state),
                ((0, .challenger), ends.challengerStart.state),
                ((0, .defender), ends.defenderStart.state)]
            outcome := none } := by
  unfold openDispute at h
  by_cases hroots : defenderRoot = challengerRoot
  · rw [if_pos hroots] at h
    cases h
  rw [if_neg hroots] at h
  by_cases hshort : length < 2
  · rw [if_pos hshort] at h
    cases h
  rw [if_neg hshort] at h
  simp only [bind_eq_ok] at h
  obtain ⟨⟨⟩, hds, ⟨⟩, hcs, ⟨⟩, hdf, ⟨⟩, hcf, h⟩ := h
  by_cases hstart : ends.defenderStart.state ≠ ends.challengerStart.state
  · rw [if_pos hstart] at h
    cases h
  rw [if_neg hstart] at h
  by_cases hend : ends.defenderFinal.state = ends.challengerFinal.state
  · rw [if_pos hend] at h
    cases h
  rw [if_neg hend] at h
  exact ⟨⟨by omega, hds, hcs, hdf, hcf, not_not.mp hstart, hend⟩, (Except.ok.inj h).symm⟩

/-- Four good endpoints under different roots open a dispute. -/
theorem open_of_checked {id defenderRoot challengerRoot : String} {length : Nat} {ends : Endpoints}
    (hroots : defenderRoot ≠ challengerRoot)
    (h : EndsChecked ends defenderRoot challengerRoot length) :
    ∃ d, openDispute id defenderRoot challengerRoot length ends = .ok d := by
  have hlong := h.long
  unfold openDispute
  rw [if_neg hroots, if_neg (by omega)]
  simp only [h.defenderStart, h.challengerStart, h.defenderFinal, h.challengerFinal, h.sameStart,
    bind, Except.bind, ne_eq, not_true_eq_false, if_false, if_neg h.differentEnd]
  exact ⟨_, rfl⟩

/-- A dispute that was opened is one to bisect. -/
theorem bisecting_of_open (h : openDispute id defenderRoot challengerRoot length ends = .ok d) :
    d.Bisecting := by
  obtain ⟨hchecked, rfl⟩ := open_eq_ok h
  have hlong := hchecked.long
  have hne : length - 1 ≠ 0 := by omega
  have hother : ∀ i side, i ≠ 0 → i ≠ length - 1 → List.lookup (i, side)
      [((length - 1, Side.challenger), ends.challengerFinal.state),
        ((length - 1, Side.defender), ends.defenderFinal.state),
        ((0, Side.challenger), ends.challengerStart.state),
        ((0, Side.defender), ends.defenderStart.state)] = none := by
    intro i side h0 h1
    simp [lookup_cons, h0, h1]
  refine ⟨by dsimp only; omega, ⟨ends.defenderStart.state, ?_, ?_⟩,
    ⟨ends.defenderFinal.state, ends.challengerFinal.state, ?_, ?_, hchecked.differentEnd⟩, rfl, ?_⟩
  · simp [openedState, lookup_cons, hne.symm]
  · simp [openedState, lookup_cons, hne.symm, hchecked.sameStart]
  · simp [openedState, lookup_cons]
  · simp [openedState]
  · intro i side hi hi' hopen
    dsimp only at hi hi'
    rw [openedState, hother i side (by omega) (by omega)] at hopen
    cases hopen

/-! ## Halving -/

omit [Sha256] in
theorem roundsFrom_mono (width : Nat) : ∀ {other : Nat}, width ≤ other →
    roundsFrom width ≤ roundsFrom other := by
  induction width using Nat.strong_induction_on with
  | _ width ih =>
    intro other hle
    rw [roundsFrom]
    split_ifs with hwide
    · rw [roundsFrom.eq_def other, if_pos (by omega)]
      have hrest := ih ((width + 1) / 2) (by omega) (by omega : (width + 1) / 2 ≤ (other + 1) / 2)
      omega
    · exact Nat.zero_le _

omit [Sha256] in
theorem width_le_one {width : Nat} (h : roundsFrom width = 0) : width ≤ 1 := by
  rw [roundsFrom] at h
  split_ifs at h with hwide
  omega

/-- This move closes a round. -/
def completes (d : Dispute) (side : Side) (m : Move) : Bool :=
  match d.play side m with
  | .ok _ => (d.openedState d.query side.other).isSome
  | .error _ => false

/-- How many rounds a run completes. -/
def rounds (d : Dispute) : List (Side × Move) → Nat
  | [] => 0
  | p :: moves => (if d.completes p.1 p.2 then 1 else 0) + rounds (d.tryPlay p.1 p.2) moves

/-- A completed round halves the interval; any other move leaves it. -/
theorem width_tryPlay (d : Dispute) (side : Side) (m : Move) :
    (d.completes side m = true ∧
      ((d.tryPlay side m).width = (d.width + 1) / 2 ∨ (d.tryPlay side m).width = d.width / 2)) ∨
    (d.completes side m = false ∧ (d.tryPlay side m).lo = d.lo ∧
      (d.tryPlay side m).hi = d.hi) := by
  unfold completes
  by_cases hanswers : d.Answers side m
  · have hplay := play_of_answers hanswers
    have htry : d.tryPlay side m = d.moved side m := by
      unfold tryPlay
      rw [hplay]
    have hwide := hanswers.wide
    rw [hplay, htry]
    unfold width
    have hquery : d.query = d.lo + (d.hi - d.lo) / 2 := rfl
    obtain ⟨hnone, hl, hr⟩ | ⟨hsame, hl, hr⟩ | ⟨state, hthem, -, hl, hr⟩ :=
      interval_moved d side m
    · right
      rw [hnone]
      exact ⟨rfl, hl, hr⟩
    · left
      rw [hsame, hl, hr]
      refine ⟨rfl, .inl ?_⟩
      omega
    · left
      rw [hthem, hl, hr]
      refine ⟨rfl, .inr ?_⟩
      omega
  · right
    unfold tryPlay
    cases hplay : d.play side m with
    | ok d' => exact absurd (answers_of_play hplay) hanswers
    | error e => exact ⟨rfl, rfl, rfl⟩

/-- Every completed round is one less to play. -/
theorem roundsFrom_playAll (moves : List (Side × Move)) : ∀ d : Dispute,
    roundsFrom (d.playAll moves).width ≤ roundsFrom d.width - d.rounds moves := by
  induction moves with
  | nil => exact fun d => le_rfl
  | cons p moves ih =>
    intro d
    have hrest := ih (d.tryPlay p.1 p.2)
    have hall : d.playAll (p :: moves) = (d.tryPlay p.1 p.2).playAll moves := rfl
    rw [hall, rounds]
    obtain ⟨hcompletes, hwidth⟩ | ⟨hcompletes, hl, hr⟩ := width_tryPlay d p.1 p.2
    · rw [if_pos hcompletes]
      have hle : roundsFrom (d.tryPlay p.1 p.2).width ≤ roundsFrom d.width - 1 := by
        rw [roundsFrom.eq_def d.width]
        have hmono := @roundsFrom_mono (d.tryPlay p.1 p.2).width ((d.width + 1) / 2) (by omega)
        split_ifs with hwide
        · omega
        · have hzero : (d.width + 1) / 2 ≤ 1 := by omega
          rw [roundsFrom.eq_def ((d.width + 1) / 2), if_neg (by omega)] at hmono
          omega
      omega
    · rw [if_neg (by rw [hcompletes]; exact Bool.false_ne_true)]
      have hwidth : (d.tryPlay p.1 p.2).width = d.width := by unfold width; rw [hl, hr]
      rw [hwidth] at hrest
      omega

/-! ## Adjudication -/

omit [Sha256] in
theorem Bisecting.next_eq (h : d.Bisecting) (hnarrow : d.width ≤ 1) :
    d.next = .adjudicate d.lo := by
  unfold next
  rw [h.undecided]
  exact if_pos hnarrow

omit [Sha256] in
theorem Bisecting.width_of_next (h : d.Bisecting) {n : Nat} (hnext : d.next = .adjudicate n) :
    d.width ≤ 1 := by
  unfold next at hnext
  rw [h.undecided] at hnext
  dsimp only at hnext
  unfold width
  by_contra hwide
  rw [if_neg hwide] at hnext
  cases hnext

omit [Sha256] in
/-- A narrowed dispute is decided by the one step that is left. -/
theorem Bisecting.adjudicate_eq (h : d.Bisecting) (hnarrow : d.width ≤ 1) (registry : Registry)
    (stepper : Stepper) :
    ∃ s a b, d.openedState d.lo .defender = some s ∧ d.openedState d.lo .challenger = some s ∧
      d.openedState (d.lo + 1) .defender = some a ∧
      d.openedState (d.lo + 1) .challenger = some b ∧ a ≠ b ∧
      (∀ why, stepper.step registry s = .error why →
        d.adjudicate registry stepper = .error (.stepper why)) ∧
      ∀ truth, stepper.step registry s = .ok truth → ∃ outcome,
        d.adjudicate registry stepper = .ok ({ d with outcome := some outcome }, outcome) ∧
        outcome.winner = if truth = a then .defender else .challenger := by
  obtain ⟨s, hsd, hsc⟩ := h.agreed
  obtain ⟨a, b, ha, hb, hne⟩ := h.differ
  have hhi : d.hi = d.lo + 1 := by
    have hlt := h.lt
    unfold width at hnarrow
    omega
  rw [hhi] at ha hb
  have hagreed : d.agreedState d.lo = some s := by
    unfold agreedState
    rw [hsd, hsc]
    exact if_pos rfl
  refine ⟨s, a, b, hsd, hsc, ha, hb, hne, ?_, ?_⟩
  · intro why hwhy
    unfold adjudicate decideStep
    simp only [h.undecided, h.next_eq hnarrow, hagreed, ha, hb, hwhy, okOr, Except.mapError, bind,
      Except.bind, Except.map]
  · intro truth htruth
    unfold adjudicate decideStep
    simp only [h.undecided, h.next_eq hnarrow, hagreed, ha, hb, htruth, okOr, Except.mapError, bind,
      Except.bind]
    by_cases hdefender : truth = a
    · rw [if_pos hdefender, if_pos hdefender]
      exact ⟨_, rfl, rfl⟩
    · rw [if_neg hdefender, if_neg hdefender]
      by_cases hchallenger : truth = b
      · rw [if_pos hchallenger]
        exact ⟨_, rfl, rfl⟩
      · rw [if_neg hchallenger]
        exact ⟨_, rfl, rfl⟩

/-- What a side opened lies on a run of `step`. -/
def Genuine (d : Dispute) (side : Side) (step : Value → Value) : Prop :=
  ∃ s : Nat → Value, (∀ i, s (i + 1) = step (s i)) ∧
    ∀ i v, d.openedState i side = some v → v = s i

omit [Sha256] in
/-- A genuine side wins. -/
theorem Bisecting.winner (h : d.Bisecting) (hnarrow : d.width ≤ 1) {registry : Registry}
    {stepper : Stepper} {step : Value → Value} (hstep : ∀ v, stepper.step registry v = .ok (step v))
    (hgenuine : d.Genuine side step) :
    ∃ d' outcome, d.adjudicate registry stepper = .ok (d', outcome) ∧ outcome.winner = side := by
  obtain ⟨run, hrun, hopened⟩ := hgenuine
  obtain ⟨s, a, b, hsd, hsc, ha, hb, hne, -, hdecide⟩ := h.adjudicate_eq hnarrow registry stepper
  obtain ⟨outcome, hadjudicate, hwinner⟩ := hdecide (step s) (hstep s)
  refine ⟨_, outcome, hadjudicate, ?_⟩
  rw [hwinner]
  cases side with
  | defender =>
    rw [if_pos]
    rw [hopened _ _ hsd, hopened _ _ ha, hrun]
  | challenger =>
    rw [if_neg]
    intro heq
    have hb' : b = step s := by rw [hopened _ _ hsc, hopened _ _ hb, hrun]
    exact hne (heq.symm.trans hb'.symm)

omit [Sha256] in
/-- Whenever the step runs, a genuine side wins. -/
theorem Bisecting.winner_of_decide (h : d.Bisecting) {agreed : Nat}
    (hnext : d.next = .adjudicate agreed) {registry : Registry} {stepper : Stepper}
    {step : Value → Value} (hstep : ∀ v truth, stepper.step registry v = .ok truth → truth = step v)
    (hgenuine : d.Genuine side step) {outcome : DisputeOutcome}
    (hdecide : d.decideStep registry stepper = .ok outcome) : outcome.winner = side := by
  obtain ⟨run, hrun, hopened⟩ := hgenuine
  obtain ⟨s, a, b, hsd, hsc, ha, hb, hne, hfails, hdecides⟩ :=
    h.adjudicate_eq (h.width_of_next hnext) registry stepper
  have hadjudicate : d.adjudicate registry stepper =
      .ok ({ d with outcome := some outcome }, outcome) := by
    unfold adjudicate
    rw [h.undecided, hdecide]
    rfl
  cases hran : stepper.step registry s with
  | error why =>
    rw [hfails why hran] at hadjudicate
    cases hadjudicate
  | ok truth =>
    obtain ⟨outcome', hok, hwinner⟩ := hdecides truth hran
    rw [hok, Except.ok.injEq, Prod.mk.injEq] at hadjudicate
    rw [← hadjudicate.2, hwinner, hstep s truth hran]
    cases side with
    | defender =>
      rw [if_pos]
      rw [hopened _ _ hsd, hopened _ _ ha, hrun]
    | challenger =>
      rw [if_neg]
      intro heq
      have hb' : b = step s := by rw [hopened _ _ hsc, hopened _ _ hb, hrun]
      exact hne (heq.symm.trans hb'.symm)

/-! ## The order of answers -/

/-- One round of the search, on what was opened. -/
def Narrows (o : Nat → Side → Option Value) (x y : Nat × Nat) : Prop :=
  1 < x.2 - x.1 ∧ ∃ a b, o (x.1 + (x.2 - x.1) / 2) .defender = some a ∧
    o (x.1 + (x.2 - x.1) / 2) .challenger = some b ∧
    y = if a = b then (x.1 + (x.2 - x.1) / 2, x.2) else (x.1, x.1 + (x.2 - x.1) / 2)

omit [Sha256] in
theorem Narrows.unique {o : Nat → Side → Option Value} : Relator.RightUnique (Narrows o) := by
  rintro x y z ⟨-, a, b, ha, hb, rfl⟩ ⟨-, a', b', ha', hb', rfl⟩
  rw [ha, Option.some.injEq] at ha'
  rw [hb, Option.some.injEq] at hb'
  rw [ha', hb']

/-- The interval is where the search stands on what was opened. -/
structure Searched (d : Dispute) (length : Nat) : Prop where
  bisecting : d.Bisecting
  path : Relation.ReflTransGen (Narrows d.openedState) (0, length - 1) (d.lo, d.hi)

omit [Sha256] in
/-- The search goes no further than the interval. -/
theorem Bisecting.stuck (h : d.Bisecting) (y : Nat × Nat) :
    ¬Narrows d.openedState (d.lo, d.hi) y := by
  rintro ⟨hwide, a, b, ha, hb, -⟩
  dsimp only at hwide ha hb
  have hfresh := h.fresh (d.lo + (d.hi - d.lo) / 2) .defender (by omega) (by omega) (by rw [ha]; rfl)
  rw [Side.other, hb] at hfresh
  cases hfresh.2

omit [Sha256] in
theorem Narrows.mono {o o' : Nat → Side → Option Value}
    (h : ∀ i side v, o i side = some v → o' i side = some v) {x y : Nat × Nat}
    (hxy : Narrows o x y) : Narrows o' x y := by
  obtain ⟨hwide, a, b, ha, hb, hy⟩ := hxy
  exact ⟨hwide, a, b, h _ _ _ ha, h _ _ _ hb, hy⟩

theorem Searched.moved {d : Dispute} {length : Nat} (h : d.Searched length) {side : Side} {m : Move}
    (hanswers : d.Answers side m) : (d.moved side m).Searched length where
  bisecting := h.bisecting.moved hanswers
  path := by
    have hkeep : ∀ i s v, d.openedState i s = some v → (d.moved side m).openedState i s = some v := by
      intro i s v hv
      rw [openedState_moved]
      split_ifs with hhere
      · rw [hhere.1, hhere.2, hanswers.fresh] at hv
        cases hv
      · exact hv
    have hpath : Relation.ReflTransGen (Narrows (d.moved side m).openedState)
        (0, length - 1) (d.lo, d.hi) :=
      Relation.ReflTransGen.mono (fun _ _ => Narrows.mono hkeep) _ _ h.path
    have hself : (d.moved side m).openedState d.query side = some m.state := by
      rw [openedState_moved, if_pos ⟨rfl, rfl⟩]
    obtain ⟨-, hl, hr⟩ | ⟨hsame, hl, hr⟩ | ⟨state, hthem, hne, hl, hr⟩ := interval_moved d side m
    · rw [hl, hr]
      exact hpath
    · have hother := hkeep _ _ _ hsame
      rw [hl, hr]
      refine hpath.tail ⟨hanswers.wide, m.state, m.state, ?_, ?_, ?_⟩
      · cases side with
        | defender => exact hself
        | challenger => exact hother
      · cases side with
        | defender => exact hother
        | challenger => exact hself
      · rw [if_pos rfl]
        rfl
    · have hother := hkeep _ _ _ hthem
      rw [hl, hr]
      cases side with
      | defender =>
        refine hpath.tail ⟨hanswers.wide, m.state, state, hself, hother, ?_⟩
        rw [if_neg hne.symm]
        rfl
      | challenger =>
        refine hpath.tail ⟨hanswers.wide, state, m.state, hother, hself, ?_⟩
        rw [if_neg hne]
        rfl

omit [Sha256] in
/-- What was opened determines the interval. -/
theorem Searched.interval_eq (hd : d.Searched length) (he : e.Searched length)
    (hopened : ∀ i side, d.openedState i side = e.openedState i side) :
    d.lo = e.lo ∧ d.hi = e.hi := by
  have hsame : d.openedState = e.openedState := by
    funext i side
    exact hopened i side
  have hpath := he.path
  rw [← hsame] at hpath
  have hstuck := he.bisecting.stuck
  rw [← hsame] at hstuck
  have hmeet : (d.lo, d.hi) = (e.lo, e.hi) := by
    obtain h | h := hd.path.total_of_right_unique Narrows.unique hpath
    · obtain h | ⟨y, hy, -⟩ := Relation.ReflTransGen.cases_head h
      · exact h
      · exact absurd hy (hd.bisecting.stuck y)
    · obtain h | ⟨y, hy, -⟩ := Relation.ReflTransGen.cases_head h
      · exact h.symm
      · exact absurd hy (hstuck y)
  exact Prod.mk.inj hmeet

theorem Searched.playAll (h : d.Searched length) (moves : List (Side × Move)) :
    (d.playAll moves).Searched length :=
  @playAll_induction _ (fun d => d.Searched length) (fun _ _ _ hanswers h => h.moved hanswers)
    d h moves

theorem searched_of_open (h : openDispute id defenderRoot challengerRoot length ends = .ok d) :
    d.Searched length where
  bisecting := bisecting_of_open h
  path := by
    obtain ⟨-, rfl⟩ := open_eq_ok h
    exact .refl

/-- Disputes that differ at most in the order in which states were opened. -/
structure Alike (d e : Dispute) : Prop where
  lo : d.lo = e.lo
  hi : d.hi = e.hi
  outcome : d.outcome = e.outcome
  root : ∀ side, d.rootOf side = e.rootOf side
  opened : ∀ i side, d.openedState i side = e.openedState i side

namespace Alike

variable {d e : Dispute} (h : d.Alike e)
include h

omit [Sha256] in
theorem query : d.query = e.query := by
  unfold Dispute.query
  rw [h.lo, h.hi]

theorem answers {side : Side} {m : Move} (hanswers : d.Answers side m) : e.Answers side m where
  undecided := by rw [← h.outcome, hanswers.undecided]
  wide := by rw [← h.lo, ← h.hi]; exact hanswers.wide
  index := by rw [← h.query, hanswers.index]
  opens := by rw [← h.root, hanswers.opens]
  fresh := by rw [← h.query, ← h.opened, hanswers.fresh]

omit [Sha256] in
theorem moved (side : Side) (m : Move) : (d.moved side m).Alike (e.moved side m) := by
  have hinterval : (d.moved side m).lo = (e.moved side m).lo ∧
      (d.moved side m).hi = (e.moved side m).hi := by
    unfold Dispute.moved
    rw [h.query, h.opened]
    cases e.openedState e.query side.other with
    | none => exact ⟨h.lo, h.hi⟩
    | some state =>
      dsimp only
      by_cases heq : state = m.state
      · rw [if_pos heq, if_pos heq]
        exact ⟨rfl, h.hi⟩
      · rw [if_neg heq, if_neg heq]
        exact ⟨h.lo, rfl⟩
  refine ⟨hinterval.1, hinterval.2, ?_, ?_, ?_⟩
  · rw [outcome_moved, outcome_moved, h.outcome]
  · intro s
    rw [rootOf_moved, rootOf_moved, h.root]
  · intro i s
    rw [openedState_moved, openedState_moved, h.query, h.opened]

omit [Sha256] in
theorem adjudicate (registry : Registry) (stepper : Stepper) :
    (d.adjudicate registry stepper).map Prod.snd = (e.adjudicate registry stepper).map Prod.snd := by
  have hdecide : d.decideStep registry stepper = e.decideStep registry stepper := by
    unfold decideStep next agreedState
    simp only [h.lo, h.hi, h.outcome, h.opened, h.query]
  unfold Dispute.adjudicate
  rw [hdecide, h.outcome]
  cases e.outcome with
  | some outcome => rfl
  | none =>
    cases e.decideStep registry stepper with
    | error error => rfl
    | ok outcome => rfl

end Alike

/-- Nothing inside the interval is open: a round begins. -/
def Boundary (d : Dispute) : Prop :=
  ∀ i side, d.lo < i → i < d.hi → d.openedState i side = none

/-- One round: one side answers, then the other. -/
def playRound (d : Dispute) (first : Side) (answer : Side → Move) : Except DisputeError Dispute := do
  let d ← d.play first (answer first)
  d.play first.other (answer first.other)

def playRounds (d : Dispute) : List (Side × (Side → Move)) → Except DisputeError Dispute
  | [] => .ok d
  | round :: rounds => do
      let d ← d.playRound round.1 round.2
      d.playRounds rounds

omit [Sha256] in
theorem other_other (side : Side) : side.other.other = side := by cases side <;> rfl

omit [Sha256] in
/-- The first answer of a round leaves the interval. -/
theorem interval_first {d : Dispute} {side : Side} {m : Move}
    (hnone : d.openedState d.query side.other = none) :
    (d.moved side m).lo = d.lo ∧ (d.moved side m).hi = d.hi := by
  unfold moved
  rw [hnone]
  exact ⟨rfl, rfl⟩

omit [Sha256] in
/-- The second answer of a round narrows it. -/
theorem interval_second {d : Dispute} {side : Side} {m : Move} {state : Value}
    (hsome : d.openedState d.query side.other = some state) :
    (d.moved side m).lo = (if state = m.state then d.query else d.lo) ∧
      (d.moved side m).hi = if state = m.state then d.hi else d.query := by
  unfold moved
  rw [hsome]
  dsimp only
  by_cases heq : state = m.state
  · simp only [if_pos heq, and_self]
  · simp only [if_neg heq, and_self]

variable {answer : Side → Move} {first : Side}

/-- What a round does, whoever answers first. -/
theorem playRound_eq_ok (h : d.Boundary) :
    d.playRound first answer = .ok e ↔ (∀ side, d.Answers side (answer side)) ∧
      e = (d.moved first (answer first)).moved first.other (answer first.other) := by
  have hsecond : d.Answers first (answer first) →
      ((d.moved first (answer first)).Answers first.other (answer first.other) ↔
        d.Answers first.other (answer first.other)) := by
    intro hfirst
    obtain ⟨hlo, hhi⟩ := query_between hfirst.wide
    obtain ⟨hl, hr⟩ := @interval_first d first (answer first) (h d.query first.other hlo hhi)
    have hquery : (d.moved first (answer first)).query = d.query := by unfold query; rw [hl, hr]
    have hopened : (d.moved first (answer first)).openedState d.query first.other =
        d.openedState d.query first.other := by
      rw [openedState_moved, if_neg fun h => other_ne first h.2]
    constructor
    · rintro ⟨hundecided, hwide, hindex, hopens, hfresh⟩
      rw [outcome_moved] at hundecided
      rw [hl, hr] at hwide
      rw [hquery] at hindex hfresh
      rw [rootOf_moved] at hopens
      rw [hopened] at hfresh
      exact ⟨hundecided, hwide, hindex, hopens, hfresh⟩
    · rintro ⟨hundecided, hwide, hindex, hopens, hfresh⟩
      refine ⟨?_, ?_, ?_, ?_, ?_⟩
      · rw [outcome_moved, hundecided]
      · rw [hl, hr]
        exact hwide
      · rw [hquery, hindex]
      · rw [rootOf_moved, hopens]
      · rw [hquery, hopened, hfresh]
  unfold playRound
  rw [bind_eq_ok]
  constructor
  · rintro ⟨half, hhalf, hrest⟩
    obtain ⟨hanswers, rfl⟩ := play_eq_ok.mp hhalf
    obtain ⟨hanswers', rfl⟩ := play_eq_ok.mp hrest
    refine ⟨?_, rfl⟩
    intro side
    have hother := (hsecond hanswers).mp hanswers'
    cases side <;> cases first <;> assumption
  · rintro ⟨hanswers, rfl⟩
    exact ⟨_, play_of_answers (hanswers first),
      play_of_answers ((hsecond (hanswers first)).mpr (hanswers first.other))⟩

/-- What a closed round shows: the states opened, and where the interval went. -/
theorem playRound_shape (h : d.Boundary) (hanswers : ∀ side, d.Answers side (answer side))
    (first : Side) :
    (∀ i side, ((d.moved first (answer first)).moved first.other (answer first.other)).openedState
      i side = if i = d.query then some (answer side).state else d.openedState i side) ∧
    ((d.moved first (answer first)).moved first.other (answer first.other)).lo =
      (if (answer .defender).state = (answer .challenger).state then d.query else d.lo) ∧
    ((d.moved first (answer first)).moved first.other (answer first.other)).hi =
      if (answer .defender).state = (answer .challenger).state then d.hi else d.query := by
  obtain ⟨hlo, hhi⟩ := query_between (hanswers first).wide
  obtain ⟨hl, hr⟩ := @interval_first d first (answer first) (h d.query first.other hlo hhi)
  have hquery : (d.moved first (answer first)).query = d.query := by unfold query; rw [hl, hr]
  have hshown : (d.moved first (answer first)).openedState
      (d.moved first (answer first)).query first.other.other = some (answer first).state := by
    rw [hquery, other_other, openedState_moved, if_pos ⟨rfl, rfl⟩]
  obtain ⟨hl', hr'⟩ := @interval_second _ first.other (answer first.other) _ hshown
  refine ⟨?_, ?_, ?_⟩
  · intro i side
    rw [openedState_moved, openedState_moved, hquery]
    by_cases hi : i = d.query
    · cases side <;> cases first <;> simp [hi, Side.other]
    · simp [hi]
  · rw [hl', hquery, hl]
    cases first with
    | defender => rfl
    | challenger =>
      show (if (answer .challenger).state = (answer .defender).state then _ else _) = _
      by_cases heq : (answer .defender).state = (answer .challenger).state
      · rw [if_pos heq, if_pos heq.symm]
      · rw [if_neg heq, if_neg fun h => heq h.symm]
  · rw [hr', hquery, hr]
    cases first with
    | defender => rfl
    | challenger =>
      show (if (answer .challenger).state = (answer .defender).state then _ else _) = _
      by_cases heq : (answer .defender).state = (answer .challenger).state
      · rw [if_pos heq, if_pos heq.symm]
      · rw [if_neg heq, if_neg fun h => heq h.symm]

/-- The order of the answers of a round does not matter, and a round begins
after it. -/
theorem playRound_swap (h : d.Boundary) (other : Side) (hround : d.playRound first answer = .ok e) :
    ∃ e', d.playRound other answer = .ok e' ∧ e.Alike e' ∧ e.Boundary := by
  obtain ⟨hanswers, rfl⟩ := (playRound_eq_ok h).mp hround
  obtain ⟨hopened, hl, hr⟩ := playRound_shape h hanswers first
  obtain ⟨hopened', hl', hr'⟩ := playRound_shape h hanswers other
  obtain ⟨hlo, hhi⟩ := query_between (hanswers first).wide
  refine ⟨_, (playRound_eq_ok h).mpr ⟨hanswers, rfl⟩, ⟨?_, ?_, ?_, ?_, ?_⟩, ?_⟩
  · rw [hl, hl']
  · rw [hr, hr']
  · simp only [outcome_moved]
  · intro side
    simp only [rootOf_moved]
  · intro i side
    rw [hopened, hopened']
  · intro i side hi hi'
    rw [hl] at hi
    rw [hr] at hi'
    have hin : d.lo < i ∧ i < d.hi ∧ i ≠ d.query := by
      split_ifs at hi hi'
      · exact ⟨hlo.trans hi, hi', hi.ne'⟩
      · exact ⟨hi, hi'.trans hhi, hi'.ne⟩
    rw [hopened, if_neg hin.2.2]
    exact h i side hin.1 hin.2.1

theorem Alike.playRound (h : d.Alike e) (hround : d.playRound first answer = .ok d') :
    ∃ e', e.playRound first answer = .ok e' ∧ d'.Alike e' := by
  unfold Dispute.playRound at hround ⊢
  rw [bind_eq_ok] at hround
  obtain ⟨half, hhalf, hrest⟩ := hround
  obtain ⟨hanswers, rfl⟩ := play_eq_ok.mp hhalf
  obtain ⟨hanswers', rfl⟩ := play_eq_ok.mp hrest
  have hmoved := h.moved first (answer first)
  refine ⟨_, ?_, hmoved.moved first.other (answer first.other)⟩
  rw [bind_eq_ok]
  exact ⟨_, play_of_answers (h.answers hanswers), play_of_answers (hmoved.answers hanswers')⟩

omit [Sha256] in
theorem Alike.trans {f : Dispute} (h : d.Alike e) (h' : e.Alike f) : d.Alike f where
  lo := h.lo.trans h'.lo
  hi := h.hi.trans h'.hi
  outcome := h.outcome.trans h'.outcome
  root := fun side => (h.root side).trans (h'.root side)
  opened := fun i side => (h.opened i side).trans (h'.opened i side)

/-- Whoever answers first in each round, the same answers end alike. -/
theorem playRounds_alike (rounds : List (Side × (Side → Move))) :
    ∀ {others : List (Side × (Side → Move))} {d e d' : Dispute}, d.Boundary → d.Alike e →
      rounds.map Prod.snd = others.map Prod.snd → d.playRounds rounds = .ok d' →
      ∃ e', e.playRounds others = .ok e' ∧ d'.Alike e' := by
  induction rounds with
  | nil =>
    intro others d e d' _ halike hsame hplay
    obtain rfl : others = [] := by simpa using hsame.symm
    cases hplay
    exact ⟨e, rfl, halike⟩
  | cons round rounds ih =>
    intro others d e d' hboundary halike hsame hplay
    cases others with
    | nil => simp at hsame
    | cons other others =>
      rw [List.map_cons, List.map_cons, List.cons.injEq] at hsame
      unfold playRounds at hplay ⊢
      rw [bind_eq_ok] at hplay
      obtain ⟨next, hnext, hplay⟩ := hplay
      obtain ⟨swapped, hswapped, hlike, hboundary'⟩ := playRound_swap hboundary other.1 hnext
      obtain ⟨moved, hmoved, hlike'⟩ := halike.playRound hswapped
      rw [hsame.1] at hmoved
      obtain ⟨e', he', hlast⟩ := ih hboundary' (hlike.trans hlike') hsame.2 hplay
      refine ⟨e', ?_, hlast⟩
      rw [bind_eq_ok]
      exact ⟨moved, hmoved, he'⟩

theorem boundary_of_open (h : openDispute id defenderRoot challengerRoot length ends = .ok d) :
    d.Boundary := by
  obtain ⟨-, rfl⟩ := open_eq_ok h
  intro i side hi hi'
  dsimp only at hi hi'
  have hne : i ≠ 0 := by omega
  have hne' : i ≠ length - 1 := by omega
  simp [openedState, lookup_cons, hne, hne']

omit [Sha256] in
theorem Alike.refl (d : Dispute) : d.Alike d :=
  ⟨rfl, rfl, rfl, fun _ => rfl, fun _ _ => rfl⟩

/-- Bisection is sound and complete, over every run of moves from a dispute that
was opened. -/
theorem bisection {id defenderRoot challengerRoot : String} {length : Nat} {ends : Endpoints}
    {d : Dispute} (h : openDispute id defenderRoot challengerRoot length ends = .ok d)
    (moves : List (Side × Move)) :
    ((d.playAll moves).lo < (d.playAll moves).hi ∧
      (∃ s, (d.playAll moves).openedState (d.playAll moves).lo .defender = some s ∧
        (d.playAll moves).openedState (d.playAll moves).lo .challenger = some s) ∧
      ∃ s t, (d.playAll moves).openedState (d.playAll moves).hi .defender = some s ∧
        (d.playAll moves).openedState (d.playAll moves).hi .challenger = some t ∧ s ≠ t) ∧
    (∀ side m error, (d.playAll moves).play side m = .error error →
      d.playAll (moves ++ [(side, m)]) = d.playAll moves) ∧
    (∀ side m,
      ((d.playAll moves).completes side m = true ∧
        ((d.playAll (moves ++ [(side, m)])).width = ((d.playAll moves).width + 1) / 2 ∨
          (d.playAll (moves ++ [(side, m)])).width = (d.playAll moves).width / 2)) ∨
      ((d.playAll moves).completes side m = false ∧
        (d.playAll (moves ++ [(side, m)])).lo = (d.playAll moves).lo ∧
        (d.playAll (moves ++ [(side, m)])).hi = (d.playAll moves).hi)) ∧
    (roundsNeeded length ≤ d.rounds moves →
      (d.playAll moves).next = .adjudicate (d.playAll moves).lo) ∧
    (∀ n, (d.playAll moves).next = .adjudicate n → ∀ registry stepper,
      (∀ error, (d.playAll moves).adjudicate registry stepper = .error error →
        ∃ why, error = .stepper why) ∧
      ∀ step, (∀ v, stepper.step registry v = .ok (step v)) →
        ∀ side, (d.playAll moves).Genuine side step → ∃ d' outcome,
          (d.playAll moves).adjudicate registry stepper = .ok (d', outcome) ∧
            outcome.winner = side) ∧
    (∀ rounds others, rounds.map Prod.snd = others.map Prod.snd → ∀ e, d.playRounds rounds = .ok e →
      ∃ e', d.playRounds others = .ok e' ∧ e'.lo = e.lo ∧ e'.hi = e.hi ∧
        ∀ registry stepper, (e'.adjudicate registry stepper).map Prod.snd =
          (e.adjudicate registry stepper).map Prod.snd) ∧
    (∀ others, (∀ i side, (d.playAll moves).openedState i side =
        (d.playAll others).openedState i side) →
      (d.playAll moves).lo = (d.playAll others).lo ∧ (d.playAll moves).hi = (d.playAll others).hi) := by
  have hsearched := searched_of_open h
  have hinv := (bisecting_of_open h).playAll moves
  refine ⟨⟨hinv.lt, hinv.agreed, hinv.differ⟩, ?_, ?_, ?_, ?_, ?_, ?_⟩
  · intro side m error herror
    rw [playAll_concat]
    unfold tryPlay
    rw [herror]
  · intro side m
    rw [playAll_concat]
    exact width_tryPlay _ side m
  · intro hrounds
    apply hinv.next_eq
    apply width_le_one
    have hleft := roundsFrom_playAll moves d
    have hwidth : d.width = length - 1 := by
      obtain ⟨-, hd⟩ := open_eq_ok h
      rw [hd]
      rfl
    rw [hwidth] at hleft
    unfold roundsNeeded at hrounds
    omega
  · intro n hnext registry stepper
    have hnarrow := hinv.width_of_next hnext
    refine ⟨?_, fun step hstep side hgenuine => hinv.winner hnarrow hstep hgenuine⟩
    intro error herror
    obtain ⟨s, a, b, -, -, -, -, -, hfails, hdecides⟩ := hinv.adjudicate_eq hnarrow registry stepper
    cases hstep : stepper.step registry s with
    | error why => exact ⟨why, Except.error.inj (herror.symm.trans (hfails why hstep))⟩
    | ok truth =>
      obtain ⟨outcome, hok, -⟩ := hdecides truth hstep
      rw [hok] at herror
      cases herror
  · intro rounds others hsame e he
    obtain ⟨e', he', halike⟩ := playRounds_alike rounds (boundary_of_open h) (.refl d) hsame he
    exact ⟨e', he', halike.lo.symm, halike.hi.symm,
      fun registry stepper => (halike.adjudicate registry stepper).symm⟩
  · intro others hopened
    exact (hsearched.playAll moves).interval_eq (hsearched.playAll others) hopened

end Runs

/-! ## A dispute about one step -/

/-- A trace of two numbers, opened at one of them. -/
def sampleMove (index : Nat) (state : I128) (sibling : Nat) : Move where
  challenge := "c"
  index := index
  state := .int state
  path :=
    { index := index
      leaves := 2
      siblings := [DIGEST_PREFIX ++ String.ofList (hexEncode (digestOfNat sibling).toList)] }

def sampleEnds : Endpoints where
  defenderStart := sampleMove 0 (.ofUInt64 0)
    0x6b86b273ff34fce19d6b804eff5a3f5747ada4eaa22f1d49c01e52ddb7875b4b
  challengerStart := sampleMove 0 (.ofUInt64 0)
    0xd4735e3a265e16eee03f59718b9b5d03019c07d8b6c51f90da3a666eec13ab35
  defenderFinal := sampleMove 1 (.ofUInt64 1)
    0x5feceb66ffc86f38d952786c6d696c79c2dbc239dd4e91b46729d73a27fb57e9
  challengerFinal := sampleMove 1 (.ofUInt64 2)
    0x5feceb66ffc86f38d952786c6d696c79c2dbc239dd4e91b46729d73a27fb57e9

def sampleDefenderRoot : String :=
  "sha256:5c472b6b0a5369a37f4dfb632f417da009de3f15bcabf00c6010370f91fc5aa7"

def sampleChallengerRoot : String :=
  "sha256:29f65ac12067593918f9fb9cb1c78827afef6b86970b530afa18a1af035ee969"

/-- SHA-256 on the sample. -/
@[reducible] def sampleHash : Sha256 := .ofTable
  [("0", 0x5feceb66ffc86f38d952786c6d696c79c2dbc239dd4e91b46729d73a27fb57e9),
    ("1", 0x6b86b273ff34fce19d6b804eff5a3f5747ada4eaa22f1d49c01e52ddb7875b4b),
    ("2", 0xd4735e3a265e16eee03f59718b9b5d03019c07d8b6c51f90da3a666eec13ab35),
    ("sha256:5feceb66ffc86f38d952786c6d696c79c2dbc239dd4e91b46729d73a27fb57e9" ++
        "sha256:6b86b273ff34fce19d6b804eff5a3f5747ada4eaa22f1d49c01e52ddb7875b4b",
      0x5c472b6b0a5369a37f4dfb632f417da009de3f15bcabf00c6010370f91fc5aa7),
    ("sha256:5feceb66ffc86f38d952786c6d696c79c2dbc239dd4e91b46729d73a27fb57e9" ++
        "sha256:d4735e3a265e16eee03f59718b9b5d03019c07d8b6c51f90da3a666eec13ab35",
      0x29f65ac12067593918f9fb9cb1c78827afef6b86970b530afa18a1af035ee969)]

theorem bisection_sample : letI := sampleHash
    ∃ d, openDispute "c" sampleDefenderRoot sampleChallengerRoot 2 sampleEnds = .ok d ∧
      (d.playAll []).lo < (d.playAll []).hi := by
  let _ := sampleHash
  have hok : (openDispute "c" sampleDefenderRoot sampleChallengerRoot 2 sampleEnds).isOk = true := by
    decide +kernel
  cases hopen : openDispute "c" sampleDefenderRoot sampleChallengerRoot 2 sampleEnds with
  | error error =>
    rw [hopen] at hok
    cases hok
  | ok d => exact ⟨d, rfl, (bisection hopen []).1.1⟩

end Dispute

end Cairn.Ports
