import Cairn.Ports.Bisection
import Cairn.Ports.Canonical.Binding
import Cairn.Ports.Canonical.Size
import Cairn.Ports.Node.Moves
import Cairn.Ports.Node.Quiet
import Cairn.Ports.Node.Spending
import Mathlib.Data.List.Iterate

/-!
# The honest party of a dispute

A party that committed to a run of the step function and that never keeps the
log waiting past the window wins every dispute that is settled. Whatever is
opened under its root is a state of its run, so the one step that is run in the
end reproduces its own state. The challenger has to share the first state: two
traces with different starts are no dispute, and the defender keeps the bond.
-/

namespace Cairn.Ports

open Cairn.Verified
open Cairn.Ports.Canonical

namespace Log

variable [World]

/-! ## Where a dispute stands -/

/-- The endpoints nobody has opened yet. -/
def missingEnds (states : UInt64) (moves : List (Side × Move)) : List (Nat × Side) :=
  [(0, Side.defender), (0, .challenger), (states.toNat - 1, .defender),
    (states.toNat - 1, .challenger)].filter fun key => (endpoint moves key.1 key.2).isNone

/-- The moves that are no endpoints. -/
def innerMoves (states : UInt64) (moves : List (Side × Move)) : List (Side × Move) :=
  moves.filter fun p => p.2.index ≠ 0 && p.2.index ≠ states.toNat - 1

/-- The four moves a dispute is opened with. -/
structure Shows (states : UInt64) (moves : List (Side × Move)) (ends : Endpoints) : Prop where
  defenderStart : endpoint moves 0 .defender = some ends.defenderStart
  challengerStart : endpoint moves 0 .challenger = some ends.challengerStart
  defenderFinal : endpoint moves (states.toNat - 1) .defender = some ends.defenderFinal
  challengerFinal : endpoint moves (states.toNat - 1) .challenger = some ends.challengerFinal

/-- Where the moves of a challenge stand: endpoints are missing, or the four
cannot found a dispute, or they did and the other moves were played. -/
inductive Standing (challengeId : String) (challenge : Challenge) (defenderRoot : String)
    (states : UInt64) (moves : List (Side × Move)) : DisputeState → Prop where
  | awaiting (missing : missingEnds states moves ≠ []) :
      Standing challengeId challenge defenderRoot states moves
        (.awaitingEndpoints challenge (missingEnds states moves))
  | void {ends : Endpoints} {why : DisputeError} (shows : Shows states moves ends)
      (refused : Dispute.openDispute challengeId defenderRoot challenge.root states.toNat ends =
        .error why) :
      Standing challengeId challenge defenderRoot states moves (.void challenge why)
  | live {ends : Endpoints} {opened : Dispute} (shows : Shows states moves ends)
      (accepted : Dispute.openDispute challengeId defenderRoot challenge.root states.toNat ends =
        .ok opened) :
      Standing challengeId challenge defenderRoot states moves
        (.live challenge (opened.playAll (innerMoves states moves)))

variable {index : Nat} {moves : List (Side × Move)} {side : Side} {states : UInt64}
  {challengeId : String} {log : List Entry}

omit [World] in
theorem missingEnds_ne_nil (hindex : index = 0 ∨ index = states.toNat - 1)
    (h : endpoint moves index side = none) : (index, side) ∈ missingEnds states moves := by
  unfold missingEnds
  rw [List.mem_filter]
  refine ⟨?_, by rw [h]; rfl⟩
  cases side <;> obtain rfl | rfl := hindex <;> simp

/-- A dispute is where its recorded moves stand. -/
theorem dispute_eq {challenge : Challenge} {claim : Claim} {objective : Objective}
    {defenderRoot : String} (hknown : (challenges log).get? challengeId = some challenge)
    (hclaim : disputedClaim log challenge = some (claim, objective))
    (htrace : committedTrace claim = some (defenderRoot, states)) :
    ∃ state, dispute log challengeId = some state ∧
      Standing challengeId challenge defenderRoot states
        (sidedMoves log challenge challengeId states) state := by
  unfold dispute
  simp only [hknown, hclaim, htrace, Option.bind_eq_bind, Option.bind_some]
  generalize sidedMoves log challenge challengeId states = moves
  have hmissing : ∀ {index : Nat} {side : Side}, index = 0 ∨ index = states.toNat - 1 →
      endpoint moves index side = none → missingEnds states moves ≠ [] :=
    fun hindex hnone => List.ne_nil_of_mem (missingEnds_ne_nil hindex hnone)
  cases hds : endpoint moves 0 .defender with
  | none => exact ⟨_, rfl, .awaiting (hmissing (.inl rfl) hds)⟩
  | some ds =>
  cases hcs : endpoint moves 0 .challenger with
  | none => exact ⟨_, rfl, .awaiting (hmissing (.inl rfl) hcs)⟩
  | some cs =>
  cases hdf : endpoint moves (states.toNat - 1) .defender with
  | none => exact ⟨_, rfl, .awaiting (hmissing (.inr rfl) hdf)⟩
  | some df =>
  cases hcf : endpoint moves (states.toNat - 1) .challenger with
  | none => exact ⟨_, rfl, .awaiting (hmissing (.inr rfl) hcf)⟩
  | some cf =>
    have hshows : Shows states moves ⟨ds, cs, df, cf⟩ := ⟨hds, hcs, hdf, hcf⟩
    dsimp only
    cases hopen : Dispute.openDispute challengeId defenderRoot challenge.root states.toNat
        ⟨ds, cs, df, cf⟩ with
    | error why => exact ⟨_, rfl, .void hshows hopen⟩
    | ok opened => exact ⟨_, rfl, .live hshows hopen⟩

/-! ## The moves of a dispute -/

theorem mem_movesOf {record : BisectionMove} (h : record ∈ movesOf log challengeId) :
    ∃ e, (e, record) ∈ decoded .bisection BisectionMove.fromValue log ∧
      record.challengeId = challengeId := by
  unfold movesOf at h
  rw [List.mem_filter, List.mem_map] at h
  obtain ⟨⟨⟨e, r⟩, hmem, rfl⟩, hkeep⟩ := h
  exact ⟨e, hmem, by simpa using (Bool.and_eq_true_iff.mp hkeep).1⟩

theorem mem_sidedMoves {challenge : Challenge} {p : Side × Move}
    (h : p ∈ sidedMoves log challenge challengeId states) :
    ∃ record ∈ movesOf log challengeId, sideOf log challenge record.mover = some p.1 ∧
      p.2 = moveOf record states := by
  unfold sidedMoves at h
  rw [List.mem_filterMap] at h
  obtain ⟨record, hmem, hside⟩ := h
  rw [Option.map_eq_some_iff] at hside
  obtain ⟨side, hside, rfl⟩ := hside
  exact ⟨record, hmem, hside, rfl⟩

omit [World] in
theorem mem_of_endpoint {m : Move} (h : endpoint moves index side = some m) :
    (side, m) ∈ moves ∧ m.index = index := by
  unfold endpoint at h
  rw [Option.map_eq_some_iff] at h
  obtain ⟨⟨side', m'⟩, hfind, rfl⟩ := h
  have hkeep := List.find?_some hfind
  rw [Bool.and_eq_true, decide_eq_true_eq, decide_eq_true_eq] at hkeep
  obtain ⟨hindex, rfl⟩ := hkeep
  exact ⟨List.mem_of_find?_eq_some hfind, hindex⟩

/-- The texts a dispute about `run` hashes, with those that name its records. -/
def DisputeTexts (log : List Entry) (run : List Value) (states : UInt64) (text : String) : Prop :=
  RecordTexts log text ∨ ChallengeTexts log text ∨ CommittedTexts run text ∨
    ∃ p ∈ decoded .bisection BisectionMove.fromValue log,
      OpeningTexts (moveOf p.2 states).path p.2.state text

/-- A challenge of the log, the claim it is about, and a party whose root is
the root of a run. -/
structure Held (log : List Entry) (challengeId : String) (challenge : Challenge) (claim : Claim)
    (objective : Objective) (defenderRoot : String) (states : UInt64) (party : Side)
    (run : List Value) : Prop where
  known : (challenges log).get? challengeId = some challenge
  disputes : disputedClaim log challenge = some (claim, objective)
  trace : committedTrace claim = some (defenderRoot, states)
  length : run.length = states.toNat
  root : merkleRoot (run.map Value.digest) = some (party.rootOf defenderRoot challenge.root)
  noCollision : NoCollision (DisputeTexts log run states)

section Held

variable {log : List Entry} {challengeId : String} {challenge : Challenge} {claim : Claim}
    {objective : Objective} {defenderRoot : String} {states : UInt64} {party : Side}
    {run : List Value}
    (h : Held log challengeId challenge claim objective defenderRoot states party run)
include h

theorem Held.stableIds : StableIds log :=
  stableIds_of_noCollision (h.noCollision.mono fun _ ht => .inl ht)

theorem Held.stableChallenges : StableChallenges log :=
  stableChallenges_of_noCollision (h.noCollision.mono fun _ ht => .inr (.inl ht))

/-- A move that opens the party's root shows a state of its run. -/
theorem Held.state_of_opens {side : Side} {m : Move}
    (hmem : (side, m) ∈ sidedMoves log challenge challengeId states)
    (hopens : m.opens (party.rootOf defenderRoot challenge.root) = true) :
    run[m.index]? = some m.state := by
  obtain ⟨record, hrecord, -, hmove⟩ := mem_sidedMoves hmem
  obtain ⟨e, hdecoded, -⟩ := mem_movesOf hrecord
  dsimp only at hmove
  unfold Move.opens at hopens
  rw [Bool.and_eq_true, Bool.and_eq_true, decide_eq_true_eq] at hopens
  obtain ⟨⟨hindex, -⟩, hverify⟩ := hopens
  have hvalue := Inclusion.value_of_verify h.noCollision h.root (p := m.path) (v := m.state)
    (by rw [hmove, h.length]; rfl) (fun _ ht => .inr (.inr (.inl ht)))
    (fun _ ht => .inr (.inr (.inr ⟨_, hdecoded, by rw [hmove] at ht; exact ht⟩))) hverify
  rw [← hindex]
  exact hvalue

/-- Every recorded move opens the root of its side. -/
theorem Held.opens_of_mem (hstands : ∀ {e record},
      (e, record) ∈ decoded .bisection BisectionMove.fromValue log →
        ∃ challenge claim objective defenderRoot states side,
          MoveStands log record challenge claim objective defenderRoot states side)
    {p : Side × Move} (hmem : p ∈ sidedMoves log challenge challengeId states) :
    p.2.opens (p.1.rootOf defenderRoot challenge.root) = true := by
  obtain ⟨record, hrecord, hside, hmove⟩ := mem_sidedMoves hmem
  obtain ⟨e, hdecoded, hid⟩ := mem_movesOf hrecord
  obtain ⟨challenge', claim', objective', root', states', side', hmoves⟩ := hstands hdecoded
  have hknown := hmoves.known
  rw [hid, h.known, Option.some.injEq] at hknown
  have hdisputes := hmoves.disputes
  rw [← hknown, h.disputes, Option.some.injEq, Prod.mk.injEq] at hdisputes
  have htrace := hmoves.trace
  rw [← hdisputes.1, h.trace, Option.some.injEq, Prod.mk.injEq] at htrace
  have hparty := hmoves.party
  rw [← hknown, hside, Option.some.injEq] at hparty
  have hopens := hmoves.opens
  rw [← hknown, ← htrace.1, ← htrace.2, ← hparty] at hopens
  rw [hmove]
  exact hopens

/-- What the party opened are states of its run. -/
theorem Held.openedState {ends : Endpoints} {opened : Dispute}
    (hshows : Shows states (sidedMoves log challenge challengeId states) ends)
    (hopen : Dispute.openDispute challengeId defenderRoot challenge.root states.toNat ends =
      .ok opened) {i : Nat} {v : Value}
    (hv : (opened.playAll (innerMoves states (sidedMoves log challenge challengeId states))).openedState
      i party = some v) : run[i]? = some v := by
  obtain ⟨hchecked, hopened⟩ := Dispute.open_eq_ok hopen
  -- an endpoint under the party's root is a state of its run
  have hend : ∀ {index m}, endpoint (sidedMoves log challenge challengeId states) index party = some m →
      Dispute.checkEndpoint party (party.rootOf defenderRoot challenge.root) index m = .ok () →
      run[index]? = some m.state := by
    intro index m hm hcheck
    obtain ⟨hindex, hopens⟩ := Dispute.checkEndpoint_eq_ok.mp hcheck
    rw [← hindex]
    exact h.state_of_opens (mem_of_endpoint hm).1 hopens
  have hstart : (∀ side, opened.rootOf side = side.rootOf defenderRoot challenge.root) ∧
      ∀ i v, opened.openedState i party = some v → run[i]? = some v := by
    rw [hopened]
    refine ⟨fun side => by cases side <;> rfl, ?_⟩
    intro i v hv
    unfold Dispute.openedState at hv
    simp only [Dispute.lookup_cons, List.lookup_nil] at hv
    cases party with
    | defender =>
      have hfirst := hend hshows.defenderStart hchecked.defenderStart
      have hlast := hend hshows.defenderFinal hchecked.defenderFinal
      simp only [reduceCtorEq, and_false, and_true, if_false] at hv
      split_ifs at hv with hi hi'
      · rw [hi, ← Option.some.inj hv]
        exact hlast
      · rw [hi', ← Option.some.inj hv]
        exact hfirst
    | challenger =>
      have hfirst := hend hshows.challengerStart hchecked.challengerStart
      have hlast := hend hshows.challengerFinal hchecked.challengerFinal
      simp only [reduceCtorEq, and_false, and_true, if_false] at hv
      split_ifs at hv with hi hi'
      · rw [hi, ← Option.some.inj hv]
        exact hlast
      · rw [hi', ← Option.some.inj hv]
        exact hfirst
  refine (Dispute.playAll_induction_mem (P := fun d =>
    (∀ side, d.rootOf side = side.rootOf defenderRoot challenge.root) ∧
      ∀ i v, d.openedState i party = some v → run[i]? = some v) hstart _ ?_).2 i v hv
  rintro d ⟨side, m⟩ hmem hanswers ⟨hroots, hstates⟩
  dsimp only at hanswers ⊢
  refine ⟨fun s => by rw [Dispute.rootOf_moved, hroots], ?_⟩
  intro i v hv
  rw [Dispute.openedState_moved] at hv
  split_ifs at hv with hhere
  · obtain ⟨hi, hside⟩ := hhere
    have hopens := hanswers.opens
    rw [hroots, ← hside] at hopens
    rw [hi, ← hanswers.index, ← Option.some.inj hv]
    exact h.state_of_opens (List.mem_of_mem_filter hmem) hopens
  · exact hstates i v hv

end Held

/-! ## Time -/

/-- The log asks a side to open a state. -/
def Asks (log : List Entry) (challengeId : String) (side : Side) (index : Nat) : Prop :=
  match dispute log challengeId with
  | some (.awaitingEndpoints _ missing) => (index, side) ∈ missing
  | some (.live _ d) => ∃ waitingOn, d.next = .openAt index waitingOn ∧ side ∈ waitingOn
  | _ => False

/-- When the last move of a dispute was made; its opening is the first. -/
def lastMoved (log : List Entry) (challengeId : String) (challenge : Challenge) : String :=
  ((movesOf log challengeId).getLast?.map BisectionMove.createdAt).getD challenge.createdAt

/-- At `ts` the log does not ask the side for a state, or the window since the
last move is open. -/
def InTime (log : List Entry) (challengeId : String) (side : Side) (ts : String) : Prop :=
  ∀ challenge index last now, (challenges log).get? challengeId = some challenge →
    Asks log challengeId side index →
    epochOfTs (lastMoved log challengeId challenge) = some last → epochOfTs ts = some now →
      now.toNat ≤ satAdd last CHALLENGE_WINDOW_EPOCHS

variable {state : DisputeState}

/-- Who owes a move is asked for one. -/
theorem asks_of_owes (hstate : dispute log challengeId = some state) (howes : side ∈ owes state) :
    ∃ index, Asks log challengeId side index := by
  unfold Asks
  rw [hstate]
  cases state with
  | awaitingEndpoints challenge missing =>
    unfold owes at howes
    rw [List.mem_filter, List.any_eq_true] at howes
    obtain ⟨-, ⟨index, side'⟩, hmem, hside⟩ := howes
    obtain rfl : side' = side := by simpa using hside
    exact ⟨index, hmem⟩
  | live challenge d =>
    unfold owes at howes
    dsimp only at howes ⊢
    cases hnext : d.next with
    | openAt index waitingOn =>
      rw [hnext] at howes
      exact ⟨index, waitingOn, rfl, howes⟩
    | adjudicate agreed =>
      rw [hnext] at howes
      cases howes
    | done outcome =>
      rw [hnext] at howes
      cases howes
  | void challenge why => cases howes

/-- A side is overdue when it owes a move and the window since the last one has
run out. -/
theorem overdue_some {ts : String} (hstate : dispute log challengeId = some state)
    (h : overdue log challengeId ts = .ok (some side)) :
    side ∈ owes state ∧ ∃ last now, epochOfTs (lastMoved log challengeId state.challenge) = some last ∧
      epochOfTs ts = some now ∧ satAdd last CHALLENGE_WINDOW_EPOCHS < now.toNat := by
  unfold overdue at h
  rw [hstate] at h
  dsimp only at h
  split at h
  · next owing howes =>
      simp only [bind_eq_ok, Node.epochOfTimestamp_ok] at h
      obtain ⟨last, hlast, now, hnow, h⟩ := h
      split_ifs at h with hlate
      · cases h
        rw [howes]
        exact ⟨List.mem_singleton_self _, last, now, hlast, hnow, hlate⟩
      · cases h
  · next sides hsides =>
      split_ifs at h with hsilent
      · simp only [bind_eq_ok, Node.epochOfTimestamp_ok] at h
        obtain ⟨opened, hopened, now, hnow, h⟩ := h
        split_ifs at h with hlate
        · cases h
          refine ⟨hsilent.2, opened, now, ?_, hnow, hlate⟩
          unfold lastMoved
          rw [List.isEmpty_iff.mp hsilent.1]
          exact hopened
        · cases h
      · cases h

/-- A side in time is not overdue. -/
theorem InTime.not_overdue {ts : String} (h : InTime log challengeId side ts)
    (hstate : dispute log challengeId = some state)
    (hknown : (challenges log).get? challengeId = some state.challenge) :
    overdue log challengeId ts ≠ .ok (some side) := by
  intro hoverdue
  obtain ⟨howes, last, now, hlast, hnow, hlate⟩ := overdue_some hstate hoverdue
  obtain ⟨index, hasks⟩ := asks_of_owes hstate howes
  have hle := h state.challenge index last now hknown hasks hlast hnow
  omega

/-! ## Deciding -/

omit [World] in
theorem bind_okOr {ε α : Type} {x : Except ε (Option α)} {error : ε} {a : α}
    (h : x.bind (okOr error) = .ok a) : x = .ok (some a) := by
  have hbind : (x >>= okOr error) = .ok a := h
  obtain ⟨o, hx, ho⟩ := bind_eq_ok.mp hbind
  rw [hx, okOr_eq_ok.mp ho]

section Decide

variable {log : List Entry} {challengeId : String} {challenge : Challenge} {claim : Claim}
    {objective : Objective} {defenderRoot : String} {states : UInt64} {party : Side}
    {run : List Value}
    (h : Held log challengeId challenge claim objective defenderRoot states party run)
include h

theorem Held.standing : ∃ state, dispute log challengeId = some state ∧
    Standing challengeId challenge defenderRoot states
      (sidedMoves log challenge challengeId states) state :=
  dispute_eq h.known h.disputes h.trace

/-- The four endpoints of an honest challenger's dispute found it, if the other
trace starts with its first state and ends with another than its last. -/
theorem Held.not_void {ends : Endpoints} {why : DisputeError} (hparty : party = .challenger)
    (hchallenge : ∃ claim objective defenderRoot,
      ChallengeStands log challenge claim objective defenderRoot)
    (hopens : ∀ p ∈ sidedMoves log challenge challengeId states,
      p.2.opens (p.1.rootOf defenderRoot challenge.root) = true)
    (hstart : run[0]? = some ends.defenderStart.state)
    (hfinal : run[states.toNat - 1]? ≠ some ends.defenderFinal.state)
    (hshows : Shows states (sidedMoves log challenge challengeId states) ends) :
    Dispute.openDispute challengeId defenderRoot challenge.root states.toNat ends ≠ .error why := by
  intro hrefused
  obtain ⟨claim', objective', root', hstands⟩ := hchallenge
  have hdisputes := hstands.disputes
  rw [h.disputes, Option.some.injEq, Prod.mk.injEq] at hdisputes
  have htrace := hstands.trace
  rw [← hdisputes.1, h.trace, Option.some.injEq, Prod.mk.injEq] at htrace
  have hcontradicts := hstands.contradicts
  rw [← htrace.1] at hcontradicts
  have hlong := hstands.long
  rw [← htrace.2] at hlong
  have hcheck : ∀ {index side m}, endpoint (sidedMoves log challenge challengeId states) index side =
      some m → Dispute.checkEndpoint side (side.rootOf defenderRoot challenge.root) index m = .ok () := by
    intro index side m hm
    obtain ⟨hmem, hindex⟩ := mem_of_endpoint hm
    exact Dispute.checkEndpoint_eq_ok.mpr ⟨hindex, hopens _ hmem⟩
  have hrun : ∀ {index m}, endpoint (sidedMoves log challenge challengeId states) index .challenger =
      some m → run[index]? = some m.state := by
    intro index m hm
    obtain ⟨hmem, hindex⟩ := mem_of_endpoint hm
    rw [← hindex]
    apply h.state_of_opens hmem
    rw [hparty]
    exact hopens _ hmem
  have hchecked : Dispute.EndsChecked ends defenderRoot challenge.root states.toNat := by
    refine ⟨hlong, hcheck hshows.defenderStart, hcheck hshows.challengerStart,
      hcheck hshows.defenderFinal, hcheck hshows.challengerFinal, ?_, ?_⟩
    · rw [hrun hshows.challengerStart, Option.some.injEq] at hstart
      exact hstart.symm
    · rw [hrun hshows.challengerFinal, ne_eq, Option.some.injEq] at hfinal
      exact fun heq => hfinal heq.symm
  obtain ⟨d, hopen⟩ := @Dispute.open_of_checked _ challengeId _ _ _ _ hcontradicts hchecked
  rw [hopen] at hrefused
  cases hrefused

/-- A settlement is decided for the honest party. -/
theorem Held.decide_eq {registry : Registry} {ts : String} {state : DisputeState} {winner : Side}
    {why : String} {step : Value → Value} {start : Value}
    (hrun : run = List.iterate step start states.toNat)
    (hsteps : ∀ stepper, Stepper.fromSpec objective.verifier = .ok stepper → ∀ v truth,
      stepper.step registry v = .ok truth → truth = step v)
    (htime : InTime log challengeId party ts)
    (hvoid : ∀ c why, state = .void c why → party = .defender)
    (hstate : dispute log challengeId = some state)
    (hdecide : decideChallenge log registry challengeId ts state = .ok (winner, why)) :
    winner = party := by
  obtain ⟨state', hstate', hstanding⟩ := h.standing
  rw [hstate, Option.some.injEq] at hstate'
  subst hstate'
  have hlate : ∀ {side}, (overdue log challengeId ts = .ok (some side)) →
      state.challenge = challenge → side.other = party := by
    intro side hoverdue hsame
    have hnot := htime.not_overdue hstate (by rw [hsame]; exact h.known)
    cases side <;> cases party <;> simp_all [Side.other]
  unfold decideChallenge at hdecide
  cases hstanding with
  | awaiting missing =>
    simp only [bind_eq_ok, ensure_eq_ok] at hdecide
    obtain ⟨side, hside, ⟨⟩, -, hpair⟩ := hdecide
    cases hpair
    exact hlate (bind_okOr hside) rfl
  | void shows_ refused =>
    cases hdecide
    exact (hvoid _ _ rfl).symm
  | @live ends opened shows_ accepted =>
    have hbisecting := (Dispute.bisecting_of_open accepted).playAll
      (innerMoves states (sidedMoves log challenge challengeId states))
    have hgenuine : (opened.playAll (innerMoves states
        (sidedMoves log challenge challengeId states))).Genuine party step := by
      refine ⟨fun i => step^[i] start, fun i => Function.iterate_succ_apply' step i start, ?_⟩
      intro i v hv
      have hi := h.openedState shows_ accepted hv
      rw [hrun] at hi
      obtain ⟨hlt, hget⟩ := List.getElem?_eq_some_iff.mp hi
      rw [List.getElem_iterate] at hget
      exact hget.symm
    dsimp only at hdecide
    cases hnext : (opened.playAll (innerMoves states
        (sidedMoves log challenge challengeId states))).next with
    | adjudicate agreed =>
      rw [hnext] at hdecide
      simp only [bind_eq_ok, mapError_eq_ok, okOr_eq_ok, h.disputes] at hdecide
      obtain ⟨p, hp, stepper, hstepper, outcome, houtcome, hpair⟩ := hdecide
      cases hp
      cases hpair
      exact hbisecting.winner_of_decide hnext (hsteps stepper hstepper) hgenuine houtcome
    | openAt index waitingOn =>
      rw [hnext] at hdecide
      simp only [bind_eq_ok, ensure_eq_ok] at hdecide
      obtain ⟨side, hside, ⟨⟩, -, hpair⟩ := hdecide
      cases hpair
      exact hlate (bind_okOr hside) rfl
    | done outcome =>
      unfold Dispute.next at hnext
      rw [hbisecting.undecided] at hnext
      split_ifs at hnext

end Decide

/-! ## Earlier logs -/

section Earlier

variable {log log' : List Entry} (hp : log <+: log')
include hp

variable {challenge : Challenge} {claim : Claim} {objective : Objective}

theorem sideOf_eq_of_grown (hids : StableIds log')
    (hclaim : disputedClaim log challenge = some (claim, objective)) (mover : String) :
    sideOf log' challenge mover = sideOf log challenge mover := by
  unfold sideOf
  rw [hclaim, disputedClaim_of_grown hp hids hclaim]

omit hp in
theorem movesOf_append (xs ys : List Entry) (challengeId : String) :
    movesOf (xs ++ ys) challengeId = movesOf xs challengeId ++ movesOf ys challengeId := by
  simp [movesOf]

/-- The moves of a dispute only grow. -/
theorem sidedMoves_of_grown (hids : StableIds log')
    (hclaim : disputedClaim log challenge = some (claim, objective)) (challengeId : String)
    (states : UInt64) :
    sidedMoves log challenge challengeId states <+:
      sidedMoves log' challenge challengeId states := by
  have hside := funext (sideOf_eq_of_grown hp hids hclaim)
  obtain ⟨rest, rfl⟩ := hp
  unfold sidedMoves
  rw [movesOf_append, List.filterMap_append, hside]
  exact List.prefix_append _ _

omit [World] hp in
theorem endpoint_of_grown {moves moves' : List (Side × Move)} (hmoves : moves <+: moves')
    {index : Nat} {side : Side} {m : Move} (h : endpoint moves index side = some m) :
    endpoint moves' index side = some m := by
  obtain ⟨rest, rfl⟩ := hmoves
  unfold endpoint at h ⊢
  rw [Option.map_eq_some_iff] at h ⊢
  obtain ⟨p, hfind, hm⟩ := h
  refine ⟨p, ?_, hm⟩
  rw [List.find?_append, hfind]
  rfl

theorem DisputeTexts.of_prefix {run : List Value} {states : UInt64} {text : String}
    (h : DisputeTexts log run states text) : DisputeTexts log' run states text := by
  obtain h | ⟨p, hmem, ht⟩ | h | ⟨p, hmem, ht⟩ := h
  · exact .inl (h.of_prefix hp)
  · exact .inr (.inl ⟨p, decoded_of_grown hp hmem, ht⟩)
  · exact .inr (.inr (.inl h))
  · exact .inr (.inr (.inr ⟨p, decoded_of_grown hp hmem, ht⟩))

/-- A dispute that can be read on an earlier log is about the same challenge
and the same claim. -/
theorem Held.of_prefix {challengeId : String} {defenderRoot : String} {states : UInt64}
    {party : Side} {run : List Value}
    (h : Held log' challengeId challenge claim objective defenderRoot states party run)
    {state : DisputeState} (hstate : dispute log challengeId = some state) :
    Held log challengeId challenge claim objective defenderRoot states party run := by
  have hcol := h.noCollision.mono fun _ ht => DisputeTexts.of_prefix hp ht
  unfold dispute at hstate
  simp only [Option.bind_eq_bind, Option.bind_eq_some_iff] at hstate
  obtain ⟨challenge', hknown, ⟨claim', objective'⟩, hdisputes, -⟩ := hstate
  have hknown' := challenges_of_grown hp h.stableChallenges hknown
  rw [h.known, Option.some.injEq] at hknown'
  rw [← hknown'] at hknown hdisputes
  have hdisputes' := disputedClaim_of_grown hp h.stableIds hdisputes
  rw [h.disputes] at hdisputes'
  rw [← hdisputes'] at hdisputes
  exact ⟨hknown, hdisputes, h.trace, h.length, h.root, hcol⟩

end Earlier

/-! ## Answering -/

omit [World] in
theorem Shows.unique {ends ends' : Endpoints} (h : Shows states moves ends)
    (h' : Shows states moves ends') : ends = ends' := by
  obtain ⟨a, b, c, d⟩ := ends
  obtain ⟨a', b', c', d'⟩ := ends'
  have ha := h.defenderStart.symm.trans h'.defenderStart
  have hb := h.challengerStart.symm.trans h'.challengerStart
  have hc := h.defenderFinal.symm.trans h'.defenderFinal
  have hd := h.challengerFinal.symm.trans h'.challengerFinal
  simp only [Option.some.injEq] at ha hb hc hd
  rw [ha, hb, hc, hd]

omit [World] in
theorem mem_missingEnds (h : (index, side) ∈ missingEnds states moves) :
    (index = 0 ∨ index = states.toNat - 1) ∧ endpoint moves index side = none := by
  unfold missingEnds at h
  rw [List.mem_filter] at h
  obtain ⟨hneed, hnone⟩ := h
  refine ⟨?_, Option.isNone_iff_eq_none.mp hnone⟩
  simp only [List.mem_cons, Prod.mk.injEq, List.not_mem_nil, or_false] at hneed
  omega

end Log

namespace Node

variable [World]

open Log

theorem run_concat (n : Node) (ops : List Op) (op : Op) : n.run (ops ++ [op]) = (n.run ops).step op :=
  n.run_append ops [op]

omit [World] in
theorem payloadStr_challengeSettlementValue (challengeId claimId why loser winner : String)
    (units : UInt64) (side : Side) :
    payloadStr (challengeSettlementValue challengeId claimId why loser winner units side)
        "challenge_id" = some challengeId ∧
      payloadStr (challengeSettlementValue challengeId claimId why loser winner units side)
        "winning_side" = some side.asStr := by
  constructor
  · simp [payloadStr, challengeSettlementValue, Value.get_object, BTreeMap.lookupEntry]
  · simp [payloadStr, challengeSettlementValue, Value.get_object, BTreeMap.lookupEntry]

variable {challengeId : String} {challenge : Challenge} {claim : Claim} {objective : Objective}

/-- A recorded outcome names the dispute and the side it was decided for. -/
theorem challengeSettlement_ok {log : List Entry} {registry : Registry} {ts : String}
    {record : Value} (h : challengeSettlement log registry challengeId ts = .ok record) :
    ∃ state winner why, dispute log challengeId = some state ∧
      decideChallenge log registry challengeId ts state = .ok (winner, why) ∧
      payloadStr record "challenge_id" = some challengeId ∧
      payloadStr record "winning_side" = some winner.asStr := by
  unfold challengeSettlement at h
  simp only [bind_eq_ok, okOr_eq_ok] at h
  obtain ⟨state, hstate, ⟨winner, why⟩, hdecide, ⟨claim, objective⟩, -, hrecord⟩ := h
  refine ⟨state, winner, why, hstate, hdecide, ?_⟩
  cases winner with
  | defender =>
    cases hrecord
    exact payloadStr_challengeSettlementValue ..
  | challenger =>
    cases hrecord
    exact payloadStr_challengeSettlementValue ..

/-- An undecided dispute and the moves recorded in it. -/
structure Played (log : List Entry) (challengeId : String) (challenge : Challenge) (claim : Claim)
    (objective : Objective) (defenderRoot : String) (states : UInt64)
    (moves : List (Side × Move)) : Prop where
  known : (challenges log).get? challengeId = some challenge
  disputes : disputedClaim log challenge = some (claim, objective)
  trace : committedTrace claim = some (defenderRoot, states)
  undecided : challengeOutcome log challengeId = none
  moves : sidedMoves log challenge challengeId states = moves

/-- An opening the log asks for is admitted, and recorded last. -/
theorem Played.answer {n : Node} {record : BisectionMove} {ts : String} {epoch : UInt64}
    {defenderRoot : String} {states : UInt64} {moves : List (Side × Move)} {side : Side}
    (h : Played n.log record.challengeId challenge claim objective defenderRoot states moves)
    (hvalid : record.validate = .ok ()) (hsigned : record.verifySignature = .ok ())
    (hepoch : ensureRecordAdmissionEpoch "bisection" record.createdAt ts = .ok epoch)
    (hparty : sideOf n.log challenge record.mover = some side)
    (hopens : (moveOf record states).opens (side.rootOf defenderRoot challenge.root) = true)
    (hasks : Asks n.log record.challengeId side record.index.toNat) :
    n.postBisection record ts = (n.append .bisection record.toValue ts, .ok ()) ∧
      Played (n.append .bisection record.toValue ts).log record.challengeId challenge claim
        objective defenderRoot states (moves ++ [(side, moveOf record states)]) := by
  have hturn : checkTurn n.log record side states = .ok () := by
    obtain ⟨state, hstate, hstanding⟩ := dispute_eq h.known h.disputes h.trace
    unfold Asks at hasks
    rw [hstate] at hasks
    unfold checkTurn
    rw [hstate]
    cases hstanding with
    | awaiting missing =>
      simp only [bind_eq_ok, ensure_eq_ok]
      exact ⟨(), hasks, (mem_missingEnds hasks).1⟩
    | void shows_ refused => exact hasks.elim
    | live shows_ accepted =>
      obtain ⟨waitingOn, hnext, hside⟩ := hasks
      dsimp only
      rw [hnext]
      exact ensure_eq_ok.mpr ⟨rfl, hside⟩
  have hcheck : checkBisection n.log record ts = .ok () :=
    checkBisection_eq_ok.mpr ⟨hvalid, hsigned, ⟨epoch, hepoch⟩, h.undecided, challenge, claim,
      objective, defenderRoot, states, side, ⟨h.known, hparty, h.disputes, h.trace, hopens⟩, hturn⟩
  unfold postBisection post
  rw [hcheck]
  refine ⟨rfl, ?_⟩
  rw [log_append]
  -- a move changes none of the records a dispute is about
  have hkinds : ∀ (kind : EntryKind), kind ≠ .bisection →
      ofKind (n.log ++ [n.ledger.nextEntry EntryKind.bisection.asStr record.toValue ts]) kind =
        ofKind n.log kind := by
    intro kind hne
    rw [ofKind_append, List.append_right_eq_self]
    apply ofKind_eq_nil
    intro e he
    rw [List.mem_singleton.mp he, kind_nextEntry, ne_eq, EntryKind.asStr_inj]
    exact hne.symm
  have hdisputes : disputedClaim
      (n.log ++ [n.ledger.nextEntry EntryKind.bisection.asStr record.toValue ts]) challenge =
        disputedClaim n.log challenge := by
    unfold disputedClaim claimOf claims objectives decoded
    rw [hkinds _ (by decide), hkinds _ (by decide)]
  refine ⟨?_, hdisputes.trans h.disputes, h.trace, ?_, ?_⟩
  · unfold challenges decoded
    rw [hkinds _ (by decide)]
    exact h.known
  · unfold challengeOutcome
    rw [hkinds _ (by decide)]
    exact h.undecided
  · have hside : ∀ mover, sideOf
        (n.log ++ [n.ledger.nextEntry EntryKind.bisection.asStr record.toValue ts]) challenge
          mover = sideOf n.log challenge mover := by
      intro mover
      unfold sideOf
      rw [hdisputes]
    have hmoves : movesOf [n.ledger.nextEntry EntryKind.bisection.asStr record.toValue ts]
        record.challengeId = [record] := by
      simp [movesOf, decoded, ofKind, BisectionMove.fromValue_toValue, hvalid, hsigned, toOk,
        Except.map]
    rw [← h.moves]
    unfold sidedMoves
    rw [movesOf_append, List.filterMap_append, hmoves, funext hside]
    simp [hparty]

/-- An endpoint that nobody has opened for the side is asked for. -/
theorem Played.asks {log : List Entry} {defenderRoot : String} {states : UInt64}
    {moves : List (Side × Move)}
    (h : Played log challengeId challenge claim objective defenderRoot states moves) {index : Nat}
    {side : Side} (hindex : index = 0 ∨ index = states.toNat - 1)
    (hnone : endpoint moves index side = none) : Asks log challengeId side index := by
  obtain ⟨state, hstate, hstanding⟩ := dispute_eq h.known h.disputes h.trace
  rw [h.moves] at hstanding
  have hmissing : ∀ ends, ¬Shows states moves ends := by
    intro ends hshows
    obtain rfl | rfl := hindex
    · cases side with
      | defender => exact absurd (hnone.symm.trans hshows.defenderStart) (by simp)
      | challenger => exact absurd (hnone.symm.trans hshows.challengerStart) (by simp)
    · cases side with
      | defender => exact absurd (hnone.symm.trans hshows.defenderFinal) (by simp)
      | challenger => exact absurd (hnone.symm.trans hshows.challengerFinal) (by simp)
  unfold Asks
  rw [hstate]
  cases hstanding with
  | awaiting missing => exact missingEnds_ne_nil hindex hnone
  | void shows_ refused => exact (hmissing _ shows_).elim
  | live shows_ accepted => exact (hmissing _ shows_).elim

/-- The defender keeps the bond of a challenge that founds no dispute. -/
theorem settleChallenge_of_void {n : Node} {why : DisputeError}
    (hopen : challengeOutcome n.log challengeId = none)
    (hdisputes : disputedClaim n.log challenge = some (claim, objective))
    (hvoid : dispute n.log challengeId = some (.void challenge why)) (registry : Registry)
    (ts : String) :
    ∃ record, n.settleChallenge registry challengeId ts =
        (n.append .challengeSettlement record ts, .ok record) ∧
      payloadStr record "challenge_id" = some challengeId ∧
      payloadStr record "winning_side" = some Side.defender.asStr := by
  have hsettles : challengeSettlement n.log registry challengeId ts =
      .ok (challengeSettlementValue challengeId challenge.claimId
        ("the challenge was never well founded: " ++ why.display) challenge.challenger
        claim.submitter challenge.bond .defender) := by
    unfold challengeSettlement decideChallenge
    simp only [hvoid, okOr, bind, Except.bind, DisputeState.challenge, hdisputes, pure, Except.pure]
  have hpayload := payloadStr_challengeSettlementValue challengeId challenge.claimId
    ("the challenge was never well founded: " ++ why.display) challenge.challenger claim.submitter
    challenge.bond .defender
  refine ⟨_, ?_, hpayload⟩
  unfold settleChallenge
  rw [hopen]
  dsimp only
  rw [hsettles]

/-- Decided disputes are recorded by the calls that settle them. -/
theorem exists_settleChallenge {l : Ledger} (hempty : l.entries = []) (ops : List Op) {e : Entry}
    (he : e ∈ ofKind ((new l).run ops).log .challengeSettlement) :
    ∃ done registry id ts rest, ops = done ++ .settleChallenge registry id ts :: rest ∧
      challengeSettlement ((new l).run done).log registry id ts = .ok e.payload := by
  induction ops using List.reverseRecOn with
  | nil =>
    have hnew : ((new l).run []).log = [] := hempty
    rw [hnew] at he
    cases he
  | append_singleton ops op ih =>
    rw [run_concat] at he
    obtain ⟨new, hgrown, hwrites⟩ := ((Node.new l).run ops).step_write op
    rw [hgrown, ofKind_append, List.mem_append] at he
    obtain he | he := he
    · obtain ⟨done, registry, id, ts, rest, hops, hsettled⟩ := ih he
      refine ⟨done, registry, id, ts, rest ++ [op], ?_, hsettled⟩
      rw [hops, List.append_assoc, List.cons_append]
    · obtain ⟨hin, hkind⟩ := mem_ofKind.mp he
      have hop : op.kind = .challengeSettlement := by
        obtain hpayout | hverdict | hwrite := hwrites e hin
        · unfold IsPayout IsPayment at hpayout
          rw [hkind] at hpayout
          simp only [EntryKind.asStr_inj] at hpayout
          simp at hpayout
        · rw [hkind, EntryKind.asStr_inj] at hverdict
          cases hverdict
        · rw [hkind, EntryKind.asStr_inj] at hwrite
          exact hwrite.symm
      cases op with
      | settleChallenge registry id ts =>
        refine ⟨ops, registry, id, ts, [], rfl, ?_⟩
        have hlog : ((Node.new l).run ops).log ++ new =
          (((Node.new l).run ops).settleChallenge registry id ts).1.log := hgrown.symm
        unfold settleChallenge at hlog
        cases houtcome : challengeOutcome ((Node.new l).run ops).log id with
        | some existing =>
          rw [houtcome] at hlog
          rw [List.append_right_eq_self.mp hlog] at hin
          cases hin
        | none =>
          rw [houtcome] at hlog
          dsimp only at hlog
          cases hsettled : challengeSettlement ((Node.new l).run ops).log registry id ts with
          | error error =>
            rw [hsettled] at hlog
            rw [List.append_right_eq_self.mp hlog] at hin
            cases hin
          | ok record =>
            rw [hsettled] at hlog
            have hlog' : ((Node.new l).run ops).log ++ new =
              ((Node.new l).run ops).log ++ [_] := hlog
            rw [List.append_cancel_left_eq] at hlog'
            rw [hlog', List.mem_singleton] at hin
            rw [hin]
            rfl
      | _ => cases hop

/-- No settlement is recorded against an honest party: one that committed to the
run of `step` from `start`, and that the log is not left waiting for. The
challenger's dispute has to be one: the opponent's trace starts with the same
state and ends with another. -/
theorem settleChallenge_honest (l : Ledger) (hempty : l.entries = []) (ops : List Op)
    (challengeId : String) (party : Side) {challenge : Challenge} {claim : Claim}
    {objective : Objective} {defenderRoot : String} {states : UInt64} (step : Value → Value)
    (start : Value)
    (hheld : Held ((new l).run ops).log challengeId challenge claim objective defenderRoot states
      party (List.iterate step start states.toNat))
    (hsteps : ∀ registry ts stepper, Op.settleChallenge registry challengeId ts ∈ ops →
      Stepper.fromSpec objective.verifier = .ok stepper → ∀ v truth,
        stepper.step registry v = .ok truth → truth = step v)
    (htime : ∀ done registry ts rest, ops = done ++ .settleChallenge registry challengeId ts :: rest →
      InTime ((new l).run done).log challengeId party ts)
    (hdiffer : party = .challenger → ∀ moves,
      moves = sidedMoves ((new l).run ops).log challenge challengeId states →
      (∀ m, endpoint moves 0 .defender = some m → m.state = start) ∧
        ∀ m, endpoint moves (states.toNat - 1) .defender = some m →
          m.state ≠ step^[states.toNat - 1] start) :
    ∀ e ∈ ofKind ((new l).run ops).log .challengeSettlement,
      payloadStr e.payload "challenge_id" = some challengeId →
        payloadStr e.payload "winning_side" = some party.asStr := by
  intro e he hid
  obtain ⟨done, registry, id, ts, rest, hops, hsettled⟩ := exists_settleChallenge hempty ops he
  obtain ⟨state, winner, why, hstate, hdecide, hid', hwinner⟩ := challengeSettlement_ok hsettled
  rw [hid', Option.some.injEq] at hid
  subst hid
  have hnew : (new l).log = [] := hempty
  have hreaches := (new l).run_reaches done
  have hp : ((new l).run done).log <+: ((new l).run ops).log := by
    rw [hops, run_append]
    exact (run_reaches _ _).prefix_log
  have hthen := hheld.of_prefix hp hstate
  have hmember : Op.settleChallenge registry id ts ∈ ops := by
    rw [hops]
    simp
  rw [hwinner, hthen.decide_eq rfl (fun stepper => hsteps registry ts stepper hmember)
    (htime done registry ts rest hops) _ hstate hdecide]
  intro c why' hvoid
  obtain ⟨state', hstate', hstanding⟩ := hthen.standing
  rw [hstate, Option.some.injEq, hvoid] at hstate'
  rw [← hstate'] at hstanding
  by_contra hdefender
  have hparty : party = .challenger := by
    cases party with
    | defender => exact absurd rfl hdefender
    | challenger => rfl
  obtain ⟨hstart, hfinal⟩ := hdiffer hparty _ rfl
  have hmoves := sidedMoves_of_grown hp hheld.stableIds hthen.disputes id states
  cases hstanding with
  | @void ends _ shows_ refused =>
    have hchallenge := hreaches.challengeStands hnew hthen.stableIds hthen.stableChallenges hthen.known
    have hlong : 0 < states.toNat := by
      obtain ⟨claim', objective', root', hstands⟩ := hchallenge
      have hdisputes := hstands.disputes
      rw [hthen.disputes, Option.some.injEq, Prod.mk.injEq] at hdisputes
      have htrace := hstands.trace
      rw [← hdisputes.1, hthen.trace, Option.some.injEq, Prod.mk.injEq] at htrace
      have hlong := hstands.long
      rw [← htrace.2] at hlong
      omega
    apply hthen.not_void hparty hchallenge
      (fun p hmem => hthen.opens_of_mem
        (fun h => hreaches.moveStands hnew hthen.stableIds hthen.stableChallenges h) hmem) _ _
      shows_ refused
    · rw [List.getElem?_iterate _ _ _ _ hlong,
        hstart _ (endpoint_of_grown hmoves shows_.defenderStart)]
      rfl
    · rw [List.getElem?_iterate _ _ _ _ (by omega), ne_eq, Option.some.injEq]
      exact (hfinal _ (endpoint_of_grown hmoves shows_.defenderFinal)).symm

end Node

/-! ## Two traces that start apart -/

/-- The texts of the run below by their lengths, but for the two joined ones. -/
def sampleDisputeDigests : List (Nat × Nat) :=
  [(1, 0x5feceb66ffc86f38d952786c6d696c79c2dbc239dd4e91b46729d73a27fb57e9),
    (2, 0x4a44dc15364204a80fe80e9039455cc1608281820fe2b24f1e5233ade6af1dd5),
    (3, 0x0604cd3138feed202ef293e062da2f4720f77a05d25ee036a7a01c9cfcdd1f0a),
    (4, 0xb698d86c67a2cff80405bd47af322216c552fd3a52f9c58a70f7b3a3313895b1),
    (75, 0x01241e47c65ebacd5746a0d59615fb32fe826b8dd066c0688e6a082e52b41982),
    (138, 0x43abc843e2a60e6a6626920f82a36b0702379cc1d9c0b60613797ae64115a9fb),
    (207, 0x8b50086acb024f9238b5a0a8ce07c2a80ef2c5f3ed9cdf5bcfe8210cce4838d9),
    (208, 0x3f59f9926094b3273d6939e330223883a065c77cae7e9e2bb0fd0e1e44f1a7d6),
    (287, 0xa92bf45fdf82ba6aedf23787af1e5af991460ff521f6043e81438d19b03613c9),
    (377, 0xc73bb6c57a86bee89c03bf682c03d6581ec0544e50ef831d5b043f6b4be4e30a),
    (449, 0x698aa2a98843a7035a73d4ae20686961d496854139b6d630039d5c519a4319ab),
    (465, 0x3157320d14f667d291fe08d180b44a6bf2eeece76e140730943e4cfaaf68e0fe),
    (503, 0xec771696410538425229e90bbaa638162016d50435e27ec4f7dd0898e1985f43),
    (598, 0x9ea669d68b26d07d696552c2012bc696115196aab805c16ecf47755e0246300a),
    (613, 0xee91eb07b46eae023723456428224ee079c0561f389467f6405041ed7c9ca414),
    (614, 0xced7ab6ebf608f52f5dde812d9134167a5ec630e7bd2622370307a95c8d843d5),
    (615, 0xa5103cff9710bb948f83b6ec6baaaf613e7f9752717acd887222c3040a843129),
    (616, 0xf0c59aef875c9e94923f86a6a8e19f121823fa5f5e95863b2471b15f9fa235b5),
    (617, 0x442f266d0db3f22b3388b561d5d96f304b98cab00bc34d7eca0537cf9d7c4108),
    (647, 0xf6420d082f7bba996dcaddfa3f8e1c47954dccb19b5ef0e9cd89dbf39392ee0b),
    (654, 0x53bd47f27d8a57204c9fe4fd2762905c90fdc8b8bb4f481afdd2d377466cd28d)]

/-- The two trees of two leaves. -/
def sampleJoinDigests : List (String × Nat) :=
  [("sha256:0604cd3138feed202ef293e062da2f4720f77a05d25ee036a7a01c9cfcdd1f0a" ++
      "sha256:b698d86c67a2cff80405bd47af322216c552fd3a52f9c58a70f7b3a3313895b1",
      0x20d65a6138b2ab85bb8795ab2b3f536dd3c8cdb729b72566b20b5314313c5390),
    ("sha256:5feceb66ffc86f38d952786c6d696c79c2dbc239dd4e91b46729d73a27fb57e9" ++
      "sha256:4a44dc15364204a80fe80e9039455cc1608281820fe2b24f1e5233ade6af1dd5",
      0xd673f88a415fc03e436ef75f0b404378175bb5727ab3049393295f139d19da17)]

@[reducible] def sampleDisputeHash : Sha256 where
  hash data :=
    if data.size = 142 then (Sha256.ofTable sampleJoinDigests).hash data
    else (Sha256.ofLengths sampleDisputeDigests).hash data

/-- The signatures below are good ones. -/
@[reducible] def sampleDisputeWorld : World :=
  { sampleWorld with
    toSha256 := sampleDisputeHash
    verifyValue _ _ _ := true }

def sampleObjector : String := "8139770ea87d175f56a35466c34c7ecccb8d8a91b4ee37a25df60f5b8fc9b394"

/-- A replayed job with a step function. -/
def sampleTraceJob : Objective :=
  Objective.new "count" "count on"
    (.object [("kind", .string "replay"), ("stepper", .object [("code", .string "c"),
      ("code_sha256", .string "s"), ("entrypoint", .string "e")])])
    1 "fund" "2026-01-01T00:00:00Z" none none

def sampleTraceJobId : String :=
  "sha256:3f59f9926094b3273d6939e330223883a065c77cae7e9e2bb0fd0e1e44f1a7d6"

/-- The root over 500 and 7000. -/
def sampleTraceRoot : String :=
  "sha256:20d65a6138b2ab85bb8795ab2b3f536dd3c8cdb729b72566b20b5314313c5390"

def sampleTraceClaim : Claim where
  objectiveId := sampleTraceJobId
  submitter := sampleHolder
  artifact := .object [("trace_root", .string sampleTraceRoot), ("trace_states", u64Value 2)]
  nonce := "n"
  createdAt := "2026-01-01T00:10:00Z"
  cites := []
  relations := []
  signature := some ("2bdef9a4335d4574fa58b56d926de71d8ce22c3cb6d67426f4ddab7f398cd7e9" ++
    "66fc28e7c6377c991f34926779e4453a6e3803a8785616f13acab19702fd9c02")

def sampleTraceClaimId : String :=
  "sha256:ec771696410538425229e90bbaa638162016d50435e27ec4f7dd0898e1985f43"

/-- The objection commits to 0 and 10. -/
def sampleObjection : Challenge where
  claimId := sampleTraceClaimId
  challenger := sampleObjector
  root := "sha256:d673f88a415fc03e436ef75f0b404378175bb5727ab3049393295f139d19da17"
  states := 2
  bond := 1
  createdAt := "2026-01-01T00:10:00Z"
  signature := some ("2d51d73fb88c1cd45551db7e55afec8517381b5ad6aa401f3961946d7631394a" ++
    "a4aa9ddfd11cd44cd76b83e99ecffc40a3a93512077c3601fabebde9fdf0b001")

def sampleObjectionId : String :=
  "sha256:3157320d14f667d291fe08d180b44a6bf2eeece76e140730943e4cfaaf68e0fe"

def sampleDefenderStart : BisectionMove where
  challengeId := sampleObjectionId
  mover := sampleHolder
  index := 0
  state := u64Value 500
  path := ["sha256:b698d86c67a2cff80405bd47af322216c552fd3a52f9c58a70f7b3a3313895b1"]
  createdAt := "2026-01-01T00:10:00Z"
  signature := some ("2cefaaaf073bb3734a5a4b7f68c9e12053bf70d8ed1082fec15a12ab11eab734" ++
    "4fde9ec7bb23ad8131cf97c6e868bc4349b713a85634ef126405c3581522e808")

def sampleDefenderFinal : BisectionMove where
  challengeId := sampleObjectionId
  mover := sampleHolder
  index := 1
  state := u64Value 7000
  path := ["sha256:0604cd3138feed202ef293e062da2f4720f77a05d25ee036a7a01c9cfcdd1f0a"]
  createdAt := "2026-01-01T00:10:00Z"
  signature := some ("9677dcc1b715dcf50c14d167425926902b5adacc5822f4f695faea5bcdbd9c57" ++
    "d4aaacd377df88281fc4b020f8432c16d6450828c79fe8c4c9be57e4dd110109")

def sampleChallengerStart : BisectionMove where
  challengeId := sampleObjectionId
  mover := sampleObjector
  index := 0
  state := u64Value 0
  path := ["sha256:4a44dc15364204a80fe80e9039455cc1608281820fe2b24f1e5233ade6af1dd5"]
  createdAt := "2026-01-01T00:10:00Z"
  signature := some ("ce75451543d89127563d9d2ece44f1c85da865a3f624e3be8b2318e1485a44bd" ++
    "3551179e15b7f94694b69e5fb1ec970670f831cee470af88e6f30baf3db97d02")

def sampleChallengerFinal : BisectionMove where
  challengeId := sampleObjectionId
  mover := sampleObjector
  index := 1
  state := u64Value 10
  path := ["sha256:5feceb66ffc86f38d952786c6d696c79c2dbc239dd4e91b46729d73a27fb57e9"]
  createdAt := "2026-01-01T00:10:00Z"
  signature := some ("52c48603f746750edc840fd07acbd2f99bd9d3a24506efe7aa953bb75936fa32" ++
    "8a269fdc05c92edf03ea1f0880113f7bda185b764a942deff4390bab5b27640e")

/-- Up to the challenge. -/
def sampleDisputeOpening : letI := sampleDisputeWorld; List Op :=
  letI := sampleDisputeWorld
  [.postObjective sampleTraceJob "2026-01-01T00:00:00Z",
    .commit ⟨sampleTraceJobId, sampleHolder,
      "sha256:43abc843e2a60e6a6626920f82a36b0702379cc1d9c0b60613797ae64115a9fb",
      "2026-01-01T00:00:00Z", none,
      some ("809789e29d3a651b888284d58dffe5811684d1541f9f179f0dcdb8eba0bb9803" ++
        "58681c38923ea2dbc9db6becd1d912b9fb4b448532a442f631582c6a2739e10b")⟩
      "2026-01-01T00:00:00Z",
    .reveal sampleRegistry sampleTraceClaim "2026-01-01T00:10:00Z",
    .postChallenge sampleObjection "2026-01-01T00:10:00Z"]

/-- Both sides open their ends. -/
def sampleDisputeMoves : List BisectionMove :=
  [sampleDefenderStart, sampleDefenderFinal, sampleChallengerStart, sampleChallengerFinal]

def sampleDisputeOps : letI := sampleDisputeWorld; List Op :=
  letI := sampleDisputeWorld
  sampleDisputeOpening ++
    sampleDisputeMoves.map fun record => .postBisection record "2026-01-01T00:10:00Z"

/-- The texts of the dispute: its states, the roots over them, its records. -/
def sampleDisputeTexts : List String :=
  ["500", "7000", "0", "10",
    "sha256:0604cd3138feed202ef293e062da2f4720f77a05d25ee036a7a01c9cfcdd1f0a" ++
      "sha256:b698d86c67a2cff80405bd47af322216c552fd3a52f9c58a70f7b3a3313895b1",
    "sha256:5feceb66ffc86f38d952786c6d696c79c2dbc239dd4e91b46729d73a27fb57e9" ++
      "sha256:4a44dc15364204a80fe80e9039455cc1608281820fe2b24f1e5233ade6af1dd5",
    sampleTraceJob.toValue.canonicalString, sampleTraceJob.verifier.canonicalString,
    sampleTraceClaim.toValue.canonicalString, sampleObjection.toValue.canonicalString]

section Opening

attribute [local instance] sampleDisputeWorld

/-- Everything but the joined texts is told apart by its length. -/
theorem sampleDispute_digest {n : Nat} (hn : n ≠ 142) {data : ByteArray} (h : data.size = n) :
    digestBytes data = DIGEST_PREFIX ++ String.ofList (hexEncode (digestOfNat
      (((sampleDisputeDigests.find? fun row => row.1 = n).map Prod.snd).getD 0)).toList) := by
  subst h
  unfold digestBytes
  rw [show Sha256.hash data = (Sha256.ofLengths sampleDisputeDigests).hash data from if_neg hn]
  rfl

theorem sampleDispute_ids :
    (sampleTraceJob.id = sampleTraceJobId ∧ sampleTraceClaim.id = sampleTraceClaimId ∧
      sampleObjection.id = sampleObjectionId) ∧
    sampleTraceJob.verifier.digest =
      "sha256:01241e47c65ebacd5746a0d59615fb32fe826b8dd066c0688e6a082e52b41982" ∧
    (Value.object [("objective_id", .string sampleTraceClaim.objectiveId),
      ("artifact", sampleTraceClaim.artifact)]).digest =
        "sha256:8b50086acb024f9238b5a0a8ce07c2a80ef2c5f3ed9cdf5bcfe8210cce4838d9" := by
  refine ⟨⟨?_, ?_, ?_⟩, ?_, ?_⟩
  · exact Value.digest_of_size (n := 208)
      (fun _ h => (sampleDispute_digest (by decide) h).trans (by decide)) (by decide +kernel)
  · exact Value.digest_of_size (n := 503)
      (fun _ h => (sampleDispute_digest (by decide) h).trans (by decide)) (by decide +kernel)
  · exact Value.digest_of_size (n := 465)
      (fun _ h => (sampleDispute_digest (by decide) h).trans (by decide)) (by decide +kernel)
  · exact Value.digest_of_size (n := 75)
      (fun _ h => (sampleDispute_digest (by decide) h).trans (by decide)) (by decide +kernel)
  · exact Value.digest_of_size (n := 207)
      (fun _ h => (sampleDispute_digest (by decide) h).trans (by decide)) (by decide +kernel)

theorem sampleTraceClaim_id : sampleTraceClaim.id = sampleTraceClaimId := sampleDispute_ids.1.2.1

theorem sampleTraceClaim_hash : sampleTraceClaim.commitmentHash =
    "sha256:43abc843e2a60e6a6626920f82a36b0702379cc1d9c0b60613797ae64115a9fb" := by
  unfold Claim.commitmentHash Cairn.Ports.commitmentHash commitmentPreimage
  rw [sampleDispute_ids.2.2]
  decide +kernel

theorem sampleDisputeHash_join {data : ByteArray} (h : data.size = 142) :
    sampleDisputeHash.hash data = (Sha256.ofTable sampleJoinDigests).hash data := if_pos h

/-- The states of both runs, and the roots over them. -/
theorem sampleDispute_states :
    (digestText "500" =
        "sha256:0604cd3138feed202ef293e062da2f4720f77a05d25ee036a7a01c9cfcdd1f0a" ∧
      digestText "7000" =
        "sha256:b698d86c67a2cff80405bd47af322216c552fd3a52f9c58a70f7b3a3313895b1" ∧
      digestText "0" =
        "sha256:5feceb66ffc86f38d952786c6d696c79c2dbc239dd4e91b46729d73a27fb57e9" ∧
      digestText "10" =
        "sha256:4a44dc15364204a80fe80e9039455cc1608281820fe2b24f1e5233ade6af1dd5") ∧
    digestText ("sha256:0604cd3138feed202ef293e062da2f4720f77a05d25ee036a7a01c9cfcdd1f0a" ++
      "sha256:b698d86c67a2cff80405bd47af322216c552fd3a52f9c58a70f7b3a3313895b1") =
        sampleTraceRoot ∧
    digestText ("sha256:5feceb66ffc86f38d952786c6d696c79c2dbc239dd4e91b46729d73a27fb57e9" ++
      "sha256:4a44dc15364204a80fe80e9039455cc1608281820fe2b24f1e5233ade6af1dd5") =
        sampleObjection.root := by
  have hjoin : ∀ (left right : String) (d : Nat), left.utf8ByteSize = 71 →
      right.utf8ByteSize = 71 →
      (sampleJoinDigests.find? fun row => row.1 = left ++ right).map Prod.snd = some d →
      digestText (left ++ right) =
        DIGEST_PREFIX ++ String.ofList (hexEncode (digestOfNat d).toList) := by
    intro left right d hleft hright hrow
    have hsize : (left ++ right).toUTF8.size = 142 := by
      show (left ++ right).utf8ByteSize = 142
      rw [String.utf8ByteSize_append, hleft, hright]
    show DIGEST_PREFIX ++ String.ofList (hexEncode (sampleDisputeHash.hash _).toList) = _
    rw [sampleDisputeHash_join hsize, Sha256.hash_ofTable, hrow]
    rfl
  refine ⟨⟨?_, ?_, ?_, ?_⟩, ?_, ?_⟩
  · decide +kernel
  · decide +kernel
  · decide +kernel
  · decide +kernel
  · rw [hjoin _ _ 0x20d65a6138b2ab85bb8795ab2b3f536dd3c8cdb729b72566b20b5314313c5390
      (by decide +kernel) (by decide +kernel) ?_]
    · decide +kernel
    · unfold sampleJoinDigests
      rw [List.find?_cons_of_pos (by simp)]
      rfl
  · rw [hjoin _ _ 0xd673f88a415fc03e436ef75f0b404378175bb5727ab3049393295f139d19da17
      (by decide +kernel) (by decide +kernel) ?_]
    · decide +kernel
    · unfold sampleJoinDigests
      rw [List.find?_cons_of_neg, List.find?_cons_of_pos (by simp)]
      · rfl
      · decide +kernel

/-- No two texts of the dispute have one digest. -/
theorem sampleDispute_apart : (sampleDisputeTexts.map digestText).Nodup := by
  rcases sampleDispute_states with ⟨⟨hone, htwo, hthree, hfour⟩, hroot, hother⟩
  show [digestText "500", digestText "7000", digestText "0", digestText "10", digestText (_ ++ _),
    digestText (_ ++ _), sampleTraceJob.id, sampleTraceJob.verifier.digest, sampleTraceClaim.id,
    sampleObjection.id].Nodup
  rw [hone, htwo, hthree, hfour, hroot, hother, sampleDispute_ids.1.1, sampleDispute_ids.2.1,
    sampleTraceClaim_id, sampleDispute_ids.1.2.2]
  decide

/-! ## The opening of the run, one append after another -/

def sampleAgreed : Commitment where
  objectiveId := sampleTraceJobId
  submitter := sampleHolder
  hash := "sha256:43abc843e2a60e6a6626920f82a36b0702379cc1d9c0b60613797ae64115a9fb"
  createdAt := "2026-01-01T00:00:00Z"
  envelope := none
  signature := some ("809789e29d3a651b888284d58dffe5811684d1541f9f179f0dcdb8eba0bb9803" ++
    "58681c38923ea2dbc9db6becd1d912b9fb4b448532a442f631582c6a2739e10b")

def sampleTraceLedgerOne : Ledger :=
  ((Node.new (sampleLog [])).append .objective sampleTraceJob.toValue
    "2026-01-01T00:00:00Z").ledger

def sampleTraceLedgerTwo : Ledger :=
  ((Node.new sampleTraceLedgerOne).append .commitment sampleAgreed.toValue
    "2026-01-01T00:00:00Z").ledger

def sampleTraceLedgerThree : Ledger :=
  (((Node.new sampleTraceLedgerTwo).append .claim sampleTraceClaim.toValue
    "2026-01-01T00:10:00Z").append .verdict (verdictValue sampleTraceClaim
      (sampleRegistry.run sampleTraceJob.verifier sampleTraceClaim.artifact))
      "2026-01-01T00:10:00Z").ledger

def sampleTraceLedgerFour : Ledger :=
  ((Node.new sampleTraceLedgerThree).append .challenge sampleObjection.toValue
    "2026-01-01T00:10:00Z").ledger

theorem sampleTraceJob_decodes :
    Objective.fromValue sampleTraceJob.toValue = .ok sampleTraceJob := by
  have hvalid : sampleTraceJob.validate = .ok () := by decide
  rw [Objective.fromValue_toValue,
    Objective.stripNulls_of_noNulls (Objective.noNulls_of_validate hvalid), hvalid]
  rfl

theorem sampleTraceClaim_decodes :
    Claim.fromValue sampleTraceClaim.toValue = .ok sampleTraceClaim :=
  Claim.fromValue_toValue_iff.mpr ⟨rfl, toOk_eq_some (by decide)⟩

/-- What is checked of the records up to the challenge. -/
theorem sampleTrace_checks :
    (sampleObjection.validate = .ok () ∧ sampleObjection.verifySignature = .ok () ∧
      ensureRecordAdmissionEpoch "challenge" sampleObjection.createdAt "2026-01-01T00:10:00Z" =
        .ok 2945377) ∧
    Log.commitEpoch sampleAgreed "2026-01-01T00:00:00Z" = .ok 2945376 ∧
    Log.revealEpoch sampleTraceLedgerTwo.entries sampleTraceClaim sampleTraceClaim.createdAt =
      .ok 2945377 ∧
    Log.checkOpens ((Node.new sampleTraceLedgerOne).ledger.nextEntry "commitment"
      sampleAgreed.toValue "2026-01-01T00:00:00Z") 2945377 = .ok () := by
  refine ⟨⟨toOk_eq_some ?_, toOk_eq_some ?_, toOk_eq_some ?_⟩, toOk_eq_some ?_, toOk_eq_some ?_,
    toOk_eq_some ?_⟩
  all_goals decide +kernel

theorem sampleObjection_decodes :
    Challenge.fromValue sampleObjection.toValue = .ok sampleObjection := by
  rw [Challenge.fromValue_toValue, sampleTrace_checks.1.1]
  rfl

/-- The objective is known by its id to a log that begins with it. -/
theorem sampleTrace_known {log : List Entry} {e : Entry}
    (hpayload : e.payload = sampleTraceJob.toValue) (hone : Log.ofKind log .objective = [e]) :
    Log.decoded .objective Objective.fromValue log = [(e, sampleTraceJob)] ∧
      (Log.objectives log).get? sampleTraceJobId = some sampleTraceJob := by
  have hdecoded : Log.decoded .objective Objective.fromValue log = [(e, sampleTraceJob)] := by
    rw [Log.decoded, hone, List.filterMap_cons, hpayload, sampleTraceJob_decodes]
    rfl
  refine ⟨hdecoded, ?_⟩
  rw [Log.objectives, hdecoded, List.map_singleton, sampleDispute_ids.1.1]
  rfl

theorem sampleTrace_claimed {log : List Entry} {e : Entry}
    (hpayload : e.payload = sampleTraceClaim.toValue) (hone : Log.ofKind log .claim = [e]) :
    Log.claims log = [(e, sampleTraceClaim)] := by
  rw [Log.claims, Log.decoded, hone, List.filterMap_cons, hpayload, sampleTraceClaim_decodes]
  rfl

theorem sampleTraceLedgerOne_known :
    (Log.objectives sampleTraceLedgerOne.entries).get? sampleTraceJobId = some sampleTraceJob :=
  (sampleTrace_known (e := (sampleLog []).nextEntry "objective" sampleTraceJob.toValue
    "2026-01-01T00:00:00Z") rfl rfl).2

variable {n : Node}

theorem sampleTrace_posts (h : n.ledger = sampleLog []) :
    (n.postObjective sampleTraceJob "2026-01-01T00:00:00Z").1.ledger = sampleTraceLedgerOne := by
  have hcheck : Log.checkObjective n.log sampleTraceJob = .ok () := by
    rw [Node.log, h]
    exact toOk_eq_some (by decide)
  unfold Node.postObjective Node.post
  rw [hcheck]
  dsimp only
  unfold Node.append
  rw [Node.log, h]
  rfl

theorem sampleTrace_commits (h : n.ledger = sampleTraceLedgerOne) :
    (n.commit sampleAgreed "2026-01-01T00:00:00Z").1.ledger = sampleTraceLedgerTwo := by
  have hlog : n.log = sampleTraceLedgerOne.entries := by rw [Node.log, h]
  have hcheck : Log.checkCommit n.log sampleAgreed = .ok () := by
    rw [hlog]
    unfold Log.checkCommit
    rw [show sampleAgreed.objectiveId = sampleTraceJobId from rfl, sampleTraceLedgerOne_known]
    rfl
  have hepoch := sampleTrace_checks.2.1
  have hdue : Log.dueEpochs n.log 2945376 = [] := by
    rw [hlog]
    rfl
  rw [Node.commit_ledger hepoch hdue hcheck]
  unfold Node.append
  rw [Node.log, h]
  rfl

theorem sampleTrace_reveals (h : n.ledger = sampleTraceLedgerTwo) :
    (n.reveal sampleRegistry sampleTraceClaim "2026-01-01T00:10:00Z").1.ledger =
      sampleTraceLedgerThree := by
  have hlog : n.log = sampleTraceLedgerTwo.entries := by rw [Node.log, h]
  have hknown : (Log.objectives n.log).get? sampleTraceClaim.objectiveId = some sampleTraceJob := by
    rw [hlog]
    exact (sampleTrace_known (e := (sampleLog []).nextEntry "objective" sampleTraceJob.toValue
      "2026-01-01T00:00:00Z") rfl rfl).2
  have hadmitted : Log.revealEpoch n.log sampleTraceClaim sampleTraceClaim.createdAt =
      .ok 2945377 := by
    rw [hlog]
    exact sampleTrace_checks.2.2.1
  have hentry : Log.matchingCommitmentEntry n.log sampleTraceClaim =
      some ((Node.new sampleTraceLedgerOne).ledger.nextEntry "commitment" sampleAgreed.toValue
        "2026-01-01T00:00:00Z") := by
    rw [hlog]
    unfold Log.matchingCommitmentEntry
    rw [sampleTraceClaim_hash]
    exact List.find?_cons_of_pos (by rw [Node.payload_nextEntry]; decide)
  have hopens := sampleTrace_checks.2.2.2
  have hdue : Log.dueEpochs n.log 2945377 = [] := by
    rw [hlog]
    rfl
  have hcheck := Log.checkReveal_eq hknown (fun h => by cases h) hopens
    (by rw [hlog]; exact List.not_mem_nil) rfl rfl
  rw [show "2026-01-01T00:10:00Z" = sampleTraceClaim.createdAt from rfl,
    (Node.reveal_ledger sampleRegistry hadmitted hentry hdue).2 sampleTraceJob (by rw [hcheck]; rfl)]
  unfold Node.append
  rw [Node.log, h]
  rfl

/-- What the log says of the objection's claim once it is accepted. -/
theorem sampleTrace_disputes {log : List Entry} {job claimed : Entry}
    (hjob : job.payload = sampleTraceJob.toValue) (hposted : Log.ofKind log .objective = [job])
    (hclaimed : claimed.payload = sampleTraceClaim.toValue)
    (hrevealed : Log.ofKind log .claim = [claimed]) :
    Log.disputedClaim log sampleObjection = some (sampleTraceClaim, sampleTraceJob) ∧
      Log.claimEntry log sampleObjection.claimId = some claimed := by
  have hclaims := sampleTrace_claimed hclaimed hrevealed
  have hfind : (Log.claims log).find? (fun p => p.2.id = sampleObjection.claimId) =
      some (claimed, sampleTraceClaim) := by
    rw [hclaims]
    exact List.find?_cons_of_pos (decide_eq_true sampleTraceClaim_id)
  constructor
  · unfold Log.disputedClaim Log.claimOf
    rw [hfind]
    show ((Log.objectives log).get? sampleTraceJobId).bind _ = _
    rw [(sampleTrace_known hjob hposted).2]
    rfl
  · rw [Log.claimEntry, hfind]
    rfl

theorem sampleTrace_challenges (h : n.ledger = sampleTraceLedgerThree) :
    (n.postChallenge sampleObjection "2026-01-01T00:10:00Z").1.ledger = sampleTraceLedgerFour := by
  have hlog : n.log = sampleTraceLedgerThree.entries := by rw [Node.log, h]
  rcases @sampleTrace_disputes sampleTraceLedgerThree.entries
    ((sampleLog []).nextEntry "objective" sampleTraceJob.toValue "2026-01-01T00:00:00Z")
    (sampleTraceLedgerTwo.nextEntry "claim" sampleTraceClaim.toValue
      "2026-01-01T00:10:00Z") rfl rfl rfl rfl with ⟨hdisputes, hentry⟩
  have haccepted : Log.acceptedClaimIds sampleTraceLedgerThree.entries = [sampleTraceClaimId] := by
    rw [← sampleTraceClaim_id]
    exact Log.acceptedClaimIds_one (e := ((Node.new sampleTraceLedgerTwo).append .claim
      sampleTraceClaim.toValue "2026-01-01T00:10:00Z").ledger.nextEntry "verdict"
        (verdictValue sampleTraceClaim (sampleRegistry.run sampleTraceJob.verifier
          sampleTraceClaim.artifact)) "2026-01-01T00:10:00Z") rfl rfl (isAccept_verdictValue rfl rfl rfl)
  rcases sampleTrace_checks.1 with ⟨hvalid, hsigned, hepoch⟩
  have hcheck : Log.checkChallenge n.log sampleObjection "2026-01-01T00:10:00Z" = .ok () := by
    rw [hlog]
    unfold Log.checkChallenge
    rw [hvalid, hsigned, hepoch, hdisputes, haccepted, hentry]
    exact toOk_eq_some (by decide +kernel)
  unfold Node.postChallenge Node.post
  rw [hcheck]
  dsimp only
  unfold Node.append
  rw [Node.log, h]
  rfl

theorem sampleDisputeOpening_eq : sampleDisputeOpening =
    [.postObjective sampleTraceJob "2026-01-01T00:00:00Z",
      .commit sampleAgreed "2026-01-01T00:00:00Z",
      .reveal sampleRegistry sampleTraceClaim "2026-01-01T00:10:00Z",
      .postChallenge sampleObjection "2026-01-01T00:10:00Z"] := rfl

/-- The run up to the challenge writes these entries. -/
theorem sampleDispute_opening :
    ((Node.new (sampleLog [])).run sampleDisputeOpening).ledger = sampleTraceLedgerFour := by
  have hposts : ((Node.new (sampleLog [])).step
      (.postObjective sampleTraceJob "2026-01-01T00:00:00Z")).ledger = sampleTraceLedgerOne :=
    sampleTrace_posts rfl
  have hcommits : ∀ n : Node, n.ledger = sampleTraceLedgerOne →
      (n.step (.commit sampleAgreed "2026-01-01T00:00:00Z")).ledger = sampleTraceLedgerTwo :=
    fun _ h => sampleTrace_commits h
  have hreveals : ∀ n : Node, n.ledger = sampleTraceLedgerTwo →
      (n.step (.reveal sampleRegistry sampleTraceClaim "2026-01-01T00:10:00Z")).ledger =
        sampleTraceLedgerThree := fun _ h => sampleTrace_reveals h
  have hchallenges : ∀ n : Node, n.ledger = sampleTraceLedgerThree →
      (n.step (.postChallenge sampleObjection "2026-01-01T00:10:00Z")).ledger =
        sampleTraceLedgerFour := fun _ h => sampleTrace_challenges h
  rw [sampleDisputeOpening_eq, Node.run_cons, Node.run_cons, Node.run_cons, Node.run_cons,
    Node.run_nil]
  exact hchallenges _ (hreveals _ (hcommits _ hposts))

end Opening

theorem sampleDispute_begins : letI := sampleDisputeWorld
    (fun log =>
      ((Log.challenges log).get? sampleObjectionId = some sampleObjection ∧
        Log.disputedClaim log sampleObjection = some (sampleTraceClaim, sampleTraceJob) ∧
        committedTrace sampleTraceClaim = some (sampleTraceRoot, 2) ∧
        Log.challengeOutcome log sampleObjectionId = none ∧
        Log.sidedMoves log sampleObjection sampleObjectionId 2 = []) ∧
      ((Log.decoded .objective Objective.fromValue log).map Prod.snd = [sampleTraceJob] ∧
        (Log.claims log).map Prod.snd = [sampleTraceClaim] ∧
        (Log.decoded .challenge Challenge.fromValue log).map Prod.snd = [sampleObjection] ∧
        (Log.decoded .bisection BisectionMove.fromValue log).map Prod.snd = []) ∧
      (sampleDisputeTexts.map digestText).Nodup)
    ((Node.new (sampleLog [])).run sampleDisputeOpening).log := by
  let _ := sampleDisputeWorld
  rw [Node.log, sampleDispute_opening]
  rcases @sampleTrace_disputes sampleTraceLedgerFour.entries
    ((sampleLog []).nextEntry "objective" sampleTraceJob.toValue "2026-01-01T00:00:00Z")
    (sampleTraceLedgerTwo.nextEntry "claim" sampleTraceClaim.toValue
      "2026-01-01T00:10:00Z") rfl rfl rfl rfl with ⟨hdisputes, -⟩
  have hdecoded : Log.decoded .challenge Challenge.fromValue sampleTraceLedgerFour.entries =
      [(sampleTraceLedgerThree.nextEntry "challenge" sampleObjection.toValue
        "2026-01-01T00:10:00Z", sampleObjection)] := by
    show List.filterMap _ [_] = _
    rw [List.filterMap_cons, Node.payload_nextEntry, sampleObjection_decodes]
    rfl
  have hposted := (@sampleTrace_known sampleTraceLedgerFour.entries
    ((sampleLog []).nextEntry "objective" sampleTraceJob.toValue "2026-01-01T00:00:00Z")
    rfl rfl).1
  have hclaimed := @sampleTrace_claimed sampleTraceLedgerFour.entries
    (sampleTraceLedgerTwo.nextEntry "claim" sampleTraceClaim.toValue "2026-01-01T00:10:00Z")
    rfl rfl
  refine ⟨⟨?_, hdisputes, by decide, rfl, rfl⟩, ⟨?_, ?_, ?_, rfl⟩, sampleDispute_apart⟩
  · rw [Log.challenges, hdecoded, List.map_singleton, sampleDispute_ids.1.2.2]
    rfl
  · rw [hposted]
    rfl
  · rw [hclaimed]
    rfl
  · rw [hdecoded]
    rfl

/-- A move in a tree of two leaves opens the root over its own and the other. -/
theorem opens_pair [Sha256] {record : BisectionMove} {hash sibling root : String}
    (hindex : record.index = 0 ∨ record.index = 1)
    (hsize : record.state.canonicalBytes.size ≤ MAX_STATE_BYTES) (hpath : record.path = [sibling])
    (hhash : record.state.digest = hash)
    (hroot : digestText (joinAt record.index.toNat hash sibling) = root) :
    (Log.moveOf record 2).opens root = true := by
  unfold Move.opens Log.moveOf Inclusion.verify
  dsimp only
  rw [hhash, hpath, decide_eq_true hsize, decide_eq_true rfl]
  rcases hindex with hindex | hindex
  · rw [hindex] at hroot ⊢
    show (digestText (joinAt 0 hash sibling) == root) = true
    simpa using hroot
  · rw [hindex] at hroot ⊢
    show (digestText (joinAt 1 hash sibling) == root) = true
    simpa using hroot

/-- Each move is good, and opens the root of the side that made it. -/
theorem sampleDispute_moves : letI := sampleDisputeWorld
    ∀ record ∈ sampleDisputeMoves, record.challengeId = sampleObjectionId ∧
      toOk record.validate = some () ∧ toOk record.verifySignature = some () ∧
      toOk (ensureRecordAdmissionEpoch "bisection" record.createdAt "2026-01-01T00:10:00Z") =
        some 2945377 ∧
      (record.mover = sampleHolder ∧
          (Log.moveOf record 2).opens sampleTraceRoot = true ∨
        record.mover = sampleObjector ∧
          (Log.moveOf record 2).opens sampleObjection.root = true) := by
  let _ := sampleDisputeWorld
  rcases sampleDispute_states with ⟨⟨hone, htwo, hthree, hfour⟩, hroot, hother⟩
  have hgood : ∀ record ∈ sampleDisputeMoves, record.challengeId = sampleObjectionId ∧
      toOk record.validate = some () ∧ toOk record.verifySignature = some () ∧
      toOk (ensureRecordAdmissionEpoch "bisection" record.createdAt "2026-01-01T00:10:00Z") =
        some 2945377 := by decide +kernel
  have hopens : ∀ record ∈ sampleDisputeMoves, record.mover = sampleHolder ∧
        (Log.moveOf record 2).opens sampleTraceRoot = true ∨
      record.mover = sampleObjector ∧
        (Log.moveOf record 2).opens sampleObjection.root = true := by
    intro record hrecord
    simp only [sampleDisputeMoves, List.mem_cons, List.not_mem_nil, or_false] at hrecord
    rcases hrecord with rfl | rfl | rfl | rfl
    · exact .inl ⟨rfl, opens_pair (.inl rfl) (by decide) rfl hone hroot⟩
    · exact .inl ⟨rfl, opens_pair (.inr rfl) (by decide) rfl htwo hroot⟩
    · exact .inr ⟨rfl, opens_pair (.inl rfl) (by decide) rfl hthree hother⟩
    · exact .inr ⟨rfl, opens_pair (.inr rfl) (by decide) rfl hfour hother⟩
  intro record hrecord
  rcases hgood record hrecord with ⟨hid, hvalid, hsigned, hepoch⟩
  exact ⟨hid, hvalid, hsigned, hepoch, hopens record hrecord⟩

/-- The node after the run. -/
def sampleDisputed : letI := sampleDisputeWorld; Node :=
  letI := sampleDisputeWorld
  (Node.new (sampleLog [])).run sampleDisputeOps

/-- One move of the run: the mover is the side's, and nobody has opened its end. -/
theorem sampleDispute_answer : letI := sampleDisputeWorld
    ∀ (n : Node) (moves : List (Side × Move)) (record : BisectionMove) (side : Side),
      Node.Played n.log sampleObjectionId sampleObjection sampleTraceClaim sampleTraceJob
        sampleTraceRoot 2 moves → record ∈ sampleDisputeMoves →
      record.mover = (match side with | .defender => sampleHolder | .challenger => sampleObjector) →
      record.index.toNat = 0 ∨ record.index.toNat = 1 →
      Log.endpoint moves record.index.toNat side = none →
      n.postBisection record "2026-01-01T00:10:00Z" =
          (n.append .bisection record.toValue "2026-01-01T00:10:00Z", .ok ()) ∧
        Node.Played (n.append .bisection record.toValue "2026-01-01T00:10:00Z").log
          sampleObjectionId sampleObjection sampleTraceClaim sampleTraceJob sampleTraceRoot 2
          (moves ++ [(side, Log.moveOf record 2)]) := by
  let _ := sampleDisputeWorld
  intro n moves record side hplayed hmem hmover hindex hnone
  obtain ⟨hid, hvalid, hsigned, hepoch, hroots⟩ := sampleDispute_moves record hmem
  have hparty : Log.sideOf n.log sampleObjection record.mover = some side := by
    unfold Log.sideOf
    rw [hplayed.disputes, hmover]
    cases side <;> decide
  have hopens : (Log.moveOf record 2).opens
      (side.rootOf sampleTraceRoot sampleObjection.root) = true := by
    rw [hmover] at hroots
    cases side with
    | defender => exact hroots.elim And.right fun h => absurd h.1 (by decide)
    | challenger => exact hroots.elim (fun h => absurd h.1 (by decide)) And.right
  rw [← hid] at hplayed ⊢
  exact hplayed.answer (toOk_eq_some hvalid) (toOk_eq_some hsigned) (toOk_eq_some hepoch)
    hparty hopens (hplayed.asks hindex hnone)

def sampleSidedMoves : List (Side × Move) :=
  [(.defender, Log.moveOf sampleDefenderStart 2), (.defender, Log.moveOf sampleDefenderFinal 2),
    (.challenger, Log.moveOf sampleChallengerStart 2),
    (.challenger, Log.moveOf sampleChallengerFinal 2)]

/-- All four moves are recorded, and nothing else. -/
theorem sampleDispute_played : letI := sampleDisputeWorld
    ∀ n : Node, Node.Played n.log sampleObjectionId sampleObjection sampleTraceClaim
        sampleTraceJob sampleTraceRoot 2 [] →
      Node.Played (n.run (sampleDisputeMoves.map fun record =>
            .postBisection record "2026-01-01T00:10:00Z")).log sampleObjectionId sampleObjection
          sampleTraceClaim sampleTraceJob sampleTraceRoot 2 sampleSidedMoves ∧
        ∃ moves, (n.run (sampleDisputeMoves.map fun record =>
            .postBisection record "2026-01-01T00:10:00Z")).log = n.log ++ moves ∧
          ∀ e ∈ moves, e.kind = EntryKind.bisection.asStr ∧
            ∃ record ∈ sampleDisputeMoves, e.payload = record.toValue := by
  let _ := sampleDisputeWorld
  intro n h0
  obtain ⟨hok1, h1⟩ := sampleDispute_answer n [] sampleDefenderStart .defender h0
    (by simp [sampleDisputeMoves]) rfl (.inl rfl) rfl
  obtain ⟨hok2, h2⟩ := sampleDispute_answer _ _ sampleDefenderFinal .defender h1
    (by simp [sampleDisputeMoves]) rfl (.inr rfl) rfl
  obtain ⟨hok3, h3⟩ := sampleDispute_answer _ _ sampleChallengerStart .challenger h2
    (by simp [sampleDisputeMoves]) rfl (.inl rfl) rfl
  obtain ⟨hok4, h4⟩ := sampleDispute_answer _ _ sampleChallengerFinal .challenger h3
    (by simp [sampleDisputeMoves]) rfl (.inr rfl) rfl
  have hrun : n.run (sampleDisputeMoves.map fun record =>
      .postBisection record "2026-01-01T00:10:00Z") = ((((n.append
      .bisection sampleDefenderStart.toValue "2026-01-01T00:10:00Z").append
      .bisection sampleDefenderFinal.toValue "2026-01-01T00:10:00Z").append
      .bisection sampleChallengerStart.toValue "2026-01-01T00:10:00Z").append
      .bisection sampleChallengerFinal.toValue "2026-01-01T00:10:00Z") := by
    simp only [sampleDisputeMoves, List.map_cons, List.map_nil, Node.run, List.foldl_cons,
      List.foldl_nil, Node.step, hok1, hok2, hok3, hok4]
  rw [hrun]
  refine ⟨h4, _, by simp only [Node.log_append, List.append_assoc]; rfl, ?_⟩
  intro e he
  simp only [List.mem_append, List.mem_singleton] at he
  obtain rfl | rfl | rfl | rfl := he
  · exact ⟨rfl, sampleDefenderStart, by simp [sampleDisputeMoves], rfl⟩
  · exact ⟨rfl, sampleDefenderFinal, by simp [sampleDisputeMoves], rfl⟩
  · exact ⟨rfl, sampleChallengerStart, by simp [sampleDisputeMoves], rfl⟩
  · exact ⟨rfl, sampleChallengerFinal, by simp [sampleDisputeMoves], rfl⟩

/-- A log that continues the run with these moves, and with outcomes. -/
def SampleContinues (log : List Entry) : Prop :=
  letI := sampleDisputeWorld
  ∃ rest, log = ((Node.new (sampleLog [])).run sampleDisputeOpening).log ++ rest ∧
    ∀ e ∈ rest, e.kind = EntryKind.challengeSettlement.asStr ∨
      e.kind = EntryKind.bisection.asStr ∧ ∃ record ∈ sampleDisputeMoves, e.payload = record.toValue

/-- The records of such a log name no other texts. -/
theorem SampleContinues.texts : letI := sampleDisputeWorld
    ∀ log, SampleContinues log →
      ∀ run, run = [u64Value 500, u64Value 7000] ∨ run = [u64Value 0, u64Value 10] →
        ∀ text, Log.DisputeTexts log run 2 text → text ∈ sampleDisputeTexts := by
  let _ := sampleDisputeWorld
  rintro log ⟨rest, rfl, hrest⟩ run hrun text htext
  obtain ⟨-, ⟨hobjectives, hclaims, hchallenges, hbisections⟩, -⟩ := sampleDispute_begins
  -- a record of another kind was there before the moves
  have hbefore : ∀ {α ε : Type} {kind : EntryKind} {decode : Value → Except ε α} {p : Entry × α},
      kind ≠ .challengeSettlement → kind ≠ .bisection →
      p ∈ Log.decoded kind decode
        (((Node.new (sampleLog [])).run sampleDisputeOpening).log ++ rest) →
      p.2 ∈ (Log.decoded kind decode
        ((Node.new (sampleLog [])).run sampleDisputeOpening).log).map Prod.snd := by
    intro α ε kind decode p hsettlement hbisection hp
    rw [Log.decoded_append, List.mem_append] at hp
    obtain hp | hp := hp
    · exact List.mem_map_of_mem hp
    · obtain ⟨hin, hkind, -⟩ := Log.mem_decoded.mp hp
      obtain h | ⟨h, -⟩ := hrest _ hin
      · exact absurd (EntryKind.asStr_inj.mp (hkind.symm.trans h)) hsettlement
      · exact absurd (EntryKind.asStr_inj.mp (hkind.symm.trans h)) hbisection
  obtain (⟨p, hp, ht⟩ | ⟨p, hp, rfl⟩) | ⟨p, hp, rfl⟩ | hcommitted | ⟨p, hp, hopening⟩ := htext
  · have hjob := hbefore (by decide) (by decide) hp
    rw [hobjectives, List.mem_singleton] at hjob
    rw [hjob] at ht
    obtain rfl | rfl | ⟨block, hblock, -⟩ := ht
    · simp [sampleDisputeTexts]
    · simp [sampleDisputeTexts]
    · cases hblock
  · have hclaim := hbefore (by decide) (by decide) hp
    rw [show Log.decoded _ _ _ = Log.claims _ from rfl, hclaims, List.mem_singleton] at hclaim
    rw [hclaim]
    simp [sampleDisputeTexts]
  · have hchallenge := hbefore (by decide) (by decide) hp
    rw [hchallenges, List.mem_singleton] at hchallenge
    rw [hchallenge]
    simp [sampleDisputeTexts]
  · have hlisted : ∀ run ∈ [[u64Value 500, u64Value 7000], [u64Value 0, u64Value 10]],
        ∀ t ∈ run.map Value.canonicalString ++ merkleInputs (run.map Value.digest),
          t ∈ sampleDisputeTexts := by decide +kernel
    apply hlisted run (by simpa using hrun)
    obtain ⟨v, hv, rfl⟩ | hjoin := hcommitted
    · exact List.mem_append_left _ (List.mem_map_of_mem hv)
    · exact List.mem_append_right _ hjoin
  · have hmove : p.2 ∈ sampleDisputeMoves := by
      rw [Log.decoded_append, List.mem_append] at hp
      obtain hp | hp := hp
      · have hmem := List.mem_map_of_mem (f := Prod.snd) hp
        rw [hbisections] at hmem
        cases hmem
      · obtain ⟨hin, hkind, hdecode⟩ := Log.mem_decoded.mp hp
        obtain h | ⟨-, record, hrecord, hpayload⟩ := hrest _ hin
        · exact absurd (EntryKind.asStr_inj.mp (hkind.symm.trans h)) (by decide)
        · rw [hpayload, BisectionMove.fromValue_toValue,
            toOk_eq_some (sampleDispute_moves record hrecord).2.1] at hdecode
          cases hdecode
          exact hrecord
    have hlisted : ∀ record ∈ sampleDisputeMoves,
        ∀ t ∈ record.state.canonicalString ::
          (Log.moveOf record 2).path.inputs record.state.digest, t ∈ sampleDisputeTexts := by
      decide +kernel
    apply hlisted _ hmove
    obtain rfl | hjoin := hopening
    · exact List.mem_cons_self
    · exact List.mem_cons_of_mem _ hjoin

/-- Adds ten to a count. -/
def sampleAdds (v : Value) : Value := match v.asU64 with
  | some n => u64Value (n + 10)
  | none => v

/-- A registry whose steppers compute `step`. -/
def sampleStepping (step : Value → Value) : Registry :=
  { sampleRegistry with transform _ _ _ v _ := .ok (step v) }

/-- The run, and the dispute settled at its end. -/
def sampleSettled (step : Value → Value) : letI := sampleDisputeWorld; List Op :=
  letI := sampleDisputeWorld
  sampleDisputeOps ++
    [.settleChallenge (sampleStepping step) sampleObjectionId "2026-01-01T00:10:00Z"]

/-- The traces start apart, so the dispute is void. -/
theorem sampleDispute_void : letI := sampleDisputeWorld
    (Node.Played ((Node.new (sampleLog [])).run sampleDisputeOps).log sampleObjectionId
        sampleObjection sampleTraceClaim sampleTraceJob sampleTraceRoot 2 sampleSidedMoves) ∧
      SampleContinues ((Node.new (sampleLog [])).run sampleDisputeOps).log ∧
      ∃ why, Log.dispute ((Node.new (sampleLog [])).run sampleDisputeOps).log sampleObjectionId =
        some (.void sampleObjection why) := by
  let _ := sampleDisputeWorld
  obtain ⟨⟨hknown, hdisputes, htrace, hopen, hmoves⟩, -, -⟩ := sampleDispute_begins
  obtain ⟨hplayed, rest, hlog, hrest⟩ := sampleDispute_played _
    ⟨hknown, hdisputes, htrace, hopen, hmoves⟩
  rw [← Node.run_append] at hplayed hlog
  refine ⟨hplayed, ⟨rest, hlog, fun e he => .inr (hrest e he)⟩, ?_⟩
  obtain ⟨state, hstate, hstanding⟩ :=
    Log.dispute_eq hplayed.known hplayed.disputes hplayed.trace
  rw [hplayed.moves] at hstanding
  have hshows : Log.Shows 2 sampleSidedMoves
      ⟨Log.moveOf sampleDefenderStart 2, Log.moveOf sampleChallengerStart 2,
        Log.moveOf sampleDefenderFinal 2, Log.moveOf sampleChallengerFinal 2⟩ :=
    ⟨rfl, rfl, rfl, rfl⟩
  cases hstanding with
  | awaiting missing => exact absurd (by decide) missing
  | void shows_ refused => exact ⟨_, hstate⟩
  | live shows_ accepted =>
    rw [← hshows.unique shows_] at accepted
    exact absurd (Dispute.open_eq_ok accepted).1.sameStart (by decide)

/-- The settlement goes to the defender, and nothing else was recorded. -/
theorem sampleSettled_run : letI := sampleDisputeWorld
    ∀ step, SampleContinues ((Node.new (sampleLog [])).run (sampleSettled step)).log ∧
      ((Node.new (sampleLog [])).run sampleDisputeOps).log <+:
        ((Node.new (sampleLog [])).run (sampleSettled step)).log ∧
      ∃ e ∈ Log.ofKind ((Node.new (sampleLog [])).run (sampleSettled step)).log .challengeSettlement,
        payloadStr e.payload "challenge_id" = some sampleObjectionId ∧
        payloadStr e.payload "winning_side" = some Side.defender.asStr := by
  let _ := sampleDisputeWorld
  intro step
  obtain ⟨hplayed, ⟨rest, hlog, hrest⟩, why, hvoid⟩ := sampleDispute_void
  obtain ⟨record, hsettled, hid, hwinner⟩ := Node.settleChallenge_of_void hplayed.undecided
    hplayed.disputes hvoid (sampleStepping step) "2026-01-01T00:10:00Z"
  have hrun : (Node.new (sampleLog [])).run (sampleSettled step) =
      ((Node.new (sampleLog [])).run sampleDisputeOps).append .challengeSettlement record
        "2026-01-01T00:10:00Z" := by
    unfold sampleSettled
    rw [Node.run_concat, Node.step, hsettled]
  rw [hrun, Node.log_append]
  refine ⟨⟨rest ++ [_], by rw [hlog, List.append_assoc], ?_⟩, List.prefix_append _ _,
    ((Node.new (sampleLog [])).run sampleDisputeOps).ledger.nextEntry
      EntryKind.challengeSettlement.asStr record "2026-01-01T00:10:00Z", ?_, hid, hwinner⟩
  · intro e he
    obtain he | he := List.mem_append.mp he
    · exact hrest e he
    · rw [List.mem_singleton.mp he]
      exact .inl rfl
  · exact Log.mem_ofKind.mpr ⟨List.mem_append_right _ (List.mem_singleton_self _), rfl⟩

/-- The steppers of the run compute its step. -/
theorem sampleSettled_steps : letI := sampleDisputeWorld
    ∀ step registry ts stepper,
      Op.settleChallenge registry sampleObjectionId ts ∈ sampleSettled step →
        Stepper.fromSpec sampleTraceJob.verifier = .ok stepper → ∀ v truth,
          stepper.step registry v = .ok truth → truth = step v := by
  let _ := sampleDisputeWorld
  intro step registry ts stepper hmem hspec v truth htruth
  have hregistry : registry = sampleStepping step ∧ ts = "2026-01-01T00:10:00Z" := by
    simpa [sampleSettled, sampleDisputeOps, sampleDisputeOpening, sampleDisputeMoves] using hmem
  rw [hregistry.1] at htruth
  exact (Except.ok.inj htruth).symm

theorem sampleSettled_held : letI := sampleDisputeWorld
    ∀ step (party : Side) (run : List Value),
      run = [u64Value 500, u64Value 7000] ∨ run = [u64Value 0, u64Value 10] →
      merkleRoot (run.map Value.digest) =
        some (party.rootOf sampleTraceRoot sampleObjection.root) →
      Log.Held ((Node.new (sampleLog [])).run (sampleSettled step)).log sampleObjectionId
        sampleObjection sampleTraceClaim sampleTraceJob sampleTraceRoot 2 party run := by
  let _ := sampleDisputeWorld
  intro step party run hrun hroot
  obtain ⟨hplayed, -⟩ := sampleDispute_void
  obtain ⟨hcontinues, hgrown, -⟩ := sampleSettled_run step
  have hcol : NoCollision (Log.DisputeTexts
      ((Node.new (sampleLog [])).run (sampleSettled step)).log run 2) :=
    noCollision_of_nodup sampleDispute_begins.2.2 (SampleContinues.texts _ hcontinues _ hrun)
  have hids := Log.stableIds_of_noCollision (hcol.mono fun _ h => .inl h)
  have hchallenges := Log.stableChallenges_of_noCollision (hcol.mono fun _ h => .inr (.inl h))
  refine ⟨Log.challenges_of_grown hgrown hchallenges hplayed.known,
    Log.disputedClaim_of_grown hgrown hids hplayed.disputes, hplayed.trace, ?_, hroot, hcol⟩
  obtain rfl | rfl := hrun <;> rfl

/-- Nobody is asked when the dispute is settled. -/
theorem sampleSettled_inTime : letI := sampleDisputeWorld
    ∀ step (party : Side) done registry ts rest,
      sampleSettled step = done ++ .settleChallenge registry sampleObjectionId ts :: rest →
        Log.InTime ((Node.new (sampleLog [])).run done).log sampleObjectionId party ts := by
  let _ := sampleDisputeWorld
  intro step party done registry ts rest hops
  have hdone : done = sampleDisputeOps := by
    obtain ⟨more, hdone, hrest⟩ | ⟨more, hdone, hrest⟩ := List.append_eq_append_iff.mp hops
    · cases more with
      | nil => exact hdone.trans (List.append_nil _)
      | cons op more => simp at hrest
    · cases more with
      | nil => exact (hdone.trans (List.append_nil _)).symm
      | cons op more =>
        rw [List.cons_append, List.cons.injEq] at hrest
        have hmem : Op.settleChallenge registry sampleObjectionId ts ∈ sampleDisputeOps := by
          rw [hdone, ← hrest.1]
          simp
        simp [sampleDisputeOps, sampleDisputeOpening] at hmem
  obtain ⟨-, -, why, hvoid⟩ := sampleDispute_void
  intro challenge index last now hknown hasks
  unfold Log.Asks at hasks
  rw [hdone, hvoid] at hasks
  exact hasks.elim

/-- Two traces that start apart are no dispute: the bond goes to the defender,
even where the challenger's run is the genuine one. -/
theorem not_settleChallenge_honest : letI := sampleDisputeWorld
    ¬∀ (l : Ledger) (ops : List Op) (challengeId : String) (party : Side) (challenge : Challenge)
      (claim : Claim) (objective : Objective) (defenderRoot : String) (states : UInt64)
      (step : Value → Value) (start : Value), l.entries = [] →
      Log.Held ((Node.new l).run ops).log challengeId challenge claim objective defenderRoot states
        party (List.iterate step start states.toNat) →
      (∀ registry ts stepper, Op.settleChallenge registry challengeId ts ∈ ops →
        Stepper.fromSpec objective.verifier = .ok stepper → ∀ v truth,
          stepper.step registry v = .ok truth → truth = step v) →
      (∀ done registry ts rest, ops = done ++ .settleChallenge registry challengeId ts :: rest →
        Log.InTime ((Node.new l).run done).log challengeId party ts) →
      (∀ moves, moves = Log.sidedMoves ((Node.new l).run ops).log challenge challengeId states →
        ∀ m, Log.endpoint moves (states.toNat - 1) party.other = some m →
          m.state ≠ step^[states.toNat - 1] start ∧
          ∀ first, Log.endpoint moves 0 party.other = some first →
            m.state ≠ step^[states.toNat - 1] first.state) →
      ∀ e ∈ Log.ofKind ((Node.new l).run ops).log .challengeSettlement,
        payloadStr e.payload "challenge_id" = some challengeId →
          payloadStr e.payload "winning_side" = some party.asStr := by
  let _ := sampleDisputeWorld
  intro hclaim
  obtain ⟨hplayed, -⟩ := sampleDispute_void
  obtain ⟨-, hgrown, e, he, hid, hwinner⟩ := sampleSettled_run sampleAdds
  have hheld := sampleSettled_held sampleAdds .challenger [u64Value 0, u64Value 10] (.inr rfl)
    (by decide +kernel)
  have hlost := hclaim (sampleLog []) (sampleSettled sampleAdds) sampleObjectionId .challenger
    sampleObjection sampleTraceClaim sampleTraceJob sampleTraceRoot 2 sampleAdds (u64Value 0) rfl
    hheld (sampleSettled_steps sampleAdds) (sampleSettled_inTime sampleAdds .challenger) ?_ e he hid
  · rw [hwinner] at hlost
    exact absurd hlost (by decide)
  · rintro moves rfl m hm
    have hmoves := Log.sidedMoves_of_grown hgrown hheld.stableIds hplayed.disputes
      sampleObjectionId 2
    rw [hplayed.moves] at hmoves
    have hstart : Log.endpoint sampleSidedMoves 0 .defender =
        some (Log.moveOf sampleDefenderStart 2) := rfl
    have hfinal : Log.endpoint sampleSidedMoves 1 .defender =
        some (Log.moveOf sampleDefenderFinal 2) := rfl
    have hm' := (Log.endpoint_of_grown hmoves hfinal).symm.trans hm
    rw [Option.some.injEq] at hm'
    rw [← hm']
    refine ⟨by decide, ?_⟩
    intro first hfirst
    have hfirst' := (Log.endpoint_of_grown hmoves hstart).symm.trans hfirst
    rw [Option.some.injEq] at hfirst'
    rw [← hfirst']
    decide

/-- A defender whose run goes from 500 to 7000 keeps the bond. -/
theorem settleChallenge_honest_sample : letI := sampleDisputeWorld
    ∃ e ∈ Log.ofKind ((Node.new (sampleLog [])).run
        (sampleSettled fun _ => u64Value 7000)).log .challengeSettlement,
      payloadStr e.payload "challenge_id" = some sampleObjectionId ∧
        payloadStr e.payload "winning_side" = some Side.defender.asStr := by
  let _ := sampleDisputeWorld
  obtain ⟨-, -, e, he, hid, -⟩ := sampleSettled_run fun _ => u64Value 7000
  refine ⟨e, he, hid, ?_⟩
  have hheld := sampleSettled_held (fun _ => u64Value 7000) .defender
    [u64Value 500, u64Value 7000] (.inl rfl) (by decide +kernel)
  exact Node.settleChallenge_honest (sampleLog []) rfl (sampleSettled fun _ => u64Value 7000)
    sampleObjectionId .defender (fun _ => u64Value 7000) (u64Value 500) hheld
    (sampleSettled_steps _) (sampleSettled_inTime _ .defender) (fun h => by cases h) e he hid

end Cairn.Ports
