import Cairn.Ports.Bisection
import Cairn.Ports.Node.Units

/-!
# The records of a dispute

Every challenge and every move of the log passed a check on the log before it.
What the check found is still there: a challenge names one claim of the log and
another root of the same length, and a move opens the root of the side that
made it.
-/

namespace Cairn.Ports

open Cairn.Verified
open Cairn.Ports.Canonical

namespace Log

/-! ## What an id names -/

section Names

variable [Sha256]

/-- Decoded challenges with one id are one challenge. -/
def StableChallenges (log : List Entry) : Prop :=
  ∀ p ∈ decoded .challenge Challenge.fromValue log,
    ∀ q ∈ decoded .challenge Challenge.fromValue log, p.2.id = q.2.id → p.2 = q.2

/-- The texts whose digests name the challenges of a log. -/
def ChallengeTexts (log : List Entry) (text : String) : Prop :=
  ∃ p ∈ decoded .challenge Challenge.fromValue log, text = p.2.toValue.canonicalString

theorem stableChallenges_of_noCollision {log : List Entry}
    (hcol : NoCollision (ChallengeTexts log)) : StableChallenges log := by
  intro p hp q hq hid
  have hvalue : p.2.toValue = q.2.toValue := value_eq_of_digest hcol ⟨p, hp, rfl⟩ ⟨q, hq, rfl⟩ hid
  have hback := Challenge.fromValue_toValue p.2
  have hback' := Challenge.fromValue_toValue q.2
  rw [Challenge.fromValue_valid (mem_decoded.mp hp).2.2] at hback
  rw [Challenge.fromValue_valid (mem_decoded.mp hq).2.2, ← hvalue, hback] at hback'
  exact Except.ok.inj hback'

end Names

variable [World]

variable {challenge : Challenge} {log : List Entry}

theorem get?_challenges (h : StableChallenges log) {id : String} :
    (challenges log).get? id = some challenge ↔
      ∃ e, (e, challenge) ∈ decoded .challenge Challenge.fromValue log ∧ challenge.id = id := by
  constructor
  · intro hget
    obtain ⟨⟨e, c⟩, hp, hpair⟩ := List.mem_map.mp (BTreeMap.mem_of_get?_ofList hget)
    rw [Prod.mk.injEq] at hpair
    rw [← hpair.2]
    exact ⟨e, hp, hpair.1⟩
  · rintro ⟨e, hmem, hid⟩
    unfold challenges
    apply BTreeMap.get?_ofList_of_unique
    · rw [List.mem_map]
      exact ⟨(e, challenge), hmem, by rw [hid]⟩
    · intro other hother
      obtain ⟨⟨e', c⟩, hp, hpair⟩ := List.mem_map.mp hother
      rw [Prod.mk.injEq] at hpair
      rw [← hpair.2]
      exact h (e', c) hp (e, challenge) hmem (hpair.1.trans hid.symm)

section Grown

variable {log log' : List Entry} (hp : log <+: log')
include hp

omit [World] in
theorem decoded_of_grown {α ε : Type} {kind : EntryKind} {decode : Value → Except ε α}
    {p : Entry × α} (h : p ∈ decoded kind decode log) : p ∈ decoded kind decode log' := by
  obtain ⟨rest, rfl⟩ := hp
  simp [h]

variable {challenge : Challenge}

theorem challenges_of_grown (h : StableChallenges log') {id : String}
    (hget : (challenges log).get? id = some challenge) :
    (challenges log').get? id = some challenge := by
  have hstable : StableChallenges log :=
    fun p hp' q hq => h p (decoded_of_grown hp hp') q (decoded_of_grown hp hq)
  obtain ⟨e, hmem, hid⟩ := (get?_challenges hstable).mp hget
  exact (get?_challenges h).mpr ⟨e, decoded_of_grown hp hmem, hid⟩

theorem claimOf_of_grown {id : String} {claim : Claim} (h : claimOf log id = some claim) :
    claimOf log' id = some claim := by
  obtain ⟨rest, rfl⟩ := hp
  unfold claimOf at h ⊢
  rw [Option.map_eq_some_iff] at h ⊢
  obtain ⟨p, hfind, hclaim⟩ := h
  refine ⟨p, ?_, hclaim⟩
  rw [claims_append, List.find?_append, hfind]
  rfl

theorem disputedClaim_of_grown (hids : StableIds log') {claim : Claim} {objective : Objective}
    (h : disputedClaim log challenge = some (claim, objective)) :
    disputedClaim log' challenge = some (claim, objective) := by
  unfold disputedClaim at h ⊢
  simp only [Option.bind_eq_bind, Option.bind_eq_some_iff, Option.pure_def, Option.some.injEq] at h
  obtain ⟨c, hclaim, o, hget, hpair⟩ := h
  cases hpair
  have hget' : (objectives log').get? claim.objectiveId = some objective := by
    obtain ⟨rest, rfl⟩ := hp
    exact hids.get?_append hget
  rw [claimOf_of_grown hp hclaim]
  show ((objectives log').get? claim.objectiveId).bind _ = _
  rw [hget']
  rfl

theorem sideOf_of_grown (hids : StableIds log') {mover : String} {side : Side}
    (h : sideOf log challenge mover = some side) : sideOf log' challenge mover = some side := by
  unfold sideOf at h ⊢
  split_ifs at h ⊢ with hmover
  · exact h
  · cases hclaim : disputedClaim log challenge with
    | none =>
      rw [hclaim] at h
      cases h
    | some p =>
      obtain ⟨claim, objective⟩ := p
      rw [hclaim] at h
      rw [disputedClaim_of_grown hp hids hclaim]
      exact h

end Grown

/-! ## The checks, read back -/

/-- What a challenge was admitted on: a claim of the log, and another root for a
trace as long as the claim's. -/
structure ChallengeStands (log : List Entry) (challenge : Challenge) (claim : Claim)
    (objective : Objective) (defenderRoot : String) : Prop where
  disputes : disputedClaim log challenge = some (claim, objective)
  trace : committedTrace claim = some (defenderRoot, challenge.states)
  contradicts : defenderRoot ≠ challenge.root
  long : 2 ≤ challenge.states.toNat

theorem challengeStands_of_check {ts : String} (h : checkChallenge log challenge ts = .ok ()) :
    ∃ claim objective defenderRoot,
      ChallengeStands log challenge claim objective defenderRoot := by
  unfold checkChallenge at h
  simp only [bind_eq_ok, mapError_eq_ok, ensure_eq_ok, okOr_eq_ok] at h
  obtain ⟨⟨⟩, hvalid, ⟨⟩, -, -, -, ⟨claim, objective⟩, hclaim, ⟨⟩, -, ⟨⟩, -, ⟨defenderRoot, states⟩,
    htrace, ⟨⟩, hstates, ⟨⟩, hroot, -⟩ := h
  refine ⟨claim, objective, defenderRoot, hclaim, ?_, hroot, Challenge.length_of_validate hvalid⟩
  rw [← hstates]
  exact htrace

/-- What a move is admitted on. -/
structure MoveStands (log : List Entry) (record : BisectionMove) (challenge : Challenge)
    (claim : Claim) (objective : Objective) (defenderRoot : String) (states : UInt64)
    (side : Side) : Prop where
  known : (challenges log).get? record.challengeId = some challenge
  party : sideOf log challenge record.mover = some side
  disputes : disputedClaim log challenge = some (claim, objective)
  trace : committedTrace claim = some (defenderRoot, states)
  opens : (moveOf record states).opens (side.rootOf defenderRoot challenge.root) = true

theorem checkBisection_eq_ok {record : BisectionMove} {ts : String} :
    checkBisection log record ts = .ok () ↔
      record.validate = .ok () ∧ record.verifySignature = .ok () ∧
      (∃ epoch, ensureRecordAdmissionEpoch "bisection" record.createdAt ts = .ok epoch) ∧
      challengeOutcome log record.challengeId = none ∧
      ∃ challenge claim objective defenderRoot states side,
        MoveStands log record challenge claim objective defenderRoot states side ∧
        checkTurn log record side states = .ok () := by
  unfold checkBisection
  simp only [bind_eq_ok, mapError_eq_ok, ensure_eq_ok, okOr_eq_ok]
  constructor
  · rintro ⟨⟨⟩, hvalid, ⟨⟩, hsigned, epoch, hepoch, challenge, hchallenge, side, hside, ⟨⟩, hopen,
      ⟨claim, objective⟩, hclaim, ⟨defenderRoot, states⟩, htrace, ⟨⟩, hopens, hturn⟩
    refine ⟨hvalid, hsigned, ⟨epoch, hepoch⟩, Option.isNone_iff_eq_none.mp hopen, challenge, claim,
      objective, defenderRoot, states, side, ⟨hchallenge, hside, hclaim, htrace, ?_⟩, hturn⟩
    cases side with
    | defender => exact hopens
    | challenger => exact hopens
  · rintro ⟨hvalid, hsigned, ⟨epoch, hepoch⟩, hopen, challenge, claim, objective, defenderRoot,
      states, side, hstands, hturn⟩
    refine ⟨(), hvalid, (), hsigned, epoch, hepoch, challenge, hstands.known, side, hstands.party,
      (), Option.isNone_iff_eq_none.mpr hopen, (claim, objective), hstands.disputes,
      (defenderRoot, states), hstands.trace, (), ?_, hturn⟩
    have hopens := hstands.opens
    cases side with
    | defender => exact hopens
    | challenger => exact hopens

theorem ChallengeStands.of_prefix {log' : List Entry} (hp : log <+: log') (hids : StableIds log')
    {claim : Claim} {objective : Objective} {defenderRoot : String}
    (h : ChallengeStands log challenge claim objective defenderRoot) :
    ChallengeStands log' challenge claim objective defenderRoot :=
  ⟨disputedClaim_of_grown hp hids h.disputes, h.trace, h.contradicts, h.long⟩

theorem MoveStands.of_prefix {log' : List Entry} (hp : log <+: log') (hids : StableIds log')
    (hstable : StableChallenges log') {record : BisectionMove} {claim : Claim}
    {objective : Objective} {defenderRoot : String} {states : UInt64} {side : Side}
    (h : MoveStands log record challenge claim objective defenderRoot states side) :
    MoveStands log' record challenge claim objective defenderRoot states side :=
  ⟨challenges_of_grown hp hstable h.known, sideOf_of_grown hp hids h.party,
    disputedClaim_of_grown hp hids h.disputes, h.trace, h.opens⟩

end Log

namespace Node

variable [World]

open Log

/-- A challenge of the log stands. -/
theorem Reaches.challengeStands {n m : Node} (hempty : n.log = []) (h : Reaches n m)
    (hids : StableIds m.log) (hstable : StableChallenges m.log) {id : String}
    {challenge : Challenge} (hget : (challenges m.log).get? id = some challenge) :
    ∃ claim objective defenderRoot,
      ChallengeStands m.log challenge claim objective defenderRoot := by
  obtain ⟨e, hmem, -⟩ := (get?_challenges hstable).mp hget
  obtain ⟨hin, hkind, hdecode⟩ := mem_decoded.mp hmem
  obtain ⟨before, after, hlog⟩ := List.append_of_mem hin
  have hadmits := h.admitted_as hempty hlog hkind (by decide)
  dsimp only at hdecode
  generalize e.payload = payload at hadmits hdecode
  generalize e.ts = ts at hadmits
  cases hadmits with
  | @challenge posted _ hcheck =>
    have hvalid := Challenge.fromValue_valid hdecode
    rw [Challenge.fromValue_toValue] at hdecode
    have hsame : posted = challenge := by
      cases hposted : posted.validate with
      | error error =>
        rw [hposted] at hdecode
        cases hdecode
      | ok u =>
        rw [hposted] at hdecode
        exact Except.ok.inj hdecode
    rw [hsame] at hcheck
    obtain ⟨claim, objective, defenderRoot, hstands⟩ := challengeStands_of_check hcheck
    have hp : before <+: m.log := by
      rw [hlog]
      exact List.prefix_append _ _
    exact ⟨claim, objective, defenderRoot, hstands.of_prefix hp hids⟩

/-- A move of the log stands. -/
theorem Reaches.moveStands {n m : Node} (hempty : n.log = []) (h : Reaches n m)
    (hids : StableIds m.log) (hstable : StableChallenges m.log) {e : Entry}
    {record : BisectionMove}
    (hmem : (e, record) ∈ decoded .bisection BisectionMove.fromValue m.log) :
    ∃ challenge claim objective defenderRoot states side,
      MoveStands m.log record challenge claim objective defenderRoot states side := by
  obtain ⟨hin, hkind, hdecode⟩ := mem_decoded.mp hmem
  obtain ⟨before, after, hlog⟩ := List.append_of_mem hin
  have hadmits := h.admitted_as hempty hlog hkind (by decide)
  dsimp only at hdecode
  generalize e.payload = payload at hadmits hdecode
  generalize e.ts = ts at hadmits
  cases hadmits with
  | @bisection posted _ hcheck =>
    obtain ⟨hvalid, -, -, -, challenge, claim, objective, defenderRoot, states, side, hstands, -⟩ :=
      checkBisection_eq_ok.mp hcheck
    rw [BisectionMove.fromValue_toValue, hvalid] at hdecode
    have hsame : posted = record := Except.ok.inj hdecode
    rw [hsame] at hstands
    have hp : before <+: m.log := by
      rw [hlog]
      exact List.prefix_append _ _
    exact ⟨challenge, claim, objective, defenderRoot, states, side,
      hstands.of_prefix hp hids hstable⟩

end Node

end Cairn.Ports
