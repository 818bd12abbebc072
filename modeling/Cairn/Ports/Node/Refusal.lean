import Cairn.Ports.Sync.Overtaken

/-!
# What a refused record leaves

`commit` and `reveal` of `src/node.rs` drain before they check a record against
the log, and look at its submitter, its signature and its epochs before they
drain. A record refused at that first look leaves the log alone. One refused
later leaves what the drain appended, and that alone.
-/

namespace Cairn.Ports

open Cairn.Verified
open Cairn.Ports.Canonical

section Refused

variable [World]

namespace Node

/-- What is left of a call that named an epoch, or failed to, and was refused:
the log as it was, or as the drain of the epoch leaves it. -/
structure Undone (n : Node) (named : Except RuleViolation UInt64) (ts : String)
    (log : List Entry) : Prop where
  early : ∀ error, named = .error error → log = n.log
  drained : ∀ epoch, named = .ok epoch →
    epochOfTs ts = some epoch ∧ log = (n.settleDue epoch ts).1.log
  kept : ∀ kind ∈ [EntryKind.commitment, .claim, .verdict],
    Log.ofKind log kind = Log.ofKind n.log kind

theorem undone_early {n : Node} {ts : String} {error : RuleViolation} :
    n.Undone (.error error) ts n.log where
  early _ _ := rfl
  drained _ h := by cases h
  kept _ _ := rfl

theorem undone_drained {n : Node} {ts : String} {epoch : UInt64} (h : epochOfTs ts = some epoch) :
    n.Undone (.ok epoch) ts (n.settleDue epoch ts).1.log where
  early _ h := by cases h
  drained _ heq := by
    cases heq
    exact ⟨h, rfl⟩
  kept kind hkind := by
    apply ofKind_payouts (n.settleDue_log epoch ts)
    revert kind
    decide

theorem commit_undone (n : Node) (commitment : Commitment) (ts : String) {error : RuleViolation}
    (h : (n.commit commitment ts).2 = .error error) :
    n.Undone (Log.commitEpoch commitment ts) ts (n.commit commitment ts).1.log := by
  unfold commit at h ⊢
  cases hnamed : Log.commitEpoch commitment ts with
  | error error => exact undone_early
  | ok epoch =>
    have hdrained := undone_drained (n := n) (commitEpoch_ok hnamed).2
    rw [hnamed] at h
    dsimp only at h ⊢
    generalize n.settleDue epoch ts = res at h hdrained ⊢
    rcases res with ⟨m, result⟩
    cases result with
    | error error => exact hdrained
    | ok outcomes =>
      dsimp only at h ⊢
      unfold post at h ⊢
      cases hcheck : Log.checkCommit m.log commitment with
      | error error => exact hdrained
      | ok u =>
        rw [hcheck] at h
        cases h

theorem reveal_undone (n : Node) (registry : Registry) (claim : Claim) (ts : String)
    {error : RuleViolation} (h : (n.reveal registry claim ts).2 = .error error) :
    n.Undone (Log.revealEpoch n.log claim ts) ts (n.reveal registry claim ts).1.log := by
  unfold reveal at h ⊢
  cases hnamed : Log.revealEpoch n.log claim ts with
  | error error => exact undone_early
  | ok epoch =>
    have hdrained := undone_drained (n := n) (revealEpoch_ok hnamed).2
    rw [hnamed] at h
    dsimp only at h ⊢
    generalize n.settleDue epoch ts = res at h hdrained ⊢
    rcases res with ⟨m, result⟩
    cases result with
    | error error => exact hdrained
    | ok outcomes =>
      dsimp only at h ⊢
      cases hcheck : Log.checkReveal m.log claim epoch
          (Log.matchingCommitmentEntry n.log claim) with
      | error error => exact hdrained
      | ok objective =>
        rw [hcheck] at h
        cases h

/-- A refused commit or reveal leaves the log alone when it names no epoch, and
otherwise the log a drain of the epoch leaves; nothing of the record is in it. -/
theorem refused_leaves_drain (n : Node) (ts : String) :
    (∀ commitment error, (n.commit commitment ts).2 = .error error →
      n.Undone (Log.commitEpoch commitment ts) ts (n.commit commitment ts).1.log) ∧
    ∀ registry claim error, (n.reveal registry claim ts).2 = .error error →
      n.Undone (Log.revealEpoch n.log claim ts) ts (n.reveal registry claim ts).1.log := by
  constructor
  · intro commitment error h
    exact n.commit_undone commitment ts h
  · intro registry claim error h
    exact n.reveal_undone registry claim ts h

end Node

end Refused

/-! ## A commitment with the wrong date -/

section Sample

attribute [local instance] sampleSessionWorld

/-- The commitment of the sample names another epoch than half past. -/
theorem sampleAnswer_misdated : ∃ error,
    Log.commitEpoch sampleAnswer "2026-01-01T00:30:00Z" = .error error := by
  cases hnamed : Log.commitEpoch sampleAnswer "2026-01-01T00:30:00Z" with
  | error error => exact ⟨error, rfl⟩
  | ok epoch =>
    rcases Node.commitEpoch_ok hnamed with ⟨hdeclared, hadmitted⟩
    have hfirst : epochOfTs sampleAnswer.createdAt = some 2945376 := by decide +kernel
    rw [(Node.commitEpoch_ok sampleLater_epoch).2] at hadmitted
    rw [hfirst, ← hadmitted] at hdeclared
    exact absurd hdeclared (by decide)

theorem commit_misdated (n : Node) : ∃ error,
    Log.commitEpoch sampleAnswer "2026-01-01T00:30:00Z" = .error error ∧
      n.commit sampleAnswer "2026-01-01T00:30:00Z" = (n, .error error) := by
  rcases sampleAnswer_misdated with ⟨error, hnamed⟩
  refine ⟨error, hnamed, ?_⟩
  unfold Node.commit
  rw [hnamed]

/-- It is refused for its date when the epoch of the claim is over, and leaves
that epoch unsettled. -/
theorem not_refused_leaves_drain :
    ¬∀ (n : Node) (commitment : Commitment) (ts : String) (error : RuleViolation) (epoch : UInt64),
      (n.commit commitment ts).2 = .error error → epochOfTs ts = some epoch →
      (n.commit commitment ts).1.log = (n.settleDue epoch ts).1.log := by
  intro h
  have hreach : Node.Reaches (Node.new (sampleLog []))
      (Node.replayRecords sampleRegistry (Node.new (sampleLog [])) sampleHeld) := by
    rcases Node.beforeClaim_run sampleRegistry (Node.new (sampleLog [])) sampleHeld
      (replayBatch sampleHeld .claim) with ⟨ops, hops⟩
    rw [Node.replayRecords_eq, hops]
    exact Node.run_reaches _ ops
  have hpart := sample_partial
  generalize Node.replayRecords sampleRegistry (Node.new (sampleLog [])) sampleHeld = n
    at hpart hreach
  have hlog : n.log = (sampleRevealed sampleLedgerTwo sampleClaim).entries := by rw [Node.log, hpart]
  have hn : SampleLog n.log := by
    rw [hlog]
    exact sampleLog_two.revealed sampleClaim
  -- the epoch of the claim is due, and a drain settles it
  have hdue : 2945377 ∈ Log.dueEpochs n.log 2945379 := by
    rw [Node.mem_dueEpochs, hn.undrained, hlog]
    exact ⟨⟨_, sample_accepted⟩, List.not_mem_nil, by decide, fun settled hs => by cases hs⟩
  have hsettling := sample_settling rfl hreach hn.posted
  have hdrained := (Node.settleDue_once 2945379 "2026-01-01T00:30:00Z" hsettling.pools
    hsettling.paid).2.2.1
  rcases commit_misdated n with ⟨error, -, hrefused⟩
  have hsame := h n sampleAnswer "2026-01-01T00:30:00Z" error 2945379 (by rw [hrefused])
    (Node.commitEpoch_ok sampleLater_epoch).2
  rw [hrefused] at hsame
  rw [← hsame, hn.undrained, List.nil_append] at hdrained
  rw [← hdrained] at hdue
  cases hdue

theorem refused_leaves_drain_sample :
    ((Node.new sampleLedgerTwo).commit sampleAnswer "2026-01-01T00:30:00Z").1.log =
      sampleLedgerTwo.entries := by
  rcases commit_misdated (Node.new sampleLedgerTwo) with ⟨error, hnamed, hrefused⟩
  exact ((Node.refused_leaves_drain (Node.new sampleLedgerTwo) "2026-01-01T00:30:00Z").1
    sampleAnswer error (by rw [hrefused])).early error hnamed

end Sample

end Cairn.Ports
