import Cairn.Ports.Node.Units

/-!
# The index of paid units, query by query

`paid_unit_keys` of `src/node.rs` reads what a job has paid from an index that
it brings up to date at every call and never rebuilds. Between the calls the log
takes entries of any kind. As long as a claim comes after its objective, and is
not new once it has been settled, every call answers what a scan of the whole
log gives; a claim that comes after its settlement is missed.
-/

namespace Cairn.Ports

open Cairn.Verified
open Cairn.Verified.AppendOnly
open Cairn.Ports.Canonical
open Cairn.Ports.Log

/-- What happens between two readings of the index: an entry is appended, or
the units paid for the job of an objective are asked for. -/
inductive MemoStep where
  | append (kind : EntryKind) (payload : Value) (ts : String)
  | query (objective : Objective)

/-- The paid units of a job, from every claim of the log. -/
def Log.paidUnits [Sha256] (log : List Entry) (objective : Objective) (piecework : Piecework) :
    List String :=
  ((claims log).filter fun p =>
    p.2.objectiveId ∈ pieceworkScope log objective && p.2.id ∈ settledIds log).flatMap
      fun p => piecework.unitKeys p.2.artifact

/-- A claim comes after its objective, and after its settlement only as an old
claim again. -/
structure Log.Orderly [Sha256] (log : List Entry) : Prop where
  known : ∀ seen e claim, seen ++ [e] <+: log → e.kind = EntryKind.claim.asStr →
    Claim.fromValue e.payload = .ok claim → ((objectives seen).get? claim.objectiveId).isSome
  settled : SettledSeen log

namespace Node

section Memo

variable [World]

/-- The units paid for the job of an objective, for an objective whose block
parses; the callers ask for no other. -/
def queryPaid (n : Node) (objective : Objective) : Node × List String :=
  match objective.piecework.map Piecework.fromValue with
  | some (.ok piecework) => n.paidUnitKeys objective piecework
  | _ => (n, [])

def memoStep (n : Node) : MemoStep → Node
  | .append kind payload ts => n.append kind payload ts
  | .query objective => (n.queryPaid objective).1

def memoRun (n : Node) (steps : List MemoStep) : Node := steps.foldl memoStep n

/-- The texts whose digests name what a run reads or is asked about. -/
def MemoTexts (n : Node) (steps : List MemoStep) (text : String) : Prop :=
  RecordTexts (n.memoRun steps).log text ∨
    ∃ o, .query o ∈ steps ∧ (text = o.verifier.canonicalString ∨
      ∃ block, o.piecework = some block ∧ text = block.canonicalString)

/-- Every index is the index of the job of an objective that was asked about. -/
def MemoOk (asked : Objective → Prop) (n : Node) : Prop :=
  ∀ job index, n.pieceworkIndex.get? job = some index →
    ∃ o block piecework, asked o ∧ o.piecework = some block ∧
      Piecework.fromValue block = .ok piecework ∧ job = jobOf o block ∧
      index.scanned ≤ n.log.length ∧
      Indexed n.log (n.log.take index.scanned) o.verifier block piecework index

theorem queryPaid_of_parse (n : Node) {objective : Objective} {block : Value}
    {piecework : Piecework} (hblock : objective.piecework = some block)
    (hparse : Piecework.fromValue block = .ok piecework) :
    n.queryPaid objective = n.paidUnitKeys objective piecework := by
  simp [queryPaid, hblock, hparse]

/-- The first query of a job scans the whole log. -/
theorem paidUnitKeys_first {n : Node} {objective : Objective} {block : Value}
    {piecework : Piecework} (hempty : n.pieceworkIndex = .empty)
    (hblock : objective.piecework = some block) :
    (n.paidUnitKeys objective piecework).2 =
      (n.log.foldl (scanEntry (pieceworkScope n.log objective) piecework) .empty).paid := by
  simp [paidUnitKeys, hblock, hempty, BTreeMap.get?_empty, PaidUnitIndex.empty]

theorem memoRun_append (n : Node) (steps steps' : List MemoStep) :
    n.memoRun (steps ++ steps') = (n.memoRun steps).memoRun steps' := List.foldl_append

@[simp] theorem log_queryPaid (n : Node) (objective : Objective) :
    (n.queryPaid objective).1.log = n.log := by
  unfold queryPaid
  split
  · exact log_paidUnitKeys n objective _
  · rfl

theorem log_memoStep (n : Node) (s : MemoStep) : n.log <+: (n.memoStep s).log := by
  cases s with
  | append kind payload ts =>
    show n.log <+: (n.append kind payload ts).log
    rw [log_append]
    exact List.prefix_append _ _
  | query objective =>
    show n.log <+: (n.queryPaid objective).1.log
    rw [log_queryPaid]

theorem log_memoRun (n : Node) (steps : List MemoStep) : n.log <+: (n.memoRun steps).log := by
  induction steps generalizing n with
  | nil => exact List.prefix_refl _
  | cons s steps ih => exact (log_memoStep n s).trans (ih (n.memoStep s))

end Memo

end Node

/-! ## Logs in order -/

namespace Log

section Order

variable [Sha256]

theorem Orderly.of_prefix {log log' : List Entry} (h : Orderly log') (hp : log <+: log') :
    Orderly log where
  known := fun seen e claim hseen => h.known seen e claim (hseen.trans hp)
  settled := fun seen e claim hseen => h.settled seen e claim (hseen.trans hp)

theorem Orderly.knownClaims {log : List Entry} (h : Orderly log) (hstable : StableIds log) :
    KnownClaims log := by
  intro p hp
  obtain ⟨hmem, hkind, hdecode⟩ := mem_decoded.mp hp
  obtain ⟨before, after, hlog⟩ := List.append_of_mem hmem
  have hsplit : log = before ++ [p.1] ++ after := by
    rw [hlog, List.append_assoc]
    rfl
  have hknown := h.known before p.1 p.2 ⟨after, hsplit.symm⟩ hkind hdecode
  obtain ⟨o, ho⟩ := Option.isSome_iff_exists.mp hknown
  rw [hsplit, List.append_assoc] at hstable ⊢
  rw [hstable.get?_append ho]
  rfl

/-- A unit is paid when it is among the paid units of the log. -/
theorem mem_paidUnits {log : List Entry} {objective : Objective} {block : Value}
    {piecework : Piecework} (hblock : objective.piecework = some block) {key : String} :
    key ∈ paidUnits log objective piecework ↔
      PaidUnit log log objective.verifier block piecework key := by
  unfold paidUnits PaidUnit
  simp only [List.mem_flatMap, List.mem_filter, Bool.and_eq_true, decide_eq_true_eq,
    mem_pieceworkScope hblock]
  constructor
  · rintro ⟨p, ⟨hp, hjob, hsettled⟩, hkey⟩
    exact ⟨p, hp, hsettled, hjob, hkey⟩
  · rintro ⟨p, hp, hsettled, hjob, hkey⟩
    exact ⟨p, ⟨hp, hjob, hsettled⟩, hkey⟩

end Order

end Log

namespace Node

/-! ## One step -/

section Run

variable [World]

variable {asked : Objective → Prop} {n : Node} {texts : String → Prop}

/-- An entry appended later leaves what an index saw. -/
theorem MemoOk.append (h : MemoOk asked n)
    (hknown : KnownClaims n.log) {kind : EntryKind} {payload : Value} {ts : String}
    (hstable : StableIds (n.append kind payload ts).log) :
    MemoOk asked (n.append kind payload ts) := by
  intro job index hget
  obtain ⟨o, block, piecework, hasked, hblock, hparse, hjob, hscanned, hindexed⟩ :=
    h job index hget
  have hgrown := hindexed.grow (List.take_prefix _ _) hknown hstable
  refine ⟨o, block, piecework, hasked, hblock, hparse, hjob, ?_, ?_⟩
  · rw [log_append, List.length_append]
    omega
  · rw [log_append, List.take_append_of_le_length hscanned]
    exact hgrown

/-- A query answers the paid units of the log, and leaves its index up to
date. -/
theorem MemoOk.query
    (h : MemoOk asked n) (hcol : NoCollision texts)
    (htexts : ∀ text, RecordTexts n.log text → texts text)
    (hverifier : ∀ o, asked o → texts o.verifier.canonicalString)
    (hjobs : ∀ o block, asked o → o.piecework = some block → texts block.canonicalString)
    (horderly : Orderly n.log) {objective : Objective} {block : Value} {piecework : Piecework}
    (hasked : asked objective) (hblock : objective.piecework = some block)
    (hparse : Piecework.fromValue block = .ok piecework) :
    MemoOk asked (n.paidUnitKeys objective piecework).1 ∧
      ∀ key, key ∈ (n.paidUnitKeys objective piecework).2 ↔
        key ∈ paidUnits n.log objective piecework := by
  have hheld : ∀ index, n.pieceworkIndex.get? (jobOf objective block) = some index →
      index.scanned ≤ n.log.length ∧
        Indexed n.log (n.log.take index.scanned) objective.verifier block piecework index := by
    intro index hget
    obtain ⟨o', block', piecework', hasked', hblock', hparse', hjob, hscanned, hindexed⟩ :=
      h _ index hget
    obtain ⟨hsame, rfl⟩ := jobOf_inj hcol (hverifier _ hasked) (hverifier _ hasked')
      (hjobs _ _ hasked hblock) (hjobs _ _ hasked' hblock') hjob
    rw [hparse] at hparse'
    cases hparse'
    rw [← hsame] at hindexed
    exact ⟨hscanned, hindexed⟩
  have hstable := stableClaims_of_noCollision (hcol.mono htexts)
  obtain ⟨index, hlength, hscan, heq⟩ :=
    paidUnitKeys_of_held hblock hstable horderly.settled hheld
  rw [heq]
  constructor
  · intro job' index' hget
    rw [BTreeMap.get?_insert] at hget
    split_ifs at hget with hjob
    · cases hget
      refine ⟨objective, block, piecework, hasked, hblock, hparse, hjob, hlength.le, ?_⟩
      show Indexed n.log (n.log.take index.scanned) _ _ _ _
      rw [hlength, List.take_length]
      exact hscan
    · exact h job' index' hget
  · intro key
    rw [mem_paidUnits hblock]
    exact hscan.paid key

/-- One step keeps what the indices hold. -/
theorem MemoOk.step
    (h : MemoOk asked n) (hcol : NoCollision texts) {s : MemoStep}
    (htexts : ∀ text, RecordTexts (n.memoStep s).log text → texts text)
    (hverifier : ∀ o, asked o → texts o.verifier.canonicalString)
    (hjobs : ∀ o block, asked o → o.piecework = some block → texts block.canonicalString)
    (horderly : Orderly (n.memoStep s).log) (hasked : ∀ o, s = .query o → asked o) :
    MemoOk asked (n.memoStep s) := by
  have hprefix := log_memoStep n s
  have hcolStep := hcol.mono htexts
  have hstable := stableIds_of_noCollision hcolStep
  have hbefore := horderly.of_prefix hprefix
  cases s with
  | append kind payload ts =>
    have hcolBefore : NoCollision (RecordTexts n.log) :=
      hcolStep.mono fun _ ht => ht.of_prefix hprefix
    exact h.append (hbefore.knownClaims (stableIds_of_noCollision hcolBefore)) hstable
  | query objective =>
    show MemoOk asked (n.queryPaid objective).1
    cases hblock : objective.piecework with
    | none => simpa [queryPaid, hblock] using h
    | some block =>
      cases hparse : Piecework.fromValue block with
      | error e => simpa [queryPaid, hblock, hparse] using h
      | ok piecework =>
        rw [queryPaid_of_parse n hblock hparse]
        exact (h.query hcol (fun _ ht => htexts _ (ht.of_prefix hprefix)) hverifier hjobs
          hbefore (hasked objective rfl) hblock hparse).1

theorem MemoOk.run (hcol : NoCollision texts)
    (hverifier : ∀ o, asked o → texts o.verifier.canonicalString)
    (hjobs : ∀ o block, asked o → o.piecework = some block → texts block.canonicalString)
    (steps : List MemoStep) :
    ∀ n : Node, MemoOk asked n → (∀ text, RecordTexts (n.memoRun steps).log text → texts text) →
      Orderly (n.memoRun steps).log → (∀ o, .query o ∈ steps → asked o) →
      MemoOk asked (n.memoRun steps) := by
  induction steps with
  | nil =>
    intro n h _ _ _
    exact h
  | cons s steps ih =>
    intro n h htexts horderly hasked
    have hprefix : (n.memoStep s).log <+: ((n.memoStep s).memoRun steps).log :=
      log_memoRun _ steps
    have hstep : MemoOk asked (n.memoStep s) := by
      apply h.step hcol (fun _ ht => htexts _ (ht.of_prefix hprefix)) hverifier hjobs
        (horderly.of_prefix hprefix)
      rintro o rfl
      exact hasked o List.mem_cons_self
    exact ih _ hstep htexts horderly fun o ho => hasked o (List.mem_cons_of_mem _ ho)

end Run

end Node

/-! ## The sample's records -/

def sampleMemoBlock : Value := .object [("unit_price", u64Value 5)]

def sampleMemoPiecework : Piecework := ⟨5, none, none, none⟩

/-- An objective, a claim on it and its settlement, which comes first when the
claim is late. -/
def sampleMemo (late : Bool) : letI := sampleWorld; List MemoStep :=
  letI := sampleWorld
  let claim := .append .claim sampleClaim.toValue "2026-01-01T00:10:00Z"
  let settlement := .append .settlement
    (settlementValue sampleObjectiveId sampleClaim.id "alice" 5) "2026-01-01T00:40:00Z"
  .append .objective sampleObjective.toValue "2026-01-01T00:00:00Z" ::
    if late then [settlement, claim] else [claim, settlement]

/-- The entries of the sample, as far as the index reads them. -/
structure SampleMemoEntries [Sha256] (objective claim settlement : Entry) : Prop where
  objective_kind : objective.kind = EntryKind.objective.asStr
  objective_payload : objective.payload = sampleObjective.toValue
  claim_kind : claim.kind = EntryKind.claim.asStr
  claim_payload : claim.payload = sampleClaim.toValue
  settlement_kind : settlement.kind = EntryKind.settlement.asStr
  settlement_payload : settlement.payload =
    settlementValue sampleObjectiveId sampleClaim.id "alice" 5

theorem sampleMemo_entries : letI := sampleWorld
    ∀ late, ∃ o c s, SampleMemoEntries o c s ∧
      ((Node.new (sampleLog [])).memoRun (sampleMemo late)).log =
        o :: if late then [s, c] else [c, s] := by
  let _ := sampleWorld
  intro late
  cases late with
  | true => exact ⟨_, _, _, ⟨rfl, rfl, rfl, rfl, rfl, rfl⟩, rfl⟩
  | false => exact ⟨_, _, _, ⟨rfl, rfl, rfl, rfl, rfl, rfl⟩, rfl⟩

theorem sampleMemo_objective :
    Objective.fromValue sampleObjective.toValue = .ok sampleObjective := by
  have hvalid : sampleObjective.validate = .ok () := by decide
  rw [Objective.fromValue_toValue,
    Objective.stripNulls_of_noNulls (Objective.noNulls_of_validate hvalid), hvalid]
  rfl

theorem sampleMemo_claim : Claim.fromValue sampleClaim.toValue = .ok sampleClaim :=
  Claim.fromValue_toValue_iff.mpr ⟨rfl, toOk_eq_some (by decide)⟩

section Entries

variable [Sha256] {o c s : Entry}

theorem SampleMemoEntries.objectives (h : SampleMemoEntries o c s) (late : Bool) :
    decoded .objective Objective.fromValue (o :: if late then [s, c] else [c, s]) =
      [(o, sampleObjective)] := by
  have hc : c.kind ≠ EntryKind.objective.asStr := by simp [h.claim_kind]
  have hs : s.kind ≠ EntryKind.objective.asStr := by simp [h.settlement_kind]
  cases late <;>
    simp [decoded, ofKind, h.objective_kind, h.objective_payload, hc, hs,
      sampleMemo_objective, toOk]

theorem SampleMemoEntries.claims (h : SampleMemoEntries o c s) (late : Bool) :
    Log.claims (o :: if late then [s, c] else [c, s]) = [(c, sampleClaim)] := by
  have ho : o.kind ≠ EntryKind.claim.asStr := by simp [h.objective_kind]
  have hs : s.kind ≠ EntryKind.claim.asStr := by simp [h.settlement_kind]
  cases late <;>
    simp [Log.claims, decoded, ofKind, h.claim_kind, h.claim_payload, ho, hs,
      sampleMemo_claim, toOk]

theorem SampleMemoEntries.settledIds (h : SampleMemoEntries o c s) (late : Bool) :
    settledIds (o :: if late then [s, c] else [c, s]) = [sampleClaim.id] := by
  have ho : o.kind ≠ EntryKind.settlement.asStr := by simp [h.objective_kind]
  have hc : c.kind ≠ EntryKind.settlement.asStr := by simp [h.claim_kind]
  cases late <;>
    simp [Log.settledIds, ofKind, h.settlement_kind, h.settlement_payload, ho, hc]

/-- Whatever the order, the unit of the sample's claim is paid. -/
theorem SampleMemoEntries.paidUnits (h : SampleMemoEntries o c s)
    (hid : sampleObjective.id = sampleObjectiveId) (late : Bool) {key : String}
    (hkey : key ∈ sampleMemoPiecework.unitKeys sampleClaim.artifact) :
    key ∈ paidUnits (o :: if late then [s, c] else [c, s]) sampleObjective sampleMemoPiecework := by
  have hblock : sampleObjective.piecework = some sampleMemoBlock := rfl
  rw [mem_paidUnits hblock]
  refine ⟨(c, sampleClaim), ?_, ?_, ⟨sampleObjective, ?_, rfl, rfl⟩, hkey⟩
  · rw [h.claims]
    exact List.mem_singleton_self _
  · rw [h.settledIds]
    exact List.mem_singleton_self _
  · unfold Log.objectives
    rw [h.objectives, List.map_singleton, hid]
    rfl

end Entries

/-- A scan that meets the settlement first passes it by. -/
theorem SampleMemoEntries.scan_late [World] {o c s : Entry} (h : SampleMemoEntries o c s)
    (scope : List String) (piecework : Piecework) :
    ([o, s, c].foldl (Node.scanEntry scope piecework) .empty).paid = [] := by
  have hsettlement : Node.scanEntry scope piecework .empty s = .empty := by
    simp [Node.scanEntry, h.settlement_kind, h.settlement_payload, PaidUnitIndex.empty]
  have hobjective : Node.scanEntry scope piecework .empty o = .empty := by
    simp [Node.scanEntry, h.objective_kind]
  simp only [List.foldl_cons, List.foldl_nil, hobjective, hsettlement]
  simp only [Node.scanEntry, h.claim_kind, h.claim_payload, sampleMemo_claim, ↓reduceIte]
  split_ifs <;> rfl

theorem sampleMemo_id : letI := sampleWorld
    sampleObjective.id = sampleObjectiveId := by
  let _ := sampleWorld
  exact Value.digest_ofLengths sampleRunDigests (n := 185) (by decide +kernel) (by decide)

theorem SampleMemoEntries.orderly [Sha256] {o c s : Entry} (h : SampleMemoEntries o c s)
    (hid : sampleObjective.id = sampleObjectiveId) : Orderly [o, c, s] := by
  have ho : o.kind ≠ EntryKind.claim.asStr := by simp [h.objective_kind]
  have hs : s.kind ≠ EntryKind.claim.asStr := by simp [h.settlement_kind]
  have hseen : ∀ seen e, seen ++ [e] <+: [o, c, s] → e.kind = EntryKind.claim.asStr →
      seen = [o] ∧ e = c := by
    rintro seen e ⟨rest, hlog⟩ hkind
    match seen with
    | [] =>
      cases hlog
      exact absurd hkind ho
    | [_] =>
      cases hlog
      exact ⟨rfl, rfl⟩
    | [_, _] =>
      cases hlog
      exact absurd hkind hs
    | _ :: _ :: _ :: _ =>
      have hlength := congrArg List.length hlog
      simp at hlength
  constructor
  · intro seen e claim hprefix hkind hdecode
    obtain ⟨rfl, rfl⟩ := hseen seen e hprefix hkind
    rw [h.claim_payload, sampleMemo_claim] at hdecode
    cases hdecode
    have hobjectives : decoded .objective Objective.fromValue [o] = [(o, sampleObjective)] := by
      simp [decoded, ofKind, h.objective_kind, h.objective_payload, sampleMemo_objective, toOk]
    unfold Log.objectives
    rw [hobjectives, List.map_singleton, hid]
    rfl
  · intro seen e claim hprefix hkind _ hsettled
    obtain ⟨rfl, rfl⟩ := hseen seen e hprefix hkind
    rw [settledIds_of_ne (by simp [h.objective_kind])] at hsettled
    cases hsettled

theorem sampleMemo_texts : letI := sampleWorld
    NoCollision ((Node.new (sampleLog [])).MemoTexts
      (sampleMemo false ++ [.query sampleObjective])) := by
  let _ := sampleWorld
  obtain ⟨o, c, s, h, hlog⟩ := sampleMemo_entries false
  apply sample_recordTexts_of
  rintro text (htext | ⟨objective, hasked, htext⟩)
  · rw [Node.memoRun_append] at htext
    have hsame : ((Node.memoRun (Node.new (sampleLog [])) (sampleMemo false)).memoRun
        [.query sampleObjective]).log = o :: if false then [s, c] else [c, s] :=
      (Node.log_queryPaid _ _).trans hlog
    rw [hsame, RecordTexts, h.objectives, h.claims] at htext
    simp only [List.mem_singleton, exists_eq_left] at htext
    obtain (rfl | rfl | ⟨block, hblock, rfl⟩) | rfl := htext
    · simp
    · simp
    · cases hblock
      simp
    · simp
  · have hobjective : objective = sampleObjective := by
      obtain hasked | hasked := List.mem_append.mp hasked
      · simp [sampleMemo] at hasked
      · simpa using hasked
    subst hobjective
    obtain rfl | ⟨block, hblock, rfl⟩ := htext
    · simp
    · cases hblock
      simp

theorem sampleMemo_units : letI := sampleWorld
    sampleMemoPiecework.unitKeys sampleClaim.artifact =
      ["piece:sha256:078a284bd21d80ddb22b44050faaad556b86ba7e5915bb40cfc3584cbea95be3"] := by
  let _ := sampleWorld
  have hdigest : sampleClaim.artifact.digest =
      "sha256:078a284bd21d80ddb22b44050faaad556b86ba7e5915bb40cfc3584cbea95be3" :=
    Value.digest_ofLengths sampleRunDigests (n := 12) (by decide +kernel) (by decide)
  show ["piece:" ++ sampleClaim.artifact.digest] = _
  rw [hdigest]
  rfl

end Cairn.Ports
