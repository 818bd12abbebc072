import Cairn.Ports.Node.Opening

/-!
# Replaying a session's records

`replay_records` of `src/p2p/service.rs`: what a sync session received is run
through the node's own methods, kind by kind and in the order of the records'
own times, each record admitted at the time it says it was created.

A record is passed over when the log holds an entry of its kind with the digest
of its payload. What is stored is what the decoded record encodes to, so for a
payload that is not that encoding the digests differ.
-/

namespace Cairn.Ports

open Cairn.Verified
open Cairn.Verified.AppendOnly
open Cairn.Ports.Canonical

/-- The kinds a replay goes through, in this order. -/
def REPLAYED : List EntryKind := [.objective, .commitment, .claim]

/-- `held`: the time a record says it was created at. -/
def held (payload : Value) : String := (payloadStr payload "created_at").getD ""

/-- An instant that could not be read comes first. -/
def instantBefore : Option Int → Option Int → Prop
  | none, none => False
  | none, some _ => True
  | some _, none => False
  | some s, some t => s < t

instance : DecidableRel instantBefore := fun s t =>
  match s, t with
  | none, none => inferInstanceAs (Decidable False)
  | none, some _ => inferInstanceAs (Decidable True)
  | some _, none => inferInstanceAs (Decidable False)
  | some s, some t => inferInstanceAs (Decidable (s < t))

section Replay

variable [Sha256]

/-- The order of a batch: by instant, then by digest. -/
def ReplayedBefore (a b : Value) : Prop :=
  instantBefore (parseRfc3339 (held a)) (parseRfc3339 (held b)) ∨
    (parseRfc3339 (held a) = parseRfc3339 (held b) ∧ a.digest ≤ b.digest)

instance : DecidableRel ReplayedBefore := fun _ _ => inferInstanceAs (Decidable (_ ∨ _))

/-- The payloads of one kind, in the order they are replayed in. -/
def replayBatch (records : List (String × Value)) (kind : EntryKind) : List Value :=
  ((records.filter fun record => record.1 = kind.asStr).map Prod.snd).insertionSort ReplayedBefore

/-- The log holds a record of this kind with this digest. -/
def Log.holds (log : List Entry) (kind : EntryKind) (digest : String) : Bool :=
  log.any fun e => e.kind = kind.asStr && e.payload.digest = digest

end Replay

namespace Node

variable [World]

/-- The method a decoded record goes to. -/
def replayAs (n : Node) (registry : Registry) (payload : Value) : EntryKind → Node
  | .objective =>
    match Objective.fromValue payload with
    | .ok value => (n.postObjective value (held payload)).1
    | .error _ => n
  | .commitment =>
    match Commitment.fromValue payload with
    | .ok value => (n.commit value (held payload)).1
    | .error _ => n
  | .claim =>
    match Claim.fromValue payload with
    | .ok value => (n.reveal registry value (held payload)).1
    | .error _ => n
  | _ => n

/-- A record is replayed unless it is held, or of an epoch after the horizon. -/
def replayRecord (registry : Registry) (nowEpoch : Option UInt64) (kind : EntryKind) (n : Node)
    (payload : Value) : Node :=
  if Log.holds n.log kind payload.digest then n
  else if ∃ record ∈ epochOfTs (held payload), ∃ now ∈ nowEpoch, now < record then n
  else n.replayAs registry payload kind

def replayRecordsWithHorizon (registry : Registry) (n : Node) (records : List (String × Value))
    (nowEpoch : Option UInt64) : Node :=
  REPLAYED.foldl
    (fun n kind => (replayBatch records kind).foldl (replayRecord registry nowEpoch kind) n) n

def replayRecords (registry : Registry) (n : Node) (records : List (String × Value)) : Node :=
  replayRecordsWithHorizon registry n records none

def replayRecordsAt (registry : Registry) (n : Node) (records : List (String × Value))
    (now : String) : Node :=
  replayRecordsWithHorizon registry n records (epochOfTs now)

/-! ## What a call appends -/

/-- A commit that names its epoch drains, and then appends the commitment or
nothing. -/
theorem commit_cases (n : Node) (commitment : Commitment) (ts : String) :
    (∃ error, Log.commitEpoch commitment ts = .error error ∧ (n.commit commitment ts).1 = n) ∨
      ∃ epoch, Log.commitEpoch commitment ts = .ok epoch ∧
        ((n.commit commitment ts).1 = (n.settleDue epoch ts).1 ∨
          (n.commit commitment ts).1 =
            (n.settleDue epoch ts).1.append .commitment commitment.toValue ts) := by
  unfold commit
  cases Log.commitEpoch commitment ts with
  | error error => exact .inl ⟨error, rfl, rfl⟩
  | ok epoch =>
    refine .inr ⟨epoch, rfl, ?_⟩
    dsimp only
    generalize n.settleDue epoch ts = res
    rcases res with ⟨m, result⟩
    cases result with
    | error error => exact .inl rfl
    | ok outcomes =>
      unfold post
      dsimp only
      cases Log.checkCommit m.log commitment with
      | error error => exact .inl rfl
      | ok u => exact .inr rfl

/-- A reveal that names its epoch drains, and then appends the claim and its
verdict or nothing. -/
theorem reveal_cases (n : Node) (registry : Registry) (claim : Claim) (ts : String) :
    (∃ error, Log.revealEpoch n.log claim ts = .error error ∧
        (n.reveal registry claim ts).1 = n) ∨
      ∃ epoch, Log.revealEpoch n.log claim ts = .ok epoch ∧
        ((n.reveal registry claim ts).1 = (n.settleDue epoch ts).1 ∨
          ∃ verdict, (n.reveal registry claim ts).1 =
            ((n.settleDue epoch ts).1.append .claim claim.toValue ts).append .verdict
              (verdictValue claim verdict) ts) := by
  unfold reveal
  cases Log.revealEpoch n.log claim ts with
  | error error => exact .inl ⟨error, rfl, rfl⟩
  | ok epoch =>
    refine .inr ⟨epoch, rfl, ?_⟩
    dsimp only
    generalize n.settleDue epoch ts = res
    rcases res with ⟨m, result⟩
    cases result with
    | error error => exact .inl rfl
    | ok outcomes =>
      dsimp only
      cases Log.checkReveal m.log claim epoch (Log.matchingCommitmentEntry n.log claim) with
      | error error => exact .inl rfl
      | ok objective => exact .inr ⟨_, rfl⟩

end Node

/-! ## What a replay may add -/

section Stored

variable [World]

/-- What a payload of a replayed kind is stored as. -/
def storedAs (payload : Value) : EntryKind → Option Value
  | .objective => (toOk (Objective.fromValue payload)).map Objective.toValue
  | .commitment => (toOk (Commitment.fromValue payload)).map Commitment.toValue
  | .claim => (toOk (Claim.fromValue payload)).map Claim.toValue
  | _ => none

/-- The kinds and digests of the entries a replay could have made. -/
def Log.replayed (log : List Entry) : List (String × String) :=
  (log.filter fun e => e.kind ∈ REPLAYED.map EntryKind.asStr).map fun e => (e.kind, e.payload.digest)

/-- The kinds and digests the records of a list are stored under. -/
def stock (records : List (String × Value)) : Finset (String × String) :=
  (records.filterMap fun record =>
    (REPLAYED.find? fun kind => kind.asStr = record.1).bind fun kind =>
      (storedAs record.2 kind).map fun stored => (record.1, stored.digest)).toFinset

/-- The commitments and claims of a list that decode are the encodings of what
they decode to. -/
def Encoded (records : List (String × Value)) : Prop :=
  ∀ kind ∈ [EntryKind.commitment, .claim], ∀ payload ∈ replayBatch records kind,
    ∀ stored ∈ storedAs payload kind, stored = payload

variable {kind : EntryKind}

theorem mem_replayBatch {records : List (String × Value)} {payload : Value} :
    payload ∈ replayBatch records kind ↔ (kind.asStr, payload) ∈ records := by
  rw [replayBatch, List.mem_insertionSort, List.mem_map]
  constructor
  · rintro ⟨⟨name, value⟩, hin, rfl⟩
    rw [List.mem_filter, decide_eq_true_eq] at hin
    rw [← hin.2]
    exact hin.1
  · intro hin
    exact ⟨_, List.mem_filter.mpr ⟨hin, decide_eq_true rfl⟩, rfl⟩

theorem mem_stock {records : List (String × Value)} (hkind : kind ∈ REPLAYED)
    {payload stored : Value} (hmem : payload ∈ replayBatch records kind)
    (hstored : storedAs payload kind = some stored) :
    (kind.asStr, stored.digest) ∈ stock records := by
  have hfind : ∀ kind ∈ REPLAYED, REPLAYED.find? (fun k => k.asStr = kind.asStr) = some kind := by
    decide
  rw [stock, List.mem_toFinset, List.mem_filterMap]
  refine ⟨_, mem_replayBatch.mp hmem, ?_⟩
  rw [hfind kind hkind, Option.bind_some, hstored, Option.map_some]

/-- A list stocks at most one digest a record. -/
theorem card_stock_le (records : List (String × Value)) :
    (stock records).card ≤ records.length :=
  (List.toFinset_card_le _).trans (List.length_filterMap_le _ _)

theorem replayed_append (xs ys : List Entry) :
    Log.replayed (xs ++ ys) = Log.replayed xs ++ Log.replayed ys := by
  simp [Log.replayed]

theorem replayed_of_payouts {log log' : List Entry} (h : ExtendsBy Node.IsPayout log log') :
    Log.replayed log' = Log.replayed log := by
  rcases h with ⟨new, rfl, hnew⟩
  rw [replayed_append, List.append_right_eq_self, Log.replayed, List.map_eq_nil_iff,
    List.filter_eq_nil_iff]
  intro e he
  rcases hnew e he with (h | h) | h <;> rw [h] <;> decide

/-- What a log does not hold of a kind it lacks. -/
theorem not_mem_replayed {log : List Entry} {digest : String}
    (h : Log.holds log kind digest = false) : (kind.asStr, digest) ∉ Log.replayed log := by
  intro hin
  rcases List.mem_map.mp hin with ⟨e, he, heq⟩
  rw [Prod.mk.injEq] at heq
  have hheld : Log.holds log kind digest = true := by
    rw [Log.holds, List.any_eq_true]
    exact ⟨e, (List.mem_filter.mp he).1, by simp [heq.1, heq.2]⟩
  rw [h] at hheld
  cases hheld

theorem replayed_concat (log : List Entry) (hkind : kind ∈ REPLAYED) {e : Entry}
    (he : e.kind = kind.asStr) :
    Log.replayed (log ++ [e]) = Log.replayed log ++ [(kind.asStr, e.payload.digest)] := by
  have hin : e.kind ∈ REPLAYED.map EntryKind.asStr := by
    rw [he]
    exact List.mem_map_of_mem hkind
  have hone : Log.replayed [e] = [(e.kind, e.payload.digest)] := by
    rw [Log.replayed, List.filter_cons, if_pos (decide_eq_true hin)]
    rfl
  rw [replayed_append, hone, he]

theorem replayed_concat_other (log : List Entry) {e : Entry}
    (he : e.kind ∉ REPLAYED.map EntryKind.asStr) :
    Log.replayed (log ++ [e]) = Log.replayed log := by
  have hone : Log.replayed [e] = [] := by
    rw [Log.replayed, List.filter_cons, if_neg (by simpa using he)]
    rfl
  rw [replayed_append, hone, List.append_nil]

namespace Node

/-- What a replayed record appends is what it is stored as; an objective that
is posted is refused, a commitment or claim is only looked for beforehand. -/
theorem replayAs_grows (registry : Registry) (n : Node) {payload : Value} {kind : EntryKind}
    (hfree : Log.holds n.log kind payload.digest = false)
    (hsame : kind ∈ [EntryKind.commitment, .claim] →
      ∀ stored ∈ storedAs payload kind, stored = payload) :
    GrowsBy {key | ∃ stored ∈ storedAs payload kind, key = (kind.asStr, stored.digest)}
      (Log.replayed n.log) (Log.replayed (n.replayAs registry payload kind).log) := by
  have hlacks := not_mem_replayed hfree
  unfold replayAs
  split
  · cases hdecode : Objective.fromValue payload with
    | error error => exact .refl _
    | ok value =>
      dsimp only
      unfold postObjective post
      cases hcheck : Log.checkObjective n.log value with
      | error error => exact .refl _
      | ok u =>
        have hfresh := (Log.checkObjective_ok hcheck).fresh
        rw [log_append, replayed_concat _ (show EntryKind.objective ∈ REPLAYED by decide) rfl]
        apply (GrowsBy.refl _).concat
        · intro hin
          rcases List.mem_map.mp hin with ⟨e, he, heq⟩
          rw [Prod.mk.injEq] at heq
          have hposted : Log.isPosted n.log value.id = true := by
            rw [Log.isPosted, List.any_eq_true]
            refine ⟨e, Log.mem_ofKind.mpr ⟨(List.mem_filter.mp he).1, heq.1⟩, ?_⟩
            rw [Bool.or_eq_true, decide_eq_true_eq]
            exact .inl heq.2
          rw [hfresh] at hposted
          cases hposted
        · exact ⟨value.toValue, by rw [storedAs, hdecode]; rfl, rfl⟩
  · cases hdecode : Commitment.fromValue payload with
    | error error => exact .refl _
    | ok value =>
      have hstored : storedAs payload .commitment = some value.toValue := by
        rw [storedAs, hdecode]
        rfl
      have hpayload := hsame (by decide) _ hstored
      dsimp only
      rcases n.commit_cases value (held payload) with ⟨error, -, hm⟩ | ⟨epoch, -, hm | hm⟩
      · rw [hm]
        exact .refl _
      · rw [hm, replayed_of_payouts (n.settleDue_log _ _)]
        exact .refl _
      · rw [hm, log_append, replayed_concat _ (show EntryKind.commitment ∈ REPLAYED by decide) rfl,
          replayed_of_payouts (n.settleDue_log _ _), payload_nextEntry, hpayload]
        exact (GrowsBy.refl _).concat hlacks ⟨payload, by rw [hstored, hpayload]; rfl, rfl⟩
  · cases hdecode : Claim.fromValue payload with
    | error error => exact .refl _
    | ok value =>
      have hstored : storedAs payload .claim = some value.toValue := by
        rw [storedAs, hdecode]
        rfl
      have hpayload := hsame (by decide) _ hstored
      dsimp only
      rcases n.reveal_cases registry value (held payload) with
        ⟨error, -, hm⟩ | ⟨epoch, -, hm | ⟨verdict, hm⟩⟩
      · rw [hm]
        exact .refl _
      · rw [hm, replayed_of_payouts (n.settleDue_log _ _)]
        exact .refl _
      · rw [hm, log_append, log_append,
          replayed_concat_other _ (show EntryKind.verdict.asStr ∉ _ by decide),
          replayed_concat _ (show EntryKind.claim ∈ REPLAYED by decide) rfl,
          replayed_of_payouts (n.settleDue_log _ _), payload_nextEntry, hpayload]
        exact (GrowsBy.refl _).concat hlacks ⟨payload, by rw [hstored, hpayload]; rfl, rfl⟩
  · exact .refl _

theorem replayRecord_grows (registry : Registry) (nowEpoch : Option UInt64) (n : Node)
    {payload : Value} {kind : EntryKind}
    (hsame : kind ∈ [EntryKind.commitment, .claim] →
      ∀ stored ∈ storedAs payload kind, stored = payload) :
    GrowsBy {key | ∃ stored ∈ storedAs payload kind, key = (kind.asStr, stored.digest)}
      (Log.replayed n.log) (Log.replayed (replayRecord registry nowEpoch kind n payload).log) := by
  unfold replayRecord
  split
  · exact .refl _
  · split
    · exact .refl _
    · rename_i hfree _
      exact n.replayAs_grows registry (by simpa using hfree) hsame

/-- A replay appends records of its list the log lacks, and each of them once. -/
theorem replayRecordsWithHorizon_grows (registry : Registry) (n : Node)
    (records : List (String × Value)) (nowEpoch : Option UInt64) (hencoded : Encoded records) :
    GrowsBy (stock records : Set (String × String)) (Log.replayed n.log)
      (Log.replayed (replayRecordsWithHorizon registry n records nowEpoch).log) := by
  unfold replayRecordsWithHorizon
  refine List.foldlRecOn REPLAYED _ (motive := fun m : Node =>
    GrowsBy (stock records : Set _) (Log.replayed n.log) (Log.replayed m.log)) (.refl _) ?_
  intro m hm kind hkind
  refine List.foldlRecOn (replayBatch records kind) _ (motive := fun m : Node =>
    GrowsBy (stock records : Set _) (Log.replayed n.log) (Log.replayed m.log)) hm ?_
  intro k hk payload hpayload
  have hsame : kind ∈ [EntryKind.commitment, .claim] →
      ∀ stored ∈ storedAs payload kind, stored = payload := fun hkind =>
    hencoded kind hkind payload hpayload
  refine hk.trans ((k.replayRecord_grows registry nowEpoch hsame).mono ?_)
  rintro key ⟨stored, hstored, rfl⟩
  exact mem_stock hkind hpayload hstored

/-- The entries the replays of a list append, when it is replayed again and
again with other calls in between. -/
def sessionsAppend (registry : Registry) (records : List (String × Value)) :
    Node → List (List Op) → Nat
  | _, [] => 0
  | n, ops :: sessions =>
    let m := replayRecords registry n records
    ((Log.replayed m.log).length - (Log.replayed n.log).length) +
      sessionsAppend registry records (m.run ops) sessions

theorem replayed_run_subset (n : Node) (ops : List Op) :
    Log.replayed n.log ⊆ Log.replayed (n.run ops).log := by
  rcases (run_reaches n ops).prefix_log with ⟨new, hlog⟩
  rw [← hlog, replayed_append]
  exact List.subset_append_left _ _

/-- The sessions of a list append no more than its stock still has to give. -/
theorem sessionsAppend_le (registry : Registry) {records : List (String × Value)}
    (hencoded : Encoded records) (sessions : List (List Op)) (n : Node) :
    sessionsAppend registry records n sessions ≤
      ((stock records).filter (· ∉ Log.replayed n.log)).card := by
  induction sessions generalizing n with
  | nil => exact Nat.zero_le _
  | cons ops sessions ih =>
    have hgrows : GrowsBy (stock records : Set (String × String)) (Log.replayed n.log)
        (Log.replayed (replayRecords registry n records).log) :=
      replayRecordsWithHorizon_grows registry n records none hencoded
    have hcount := hgrows.card_missing
    have hrest := ih ((replayRecords registry n records).run ops)
    have hfewer : ((stock records).filter
          (· ∉ Log.replayed ((replayRecords registry n records).run ops).log)).card ≤
        ((stock records).filter (· ∉ Log.replayed (replayRecords registry n records).log)).card := by
      apply Finset.card_le_card
      intro key hkey
      rw [Finset.mem_filter] at hkey ⊢
      exact ⟨hkey.1, fun hin => hkey.2 (replayed_run_subset _ ops hin)⟩
    unfold sessionsAppend
    dsimp only
    omega

/-- A record is admitted once: whatever has happened to the node since, a replay
appends nothing the log holds, and a list that is offered in every session adds
at most one entry a record to the log. -/
theorem replayRecords_once (registry : Registry) (records : List (String × Value))
    (hencoded : Encoded records) (n : Node) :
    GrowsBy (stock records : Set (String × String)) (Log.replayed n.log)
        (Log.replayed (replayRecords registry n records).log) ∧
      ∀ sessions, sessionsAppend registry records n sessions ≤ records.length := by
  constructor
  · exact replayRecordsWithHorizon_grows registry n records none hencoded
  · intro sessions
    calc sessionsAppend registry records n sessions
        ≤ ((stock records).filter (· ∉ Log.replayed n.log)).card :=
          sessionsAppend_le registry hencoded sessions n
      _ ≤ (stock records).card := Finset.card_filter_le _ _
      _ ≤ records.length := card_stock_le records

end Node

end Stored

end Cairn.Ports
