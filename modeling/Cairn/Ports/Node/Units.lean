import Cairn.Ports.Node.Batches
import Cairn.Ports.Node.Opening

/-!
# No unit is paid twice

A piecework job is a verifier and a block, shared by every objective that
names both. What a job has paid is read from an index kept between calls and
brought up to date by scanning the entries it has not seen. `Indexed` says what
the index holds after any prefix of the log; it is the same whichever calls
built it, so a settlement counts no unit an earlier one of its job counted.
-/

namespace Cairn.Ports

open Cairn.Verified
open Cairn.Verified.AppendOnly
open Cairn.Ports.Canonical

/-- Keeping the first of each is a list without repetition. -/
theorem nodup_foldl_dedup {α : Type} [DecidableEq α] (l out : List α) (h : out.Nodup) :
    (l.foldl (fun out key => if key ∈ out then out else out ++ [key]) out).Nodup := by
  induction l generalizing out with
  | nil => exact h
  | cons key rest ih =>
    rw [List.foldl_cons]
    apply ih
    split_ifs with hmem
    · exact h
    · rw [List.nodup_append_comm, List.singleton_append, List.nodup_cons]
      exact ⟨hmem, h⟩

theorem Piecework.nodup_unitKeys [Sha256] (p : Piecework) (artifact : Value) :
    (p.unitKeys artifact).Nodup := nodup_foldl_dedup _ _ List.nodup_nil

namespace Log

section Index

variable [Sha256]

/-- Every claim names an objective the log knows. -/
def KnownClaims (log : List Entry) : Prop :=
  ∀ p ∈ claims log, ((objectives log).get? p.2.objectiveId).isSome

/-- Claims with one id are one claim. -/
def StableClaims (log : List Entry) : Prop :=
  ∀ p ∈ claims log, ∀ q ∈ claims log, p.2.id = q.2.id → p.2 = q.2

/-- Every settlement names an earlier claim. -/
def PaidClaims (log : List Entry) : Prop :=
  ∀ before e after, log = before ++ e :: after → e.kind = EntryKind.settlement.asStr →
    ∃ p ∈ claims before, payloadStr e.payload "claim_id" = some p.2.id ∧
      payloadStr e.payload "objective_id" = some p.2.objectiveId

/-- A claim that comes after a settlement of its id is an old claim again. -/
def SettledSeen (log : List Entry) : Prop :=
  ∀ seen e claim, seen ++ [e] <+: log → e.kind = EntryKind.claim.asStr →
    Claim.fromValue e.payload = .ok claim → claim.id ∈ settledIds seen →
    ∃ p ∈ claims seen, p.2.id = claim.id

/-- The objective of a claim belongs to a job. -/
def InJob (log : List Entry) (verifier block : Value) (claim : Claim) : Prop :=
  ∃ o, (objectives log).get? claim.objectiveId = some o ∧ o.piecework = some block ∧
    o.verifier = verifier

/-- A unit of a settled claim of a job, in the part of the log that was seen. -/
def PaidUnit (log seen : List Entry) (verifier block : Value) (piecework : Piecework)
    (key : String) : Prop :=
  ∃ p ∈ claims seen, p.2.id ∈ settledIds seen ∧ InJob log verifier block p.2 ∧
    key ∈ piecework.unitKeys p.2.artifact

/-- What the index of a job holds once it has seen a part of the log. -/
structure Indexed (log seen : List Entry) (verifier block : Value) (piecework : Piecework)
    (index : PaidUnitIndex) : Prop where
  claims : ∀ id keys, index.claims.get? id = some keys ↔
    ∃ p ∈ Log.claims seen, p.2.id = id ∧ InJob log verifier block p.2 ∧
      keys = piecework.unitKeys p.2.artifact
  paid : ∀ key, key ∈ index.paid ↔ PaidUnit log seen verifier block piecework key

theorem indexed_empty (log : List Entry) (verifier block : Value) (piecework : Piecework) :
    Indexed log [] verifier block piecework .empty where
  claims := by simp [PaidUnitIndex.empty, Log.claims, decoded, ofKind]
  paid := by simp [PaidUnitIndex.empty, PaidUnit, Log.claims, decoded, ofKind]

variable {block verifier : Value} {log : List Entry} {e : Entry} {index : PaidUnitIndex}
  {piecework : Piecework}

theorem mem_pieceworkScope {objective : Objective} (hblock : objective.piecework = some block)
    {claim : Claim} :
    claim.objectiveId ∈ pieceworkScope log objective ↔
      InJob log objective.verifier block claim := by
  unfold pieceworkScope InJob
  simp only [List.mem_map, List.mem_filter, Bool.and_eq_true, decide_eq_true_eq, Prod.exists,
    exists_eq_right, exists_and_right, hblock, BTreeMap.get?_eq_some_iff]
  constructor
  · rintro ⟨o, hmem, ⟨-, hp⟩, hv⟩
    exact ⟨o, hmem, hp, hv⟩
  · rintro ⟨o, hmem, hp, hv⟩
    exact ⟨o, hmem, ⟨by simp [hp], hp⟩, hv⟩

/-! ## Scanning an entry -/

omit [Sha256] in
theorem claims_of_ok {claim : Claim} (hkind : e.kind = EntryKind.claim.asStr)
    (h : Claim.fromValue e.payload = .ok claim) : claims [e] = [(e, claim)] := by
  simp [claims, decoded, ofKind, hkind, h]

omit [Sha256] in
theorem claims_of_error {error : RecordError} (h : Claim.fromValue e.payload = .error error) :
    claims [e] = [] := by
  by_cases hkind : e.kind = EntryKind.claim.asStr
  · simp [claims, decoded, ofKind, hkind, h, toOk]
  · simp [claims, decoded, ofKind, hkind]

omit [Sha256] in
theorem claims_of_ne (hkind : e.kind ≠ EntryKind.claim.asStr) : claims [e] = [] := by
  simp [claims, decoded, ofKind, hkind]

omit [Sha256] in
theorem settledIds_of_ne (hkind : e.kind ≠ EntryKind.settlement.asStr) : settledIds [e] = [] := by
  simp [settledIds, ofKind, hkind]

/-- An entry that is neither a claim of the job nor a settlement changes
nothing. -/
theorem Indexed.skip {seen : List Entry} (h : Indexed log seen verifier block piecework index)
    (hclaims : ∀ p ∈ Log.claims [e], ¬InJob log verifier block p.2) (hsettled : settledIds [e] = []) :
    Indexed log (seen ++ [e]) verifier block piecework index := by
  have hmem : ∀ p, InJob log verifier block p.2 →
      (p ∈ Log.claims (seen ++ [e]) ↔ p ∈ Log.claims seen) := by
    intro p hjob
    rw [claims_append, List.mem_append]
    constructor
    · rintro (hp | hp)
      · exact hp
      · exact absurd hjob (hclaims p hp)
    · exact .inl
  constructor
  · intro id keys
    rw [h.claims]
    constructor
    · rintro ⟨p, hp, hid, hjob, hkeys⟩
      exact ⟨p, (hmem p hjob).mpr hp, hid, hjob, hkeys⟩
    · rintro ⟨p, hp, hid, hjob, hkeys⟩
      exact ⟨p, (hmem p hjob).mp hp, hid, hjob, hkeys⟩
  · intro key
    rw [h.paid]
    unfold PaidUnit
    rw [settledIds_append, hsettled, List.append_nil]
    constructor
    · rintro ⟨p, hp, hid, hjob, hkey⟩
      exact ⟨p, (hmem p hjob).mpr hp, hid, hjob, hkey⟩
    · rintro ⟨p, hp, hid, hjob, hkey⟩
      exact ⟨p, (hmem p hjob).mp hp, hid, hjob, hkey⟩

/-- The claim a settlement names was seen before it. -/
theorem PaidClaims.seen {log seen : List Entry} (h : PaidClaims log) (hseen : seen <+: log)
    {id : String} (hid : id ∈ settledIds seen) : ∃ p ∈ claims seen, p.2.id = id := by
  unfold settledIds at hid
  rw [List.mem_filterMap] at hid
  obtain ⟨e, he, hclaim⟩ := hid
  rw [mem_ofKind] at he
  obtain ⟨before, after, rfl⟩ := List.append_of_mem he.1
  obtain ⟨rest, hlog⟩ := hseen
  rw [List.append_assoc, List.cons_append] at hlog
  obtain ⟨p, hp, hpid, -⟩ := h before e _ hlog.symm he.2
  rw [hclaim] at hpid
  refine ⟨p, ?_, (Option.some.inj hpid).symm⟩
  rw [claims_append, List.mem_append]
  exact .inl hp

theorem PaidClaims.settledSeen (h : PaidClaims log) : SettledSeen log :=
  fun _ _ _ hseen _ _ hid => h.seen ((List.prefix_append _ _).trans hseen) hid

theorem PaidClaims.concat (h : PaidClaims log)
    (hnew : e.kind = EntryKind.settlement.asStr → ∃ p ∈ claims log,
      payloadStr e.payload "claim_id" = some p.2.id ∧
        payloadStr e.payload "objective_id" = some p.2.objectiveId) : PaidClaims (log ++ [e]) := by
  intro before e' after hlog hkind
  obtain ⟨mid, hlog⟩ | ⟨rfl, rfl⟩ := split_concat hlog
  · exact h before e' mid hlog hkind
  · exact hnew hkind

/-- A claim of the job enters the index with its units. One that was settled
before is an old claim again, so nothing becomes paid. -/
theorem Indexed.claim {log seen : List Entry} {verifier block : Value} {piecework : Piecework}
    {index : PaidUnitIndex} {e : Entry} {claim : Claim}
    (h : Indexed log seen verifier block piecework index) (hseen : seen ++ [e] <+: log)
    (hstable : StableClaims log) (hpaid : SettledSeen log)
    (hkind : e.kind = EntryKind.claim.asStr) (hclaim : Claim.fromValue e.payload = .ok claim)
    (hjob : InJob log verifier block claim) :
    Indexed log (seen ++ [e]) verifier block piecework
      { index with
        claims := index.claims.insert claim.id (piecework.unitKeys claim.artifact) } := by
  have hsettled : settledIds (seen ++ [e]) = settledIds seen := by
    rw [settledIds_append, settledIds_of_ne (by simp [hkind]), List.append_nil]
  have hmem : ∀ p, p ∈ Log.claims (seen ++ [e]) ↔ p ∈ Log.claims seen ∨ p = (e, claim) := by
    intro p
    rw [claims_append, claims_of_ok hkind hclaim, List.mem_append, List.mem_singleton]
  have hin : ∀ p ∈ Log.claims (seen ++ [e]), p ∈ Log.claims log := by
    obtain ⟨rest, rfl⟩ := hseen
    intro p hp
    rw [claims_append, List.mem_append]
    exact .inl hp
  have hnew : (e, claim) ∈ Log.claims log := hin _ ((hmem _).mpr (.inr rfl))
  have hsame : ∀ p ∈ Log.claims seen, p.2.id = claim.id → p.2 = claim := by
    intro p hp hid
    exact hstable p (hin p ((hmem p).mpr (.inl hp))) _ hnew hid
  constructor
  · intro id keys
    rw [BTreeMap.get?_insert]
    split_ifs with hid
    · constructor
      · intro hkeys
        cases hkeys
        exact ⟨(e, claim), (hmem _).mpr (.inr rfl), hid.symm, hjob, rfl⟩
      · rintro ⟨p, hp, hpid, -, rfl⟩
        obtain hp | rfl := (hmem p).mp hp
        · rw [hsame p hp (hpid.trans hid)]
        · rfl
    · rw [h.claims]
      constructor
      · rintro ⟨p, hp, hpid, hpjob, hkeys⟩
        exact ⟨p, (hmem p).mpr (.inl hp), hpid, hpjob, hkeys⟩
      · rintro ⟨p, hp, hpid, hpjob, hkeys⟩
        obtain hp | rfl := (hmem p).mp hp
        · exact ⟨p, hp, hpid, hpjob, hkeys⟩
        · exact absurd hpid.symm hid
  · intro key
    rw [h.paid]
    unfold PaidUnit
    rw [hsettled]
    constructor
    · rintro ⟨p, hp, hid, hpjob, hkey⟩
      exact ⟨p, (hmem p).mpr (.inl hp), hid, hpjob, hkey⟩
    · rintro ⟨p, hp, hid, hpjob, hkey⟩
      obtain hp | rfl := (hmem p).mp hp
      · exact ⟨p, hp, hid, hpjob, hkey⟩
      · obtain ⟨q, hq, hqid⟩ := hpaid seen e claim hseen hkind hclaim hid
        have hqclaim : q.2 = claim := hsame q hq hqid
        exact ⟨q, hq, hqid ▸ hid, hqclaim ▸ hpjob, hqclaim ▸ hkey⟩

/-- A settlement makes the units of its claim paid. -/
theorem Indexed.settlement {seen : List Entry} {id : String}
    (h : Indexed log seen verifier block piecework index)
    (hkind : e.kind = EntryKind.settlement.asStr) (hid : payloadStr e.payload "claim_id" = some id) :
    Indexed log (seen ++ [e]) verifier block piecework
      { index with paid := index.paid ++ (index.claims.get? id).getD [] } := by
  have hclaims : Log.claims (seen ++ [e]) = Log.claims seen := by
    rw [claims_append, claims_of_ne (by simp [hkind]), List.append_nil]
  have hsettled : settledIds (seen ++ [e]) = settledIds seen ++ [id] := by
    simp [settledIds, ofKind, hkind, hid]
  constructor
  · intro id' keys
    rw [h.claims, hclaims]
  · intro key
    unfold PaidUnit
    rw [List.mem_append, h.paid, hclaims, hsettled]
    constructor
    · rintro (⟨p, hp, hpid, hpjob, hkey⟩ | hkey)
      · exact ⟨p, hp, by simp [hpid], hpjob, hkey⟩
      · cases hget : index.claims.get? id with
        | none => simp [hget] at hkey
        | some keys =>
          rw [hget, Option.getD_some] at hkey
          obtain ⟨p, hp, hpid, hpjob, rfl⟩ := (h.claims id keys).mp hget
          exact ⟨p, hp, by simp [hpid], hpjob, hkey⟩
    · rintro ⟨p, hp, hpid, hpjob, hkey⟩
      rw [List.mem_append, List.mem_singleton] at hpid
      obtain hpid | hpid := hpid
      · exact .inl ⟨p, hp, hpid, hpjob, hkey⟩
      · right
        rw [(h.claims id _).mpr ⟨p, hp, hpid, hpjob, rfl⟩]
        exact hkey

/-- The units of a job do not depend on entries yet to come. -/
theorem Indexed.grow {seen new : List Entry} (h : Indexed log seen verifier block piecework index)
    (hseen : seen <+: log) (hknown : KnownClaims log) (hstable : StableIds (log ++ new)) :
    Indexed (log ++ new) seen verifier block piecework index := by
  have hjob : ∀ p ∈ Log.claims seen,
      (InJob (log ++ new) verifier block p.2 ↔ InJob log verifier block p.2) := by
    intro p hp
    have hin : p ∈ Log.claims log := by
      obtain ⟨rest, rfl⟩ := hseen
      rw [claims_append, List.mem_append]
      exact .inl hp
    obtain ⟨o, ho⟩ := Option.isSome_iff_exists.mp (hknown p hin)
    unfold InJob
    rw [ho, hstable.get?_append ho]
  constructor
  · intro id keys
    rw [h.claims]
    constructor
    · rintro ⟨p, hp, hid, hpjob, hkeys⟩
      exact ⟨p, hp, hid, (hjob p hp).mpr hpjob, hkeys⟩
    · rintro ⟨p, hp, hid, hpjob, hkeys⟩
      exact ⟨p, hp, hid, (hjob p hp).mp hpjob, hkeys⟩
  · intro key
    rw [h.paid]
    constructor
    · rintro ⟨p, hp, hid, hpjob, hkey⟩
      exact ⟨p, hp, hid, (hjob p hp).mpr hpjob, hkey⟩
    · rintro ⟨p, hp, hid, hpjob, hkey⟩
      exact ⟨p, hp, hid, (hjob p hp).mp hpjob, hkey⟩

end Index

section Scan

variable [World]

theorem Indexed.scan {log seen : List Entry} {objective : Objective} {block : Value}
    {piecework : Piecework} {index : PaidUnitIndex} {e : Entry}
    (hblock : objective.piecework = some block)
    (h : Indexed log seen objective.verifier block piecework index) (hseen : seen ++ [e] <+: log)
    (hstable : StableClaims log) (hpaid : SettledSeen log) :
    Indexed log (seen ++ [e]) objective.verifier block piecework
      (Node.scanEntry (pieceworkScope log objective) piecework index e) := by
  unfold Node.scanEntry
  by_cases hclaim : e.kind = EntryKind.claim.asStr
  · have hsettled : settledIds [e] = [] := settledIds_of_ne (by simp [hclaim])
    rw [if_pos hclaim]
    cases hdecode : Claim.fromValue e.payload with
    | error error => exact h.skip (by simp [claims_of_error hdecode]) hsettled
    | ok claim =>
      have hscope : claim.objectiveId ∈ pieceworkScope log objective ↔
          InJob log objective.verifier block claim := mem_pieceworkScope hblock
      dsimp only
      split_ifs with hin
      · exact h.claim hseen hstable hpaid hclaim hdecode (hscope.mp hin)
      · rw [hscope] at hin
        exact h.skip (by simpa [claims_of_ok hclaim hdecode] using hin) hsettled
  · rw [if_neg hclaim]
    have hclaims : Log.claims [e] = [] := claims_of_ne hclaim
    by_cases hkind : e.kind = EntryKind.settlement.asStr
    · rw [if_pos hkind]
      cases hid : payloadStr e.payload "claim_id" with
      | none => exact h.skip (by simp [hclaims]) (by simp [settledIds, ofKind, hkind, hid])
      | some id =>
        have hnext := h.settlement hkind hid
        simp only [Option.bind_some]
        cases hget : index.claims.get? id with
        | none =>
          rw [hget, Option.getD_none, List.append_nil] at hnext
          exact hnext
        | some keys =>
          rw [hget, Option.getD_some] at hnext
          exact hnext
    · rw [if_neg hkind]
      exact h.skip (by simp [hclaims]) (settledIds_of_ne hkind)

/-- Scanning the rest of the log brings the index up to date. -/
theorem Indexed.scanAll {log : List Entry} {objective : Objective} {block : Value}
    {piecework : Piecework} (hblock : objective.piecework = some block)
    (hstable : StableClaims log) (hpaid : SettledSeen log) :
    ∀ (rest seen : List Entry) (index : PaidUnitIndex), seen ++ rest = log →
      Indexed log seen objective.verifier block piecework index →
      Indexed log log objective.verifier block piecework
        (rest.foldl (Node.scanEntry (pieceworkScope log objective) piecework) index) := by
  intro rest
  induction rest with
  | nil =>
    intro seen index hlog h
    rw [List.append_nil] at hlog
    rw [hlog] at h
    exact h
  | cons e rest ih =>
    intro seen index hlog h
    have hlog' : seen ++ [e] ++ rest = log := by
      rw [List.append_assoc]
      exact hlog
    rw [List.foldl_cons]
    exact ih (seen ++ [e]) _ hlog' (h.scan hblock ⟨rest, hlog'⟩ hstable hpaid)

end Scan

/-! ## Names without collisions -/

section Names

variable [Sha256]

/-- The texts whose digests name the objectives, the jobs and the claims of a
log. -/
def RecordTexts (log : List Entry) (text : String) : Prop :=
  (∃ p ∈ decoded .objective Objective.fromValue log,
    text = p.2.toValue.canonicalString ∨ text = p.2.verifier.canonicalString ∨
      ∃ block, p.2.piecework = some block ∧ text = block.canonicalString) ∨
  ∃ p ∈ claims log, text = p.2.toValue.canonicalString

variable {log : List Entry}

omit [Sha256] in
theorem RecordTexts.of_prefix {log' : List Entry} {text : String} (hp : log <+: log')
    (h : RecordTexts log text) : RecordTexts log' text := by
  obtain ⟨rest, rfl⟩ := hp
  obtain ⟨p, hmem, ht⟩ | ⟨p, hmem, ht⟩ := h
  · exact .inl ⟨p, by simp [hmem], ht⟩
  · exact .inr ⟨p, by simp [claims_append, hmem], ht⟩

/-- Values among the texts of a log are told apart by their digests. -/
theorem value_eq_of_digest {texts : String → Prop} (hcol : NoCollision texts) {v w : Value}
    (hv : texts v.canonicalString) (hw : texts w.canonicalString) (h : v.digest = w.digest) :
    v = w := Value.canonicalString_injective (hcol _ _ hv hw h)

theorem stableIds_of_noCollision (hcol : NoCollision (RecordTexts log)) : StableIds log := by
  intro p hp q hq hid
  have hvalue : p.2.toValue = q.2.toValue :=
    value_eq_of_digest hcol (.inl ⟨p, hp, .inl rfl⟩) (.inl ⟨q, hq, .inl rfl⟩) hid
  have hsame := congrArg Objective.fromValue hvalue
  rw [Objective.fromValue_decoded (mem_decoded.mp hp).2.2,
    Objective.fromValue_decoded (mem_decoded.mp hq).2.2] at hsame
  exact Except.ok.inj hsame

theorem stableClaims_of_noCollision (hcol : NoCollision (RecordTexts log)) : StableClaims log := by
  intro p hp q hq hid
  have hvalue : p.2.toValue = q.2.toValue :=
    value_eq_of_digest hcol (.inr ⟨p, hp, rfl⟩) (.inr ⟨q, hq, rfl⟩) hid
  have hvalid := Claim.fromValue_valid (mem_decoded.mp hp).2.2
  have hback : Claim.fromValue q.2.toValue = .ok p.2 := by
    rw [← hvalue]
    exact Claim.fromValue_toValue_iff.mpr ⟨rfl, hvalid⟩
  exact (Claim.fromValue_toValue_iff.mp hback).1

end Names

section Jobs

variable [World]

/-- A digest is as long as any other, so the name of a job splits at its
separator. -/
theorem jobOf_inj {texts : String → Prop} (hcol : NoCollision texts) {o o' : Objective}
    {block block' : Value} (hverifier : texts o.verifier.canonicalString)
    (hverifier' : texts o'.verifier.canonicalString) (hblock : texts block.canonicalString)
    (hblock' : texts block'.canonicalString) (h : Node.jobOf o block = Node.jobOf o' block') :
    o.verifier = o'.verifier ∧ block = block' := by
  unfold Node.jobOf at h
  have hlist := congrArg String.toList h
  simp only [String.toList_append] at hlist
  rw [List.append_assoc, List.append_assoc] at hlist
  obtain ⟨hv, hb⟩ := List.append_inj hlist
    (by rw [Value.digest, length_digestBytes, Value.digest, length_digestBytes])
  have hb' := List.append_cancel_left hb
  rw [String.toList_inj] at hv hb'
  exact ⟨value_eq_of_digest hcol hverifier hverifier' hv,
    value_eq_of_digest hcol hblock hblock' hb'⟩

end Jobs

end Log

/-! ## What settlements counted -/

namespace Counted

variable [Sha256]

open Log

/-- Two settlements were counted under one job. -/
def SameJob (c d : Counted) : Prop :=
  c.objective.verifier = d.objective.verifier ∧ c.objective.piecework = d.objective.piecework

/-- What a settlement counted are units of its claim. -/
def Sound (c : Counted) (log : List Entry) : Prop :=
  ∃ p ∈ claims log, p.2.id = c.claimId ∧
    (objectives log).get? p.2.objectiveId = some c.objective ∧
    ∃ block piecework, c.objective.piecework = some block ∧
      Piecework.fromValue block = .ok piecework ∧
      c.keys.Sublist (piecework.unitKeys p.2.artifact)

theorem Sound.append {log new : List Entry} {c : Counted} (h : c.Sound log)
    (hstable : StableIds (log ++ new)) : c.Sound (log ++ new) := by
  obtain ⟨p, hp, hid, hknown, hunits⟩ := h
  exact ⟨p, by simp [claims_append, hp], hid, hstable.get?_append hknown, hunits⟩

theorem Sound.nodup {log : List Entry} {c : Counted} (h : c.Sound log) : c.keys.Nodup := by
  obtain ⟨p, -, -, -, block, piecework, -, -, hsub⟩ := h
  exact (piecework.nodup_unitKeys _).sublist hsub

end Counted

namespace Node

variable [World]

open Log

/-! ## The index of a node -/

/-- Every index a node holds is the index of a job of its log, up to where it
was scanned. -/
def IndexOk (n : Node) : Prop :=
  ∀ job index, n.pieceworkIndex.get? job = some index →
    ∃ e o block piecework, (e, o) ∈ decoded .objective Objective.fromValue n.log ∧
      o.piecework = some block ∧ Piecework.fromValue block = .ok piecework ∧
      job = jobOf o block ∧ index.scanned ≤ n.log.length ∧
      Indexed n.log (n.log.take index.scanned) o.verifier block piecework index

/-- What the index rests on: names that do not change, and claims that stand
before what names them. -/
structure Named (log : List Entry) : Prop where
  noCollision : NoCollision (RecordTexts log)
  known : KnownClaims log
  paid : PaidClaims log

variable {log : List Entry} {block : Value} {n : Node} {objective : Objective}
  {piecework : Piecework} {e : Entry} {epoch : UInt64} {ts : String}

theorem Named.stableIds (h : Named log) : StableIds log :=
  stableIds_of_noCollision h.noCollision

theorem Named.stableClaims (h : Named log) : StableClaims log :=
  stableClaims_of_noCollision h.noCollision

/-- What a query does to the index held for its job. -/
theorem paidUnitKeys_of_held (hblock : objective.piecework = some block)
    (hstable : StableClaims n.log) (hseen : SettledSeen n.log)
    (hheld : ∀ index, n.pieceworkIndex.get? (jobOf objective block) = some index →
      index.scanned ≤ n.log.length ∧
        Indexed n.log (n.log.take index.scanned) objective.verifier block piecework index) :
    ∃ index, index.scanned = n.log.length ∧
      Indexed n.log n.log objective.verifier block piecework index ∧
      n.paidUnitKeys objective piecework =
        ({ n with pieceworkIndex := n.pieceworkIndex.insert (jobOf objective block) index },
          index.paid) := by
  let held := (n.pieceworkIndex.get? (jobOf objective block)).getD .empty
  have hstart : held.scanned ≤ n.log.length ∧
      Indexed n.log (n.log.take held.scanned) objective.verifier block piecework held := by
    show ((n.pieceworkIndex.get? (jobOf objective block)).getD .empty).scanned ≤ _ ∧ _
    unfold held
    cases hget : n.pieceworkIndex.get? (jobOf objective block) with
    | none => exact ⟨Nat.zero_le _, indexed_empty _ _ _ _⟩
    | some index => exact hheld index hget
  let index := (n.log.drop held.scanned).foldl
    (scanEntry (pieceworkScope n.log objective) piecework) held
  have hscan : Indexed n.log n.log objective.verifier block piecework index :=
    Indexed.scanAll hblock hstable hseen _ _ held (List.take_append_drop _ _) hstart.2
  refine ⟨⟨n.log.length, index.claims, index.paid⟩, rfl, ⟨hscan.claims, hscan.paid⟩, ?_⟩
  unfold paidUnitKeys
  rw [hblock]
  dsimp only
  rw [if_neg (Nat.not_lt.mpr hstart.1)]

/-- The index of a job, brought up to date, holds what the whole log says. -/
theorem paidUnitKeys_spec (hnamed : Named n.log) (hindex : IndexOk n) {id : String}
    (hknown : (objectives n.log).get? id = some objective)
    (hblock : objective.piecework = some block) (hparse : Piecework.fromValue block = .ok piecework) :
    IndexOk (n.paidUnitKeys objective piecework).1 ∧
      ∀ key, key ∈ (n.paidUnitKeys objective piecework).2 ↔
        PaidUnit n.log n.log objective.verifier block piecework key := by
  have hcol := hnamed.noCollision
  obtain ⟨e, hmem, -⟩ := exists_of_get?_objectives hknown
  have hheld : ∀ index, n.pieceworkIndex.get? (jobOf objective block) = some index →
      index.scanned ≤ n.log.length ∧
        Indexed n.log (n.log.take index.scanned) objective.verifier block piecework index := by
    intro index hget
    obtain ⟨e', o', block', piecework', hmem', hblock', hparse', hjob, hscanned, hindexed⟩ :=
      hindex _ index hget
    obtain ⟨hverifier, rfl⟩ := jobOf_inj hcol (.inl ⟨_, hmem, .inr (.inl rfl)⟩)
      (.inl ⟨_, hmem', .inr (.inl rfl)⟩) (.inl ⟨_, hmem, .inr (.inr ⟨block, hblock, rfl⟩)⟩)
      (.inl ⟨_, hmem', .inr (.inr ⟨block', hblock', rfl⟩)⟩) hjob
    rw [hparse] at hparse'
    cases hparse'
    rw [← hverifier] at hindexed
    exact ⟨hscanned, hindexed⟩
  obtain ⟨index, hlength, hscan, heq⟩ :=
    paidUnitKeys_of_held hblock hnamed.stableClaims hnamed.paid.settledSeen hheld
  rw [heq]
  refine ⟨?_, hscan.paid⟩
  intro job' index' hget
  rw [BTreeMap.get?_insert] at hget
  split_ifs at hget with hjob
  · cases hget
    refine ⟨e, objective, block, piecework, hmem, hblock, hparse, hjob, hlength.le, ?_⟩
    show Indexed n.log (n.log.take index.scanned) _ _ _ _
    rw [hlength, List.take_length]
    exact hscan
  · exact hindex job' index' hget

/-! ## Names over a run -/

theorem named_nil : Named [] where
  noCollision := by
    intro s t hs
    exact absurd hs (by simp [RecordTexts, decoded, ofKind, claims])
  known := by simp [KnownClaims, claims, decoded, ofKind]
  paid := by
    intro before e after h
    exact absurd h (by simp)

/-- An entry that brings neither objective nor claim keeps the names. -/
theorem Named.concat_payout (h : Named log) (he : IsPayout e)
    (hnew : e.kind = EntryKind.settlement.asStr → ∃ p ∈ claims log,
      payloadStr e.payload "claim_id" = some p.2.id ∧
        payloadStr e.payload "objective_id" = some p.2.objectiveId) : Named (log ++ [e]) := by
  have hclaims : claims (log ++ [e]) = claims log :=
    claims_of_payouts ((ExtendsBy.refl log).concat he)
  have hnone : ofKind [e] .objective = [] := by
    unfold IsPayout IsPayment at he
    apply ofKind_eq_nil
    intro e' he' hkind
    rw [List.mem_singleton] at he'
    subst he'
    simp [hkind] at he
  have hobjectives : decoded .objective Objective.fromValue (log ++ [e]) =
      decoded .objective Objective.fromValue log := by
    simp [decoded, hnone]
  constructor
  · apply h.noCollision.mono
    intro text htext
    unfold RecordTexts at htext ⊢
    rw [hclaims, hobjectives] at htext
    exact htext
  · intro p hp
    rw [hclaims] at hp
    rw [objectives_append_of_none hnone]
    exact h.known p hp
  · exact h.paid.concat hnew

theorem Named.pay (h : Named n.log) {claim : Claim} (hclaim : (e, claim) ∈ claims n.log)
    (reward : UInt64) (ts : String) : Named (n.pay claim reward ts).log := by
  apply h.concat_payout (.inl (.inl rfl))
  intro _
  exact ⟨(e, claim), hclaim, by simp, by simp⟩

theorem Named.advance (h : Named n.log) (claim : Claim) (score : Int64) (paidCumulative : UInt64)
    (ts : String) : Named (n.advance claim score paidCumulative ts).log := by
  apply h.concat_payout (.inl (.inr rfl))
  intro hkind
  simp at hkind

theorem Settled.named {claim : Claim} {consumed : List String}
    {res : Node × Except RuleViolation Outcome} (h : Settled n claim epoch consumed ts res)
    (hn : Named n.log) (hclaim : (e, claim) ∈ claims n.log) : Named res.1.log := by
  cases h with
  | unpaid => exact hn
  | unpaidUnit =>
    rw [log_paidUnitKeys]
    exact hn
  | overflowed => exact hn
  | whole => exact hn.pay hclaim _ ts
  | @improved objective block ratchet held score reward paidCumulative =>
    have hadvanced := hn.advance claim score paidCumulative ts
    unfold recordMove
    split_ifs
    · have hnamed : (e, claim) ∈ claims (n.advance claim score paidCumulative ts).log := by
        rw [Node.advance, log_append, claims_append]
        simp [hclaim]
      exact hadvanced.pay hnamed _ ts
    · exact hadvanced
  | @unit objective block piecework novel reward =>
    have hlog : (n.paidUnitKeys objective piecework).1.log = n.log := n.log_paidUnitKeys _ _
    show Named ((n.paidUnitKeys objective piecework).1.pay claim reward ts).log
    rw [← hlog] at hn hclaim
    exact hn.pay hclaim reward ts

/-- The claims of a batch stand in every log the batch settles on. -/
theorem exists_claim_of_mem_batchOf {start : List Entry} {claim : Claim}
    (h : claim ∈ batchOf start epoch) (hext : ExtendsBy IsPayment start log) :
    ∃ e, (e, claim) ∈ claims log := by
  obtain ⟨-, hmem, -⟩ := mem_acceptedClaimsByEpoch (mem_batchOf.mp h)
  obtain ⟨⟨e, c⟩, hp, rfl⟩ := List.mem_map.mp hmem
  rw [← claims_of_payouts (hext.mono fun _ he => .inl he)] at hp
  exact ⟨e, hp⟩

/-- A claim names an objective that was posted before it. -/
theorem Reaches.knownClaims {m : Node} (hempty : n.log = []) (h : Reaches n m)
    (hstable : StableIds m.log) : KnownClaims m.log := by
  rintro ⟨e, claim⟩ hp
  obtain ⟨hmem, hkind, hdecode⟩ := mem_decoded.mp hp
  obtain ⟨before, after, hlog⟩ := List.append_of_mem hmem
  have hadmits := h.admitted_as hempty hlog hkind (by decide)
  dsimp only at hdecode ⊢
  generalize e.payload = payload at hadmits hdecode
  cases hadmits with
  | @claim claim' _ _ objective _ _ _ hcheck =>
    rw [Claim.fromValue_toValue_iff] at hdecode
    rw [hlog] at hstable ⊢
    rw [hdecode.1, hstable.get?_append (checkReveal_ok hcheck).known]
    rfl

/-! ## The record of a node -/

/-- The record of what piecework settlements counted. -/
structure UnitsOk (n : Node) : Prop where
  index : IndexOk n
  settled : (n.counted.map Counted.claimId).Sublist (settledIds n.log)
  sound : ∀ c ∈ n.counted, c.Sound n.log
  disjoint : n.counted.Pairwise fun c d => c.SameJob d → List.Disjoint c.keys d.keys
  complete : ∀ e ∈ ofKind n.log .settlement, ∀ id o, payloadStr e.payload "objective_id" = some id →
    (objectives n.log).get? id = some o → o.ratchet = none → o.piecework.isSome →
    ∃ c ∈ n.counted, payloadStr e.payload "claim_id" = some c.claimId ∧ c.objective = o

theorem IndexOk.append (h : IndexOk n) (hknown : KnownClaims n.log) {kind : EntryKind}
    {payload : Value} (hstable : StableIds (n.append kind payload ts).log) :
    IndexOk (n.append kind payload ts) := by
  intro job index hget
  obtain ⟨e, o, block, piecework, hmem, hblock, hparse, hjob, hscanned, hindexed⟩ :=
    h job index hget
  have hgrown := hindexed.grow (List.take_prefix _ _) hknown hstable
  refine ⟨e, o, block, piecework, by simp [hmem], hblock, hparse, hjob, ?_, ?_⟩
  · rw [log_append, List.length_append]
    omega
  · rw [log_append, List.take_append_of_le_length hscanned]
    exact hgrown

/-- A settlement of the log is of a known objective, and stays so. -/
theorem Named.settlement_known {new : List Entry} (h : Named log) (hstable : StableIds (log ++ new))
    (he : e ∈ ofKind log .settlement) {id : String} {o : Objective}
    (hid : payloadStr e.payload "objective_id" = some id)
    (hget : (objectives (log ++ new)).get? id = some o) : (objectives log).get? id = some o := by
  rw [mem_ofKind] at he
  obtain ⟨before, after, hlog⟩ := List.append_of_mem he.1
  obtain ⟨p, hp, -, hpid⟩ := h.paid before e after hlog he.2
  rw [hid] at hpid
  cases hpid
  have hin : p ∈ claims log := by
    rw [hlog, claims_append, List.mem_append]
    exact .inl hp
  obtain ⟨o', ho'⟩ := Option.isSome_iff_exists.mp (h.known p hin)
  rw [hstable.get?_append ho'] at hget
  cases hget
  exact ho'

/-- An entry that is no settlement of a piecework objective. -/
theorem UnitsOk.append (h : UnitsOk n) (hnamed : Named n.log) {kind : EntryKind} {payload : Value}
    (hstable : StableIds (n.append kind payload ts).log)
    (hnew : kind = .settlement → ∃ id o, payloadStr payload "objective_id" = some id ∧
      (objectives n.log).get? id = some o ∧ (o.ratchet = none → o.piecework = none)) :
    UnitsOk (n.append kind payload ts) where
  index := h.index.append hnamed.known hstable
  settled := by
    rw [log_append, settledIds_append]
    exact h.settled.trans (List.sublist_append_left _ _)
  sound := fun c hc => (h.sound c hc).append hstable
  disjoint := h.disjoint
  complete := by
    intro e he id o hid hget hratchet hpiecework
    rw [log_append, ofKind_append, List.mem_append] at he
    rw [log_append] at hget hstable
    obtain he | he := he
    · exact h.complete e he id o hid (hnamed.settlement_known hstable he hid hget) hratchet
        hpiecework
    · obtain ⟨hmem, hkind⟩ := mem_ofKind.mp he
      rw [List.mem_singleton] at hmem
      subst hmem
      rw [kind_nextEntry, EntryKind.asStr_inj] at hkind
      obtain ⟨id', o', hid', hget', hnone⟩ := hnew hkind
      rw [payload_nextEntry, hid'] at hid
      cases hid
      rw [hstable.get?_append hget'] at hget
      cases hget
      simp [hnone hratchet] at hpiecework

/-- A settlement that counts units its job has not paid. -/
theorem UnitsOk.count (h : UnitsOk n) (hnamed : Named n.log) {claim : Claim} {novel : List String}
    (reward : UInt64) (ts : String) (hclaim : (e, claim) ∈ claims n.log)
    (hknown : (objectives n.log).get? claim.objectiveId = some objective)
    (hblock : objective.piecework = some block) (hparse : Piecework.fromValue block = .ok piecework)
    (hnovel : novel.Sublist (piecework.unitKeys claim.artifact))
    (hfresh : ∀ key ∈ novel, ¬PaidUnit n.log n.log objective.verifier block piecework key) :
    UnitsOk ((n.pay claim reward ts).count claim objective novel) := by
  have hnamed' : Named (n.pay claim reward ts).log := hnamed.pay hclaim reward ts
  have hstable := hnamed'.stableIds
  have hids : settledIds (n.pay claim reward ts).log = settledIds n.log ++ [claim.id] := by
    rw [pay, log_append, settledIds_append, (isSettlement_pay _ _ _ _).settledIds]
  let new : Counted := ⟨claim.id, objective, novel⟩
  have hsound : new.Sound n.log :=
    ⟨(e, claim), hclaim, rfl, hknown, block, piecework, hblock, hparse, hnovel⟩
  constructor
  · exact h.index.append hnamed.known hstable
  · show ((n.counted ++ [new]).map Counted.claimId).Sublist
      (settledIds (n.pay claim reward ts).log)
    rw [hids, List.map_append]
    exact h.settled.append (List.Sublist.refl _)
  · intro c hc
    obtain hc | hc := List.mem_append.mp hc
    · exact (h.sound c hc).append hstable
    · rw [List.mem_singleton] at hc
      subst hc
      exact hsound.append hstable
  · show (n.counted ++ [new]).Pairwise _
    rw [List.pairwise_append]
    refine ⟨h.disjoint, List.pairwise_singleton _ _, ?_⟩
    intro c hc d hd hjob key hkey hkey'
    rw [List.mem_singleton] at hd
    subst hd
    -- the units of an earlier settlement of this job are among those it has paid
    obtain ⟨p, hp, hid, hget, block', piecework', hblock', hparse', hsub⟩ := h.sound c hc
    rw [hjob.2] at hblock'
    obtain rfl : block = block' := Option.some.inj (hblock.symm.trans hblock')
    rw [hparse] at hparse'
    cases hparse'
    have hsettled : p.2.id ∈ settledIds n.log := by
      rw [hid]
      exact h.settled.subset (List.mem_map_of_mem hc)
    exact hfresh key hkey' ⟨p, hp, hsettled, ⟨c.objective, hget, hjob.2.trans hblock, hjob.1⟩,
      hsub.subset hkey⟩
  · intro e' he' id o hid hget hratchet hpiecework
    rw [show ((n.pay claim reward ts).count claim objective novel).log =
      n.log ++ [n.ledger.nextEntry EntryKind.settlement.asStr (settlementValue claim.objectiveId
        claim.id claim.submitter reward) ts] from rfl] at he' hget
    rw [ofKind_append, List.mem_append] at he'
    obtain he' | he' := he'
    · obtain ⟨c, hc, hcount⟩ := h.complete e' he' id o hid
        (hnamed.settlement_known hstable he' hid hget) hratchet hpiecework
      exact ⟨c, List.mem_append_left _ hc, hcount⟩
    · obtain ⟨hmem, -⟩ := mem_ofKind.mp he'
      rw [List.mem_singleton] at hmem
      subst hmem
      simp only [payload_nextEntry, payloadStr_settlementValue_objectiveId,
        Option.some.injEq] at hid
      subst hid
      have hsame := StableIds.get?_append hstable hknown
      rw [hget] at hsame
      cases hsame
      exact ⟨new, List.mem_append_right _ (List.mem_singleton_self _),
        payloadStr_settlementValue_claimId _ _ _ _, rfl⟩

theorem Settled.units {claim : Claim} {consumed : List String}
    {res : Node × Except RuleViolation Outcome} (h : Settled n claim epoch consumed ts res)
    (hn : Named n.log) (hu : UnitsOk n) (hclaim : (e, claim) ∈ claims n.log) : UnitsOk res.1 := by
  have hnext := (h.named hn hclaim).stableIds
  cases h with
  | unpaid => exact hu
  | @unpaidUnit objective block piecework outcome known isJob parses =>
    have hindex := (paidUnitKeys_spec hn hu.index known isJob parses).1
    obtain ⟨index, hframe⟩ := n.paidUnitKeys_frame objective piecework
    rw [hframe] at hindex ⊢
    exact ⟨hindex, hu.settled, hu.sound, hu.disjoint, hu.complete⟩
  | overflowed => exact hu
  | whole known noRatchet noPiecework =>
    apply hu.append hn hnext
    intro _
    exact ⟨_, _, by simp, known, fun _ => noPiecework⟩
  | @improved objective block ratchet held score reward paidCumulative _ known isRatchet =>
    have hadvanced := hn.advance claim score paidCumulative ts
    have hunits : UnitsOk (n.advance claim score paidCumulative ts) :=
      hu.append hn hadvanced.stableIds (by simp)
    unfold recordMove at hnext ⊢
    split_ifs at hnext ⊢
    · apply hunits.append hadvanced hnext
      intro _
      exact ⟨_, _, by simp, StableIds.get?_append hadvanced.stableIds known, by simp [isRatchet]⟩
    · exact hunits
  | @unit objective block piecework novel reward _ known noRatchet isJob parses counts =>
    obtain ⟨hindex, hpaid⟩ := paidUnitKeys_spec hn hu.index known isJob parses
    obtain ⟨index, hframe⟩ := n.paidUnitKeys_frame objective piecework
    rw [hframe] at hindex ⊢
    have hm : UnitsOk { n with pieceworkIndex := index } :=
      ⟨hindex, hu.settled, hu.sound, hu.disjoint, hu.complete⟩
    apply hm.count hn reward ts hclaim known isJob parses
    · rw [counts]
      exact List.filter_sublist
    · intro key hkey hpaidUnit
      rw [counts, List.mem_filter] at hkey
      simp [(hpaid key).mpr hpaidUnit] at hkey

/-- On every reachable node the names hold and the counted units of a job are
disjoint. -/
theorem Reaches.units {m : Node} (hempty : n.log = []) (hindex : n.pieceworkIndex = .empty)
    (hcounted : n.counted = []) (h : Reaches n m) (hcol : NoCollision (RecordTexts m.log)) :
    Named m.log ∧ UnitsOk m := by
  induction h with
  | refl =>
    have hunits : UnitsOk n := by
      constructor
      · intro job index hget
        rw [hindex, BTreeMap.get?_empty] at hget
        cases hget
      · simp [hcounted]
      · simp [hcounted]
      · simp [hcounted]
      · simp [hempty, ofKind]
    rw [hempty]
    exact ⟨named_nil, hunits⟩
  | @write m kind payload ts before admitted ih =>
    obtain ⟨hnamed, hunits⟩ := ih (hcol.mono fun _ ht => ht.of_prefix (List.prefix_append _ _))
    have hstable := stableIds_of_noCollision hcol
    refine ⟨⟨hcol, (before.write admitted).knownClaims hempty hstable, ?_⟩, ?_⟩
    · rw [log_append]
      apply hnamed.paid.concat
      intro hkind
      exact absurd (EntryKind.asStr_inj.mp hkind) admitted.not_payout.1
    · apply hunits.append hnamed hstable
      intro hkind
      exact absurd hkind admitted.not_payout.1
  | @drain m now ts before ih =>
    have hprefix := (m.settleDue_log now ts).isPrefix
    apply settleDue_induction (P := fun m => Named m.log ∧ UnitsOk m)
    · rintro m call ⟨hnamed, hunits⟩
      exact ⟨hnamed, hunits.index, hunits.settled, hunits.sound, hunits.disjoint,
        hunits.complete⟩
    · rintro start m claim epoch consumed hbatch hext ⟨hnamed, hunits⟩
      obtain ⟨e, hclaim⟩ := exists_claim_of_mem_batchOf hbatch hext
      have hsettled := m.settleOne_settled claim epoch consumed ts
      exact ⟨hsettled.named hnamed hclaim, hsettled.units hnamed hunits hclaim⟩
    · rintro m epoch anchor order ⟨hnamed, hunits⟩
      have hnamed' : Named (m.append .batch (batchValue epoch anchor order) ts).log :=
        hnamed.concat_payout (.inr rfl) (by simp)
      exact ⟨hnamed', hunits.append hnamed hnamed'.stableIds (by simp)⟩
    · exact ih (hcol.mono fun _ ht => ht.of_prefix hprefix)

/-- Every pool holds and nothing is paid twice. -/
structure SpentOnce (n : Node) : Prop where
  /-- Per objective: what was paid fits its reward, an objective that pays once
  paid once, and a ratchet has paid what its latest frontier says, which is
  what its score is worth. -/
  pool : ∀ id o, (objectives n.log).get? id = some o → Pool n.log id o
  /-- Every settlement is of a claim of the log, on the claim's objective. -/
  settlement : ∀ e ∈ ofKind n.log .settlement, ∃ p ∈ claims n.log,
    payloadStr e.payload "claim_id" = some p.2.id ∧
      payloadStr e.payload "objective_id" = some p.2.objectiveId ∧
      ((objectives n.log).get? p.2.objectiveId).isSome
  /-- No claim has two settlements. -/
  claim : (settledIds n.log).Nodup
  /-- Every settlement of a piecework objective counted units once, and they
  are units of its claim. -/
  counted : ∀ e ∈ ofKind n.log .settlement, ∀ id o,
    payloadStr e.payload "objective_id" = some id → (objectives n.log).get? id = some o →
    o.ratchet = none → o.piecework.isSome →
    ∃ c ∈ n.counted, payloadStr e.payload "claim_id" = some c.claimId ∧ c.objective = o
  once : (n.counted.map Counted.claimId).Nodup ∧
    ∀ c ∈ n.counted, c.claimId ∈ settledIds n.log ∧ c.Sound n.log ∧ c.keys.Nodup
  /-- No unit of a job was counted by two settlements. -/
  unit : n.counted.Pairwise fun c d => c.SameJob d → List.Disjoint c.keys d.keys

/-- In every run from an empty log, with no SHA-256 collision among its
records, no pool is overspent and nothing is paid twice. -/
theorem run_spentOnce (l : Ledger) (hempty : l.entries = []) (ops : List Op)
    (hcol : NoCollision (RecordTexts ((new l).run ops).log)) : SpentOnce ((new l).run ops) := by
  have hreaches := (new l).run_reaches ops
  have hnew : (new l).log = [] := hempty
  obtain ⟨hnamed, hunits⟩ := hreaches.units hnew rfl rfl hcol
  have hpaid := hreaches.paidOnce hnew hnamed.stableIds
  constructor
  · exact (hreaches.pools hnew hnamed.stableIds).pool
  · intro e he
    rw [mem_ofKind] at he
    obtain ⟨before, after, hlog⟩ := List.append_of_mem he.1
    obtain ⟨p, hp, hid, hobjective⟩ := hnamed.paid before e after hlog he.2
    have hin : p ∈ claims ((new l).run ops).log := by
      rw [hlog, claims_append, List.mem_append]
      exact .inl hp
    exact ⟨p, hin, hid, hobjective, hnamed.known p hin⟩
  · exact hpaid.nodup
  · exact hunits.complete
  · refine ⟨hpaid.nodup.sublist hunits.settled, ?_⟩
    intro c hc
    exact ⟨hunits.settled.subset (List.mem_map_of_mem hc), hunits.sound c hc,
      (hunits.sound c hc).nodup⟩
  · exact hunits.disjoint

end Node

/-! ## The sample's records -/

theorem sampleOps_objectives : letI := sampleWorld
    ∀ e ∈ Log.ofKind ((Node.new (sampleLog [])).run sampleOps).log .objective,
      e.payload = sampleObjective.toValue := by
  let _ := sampleWorld
  intro e he
  rw [sampleOps_eq, Node.run_cons, Node.run_cons, Node.run_cons, Node.run_cons, Node.run_nil,
    Node.step, Node.step, Node.step, Node.step] at he
  rw [Node.ofKind_payouts (Node.settleDue_log _ _ _) (by decide)] at he
  obtain he | ⟨hkind, -⟩ := Node.mem_ofKind_reveal _ _ _ _ (by decide) (by decide) he
  · rw [Node.ofKind_commit _ _ _ (by decide) (by decide), Node.postObjective] at he
    generalize Log.checkObjective _ _ = check at he
    cases check with
    | error error => cases he
    | ok u =>
      rw [Log.mem_ofKind] at he
      rw [List.mem_singleton.mp he.1]
      rfl
  · cases hkind

theorem sample_claims : letI := sampleWorld
    ∀ p ∈ Log.claims ((Node.new (sampleLog [])).run sampleOps).log, p.2 = sampleClaim := by
  let _ := sampleWorld
  intro p hp
  obtain ⟨hmem, hkind, hdecode⟩ := Log.mem_decoded.mp hp
  rw [sampleOps_claims p.1 (Node.mem_claimEntries.mpr ⟨hmem, hkind⟩),
    Claim.fromValue_toValue_iff] at hdecode
  exact hdecode.1

theorem sample_recordText {text : String} : letI := sampleWorld
    Log.RecordTexts ((Node.new (sampleLog [])).run sampleOps).log text →
      text ∈ [sampleObjective.toValue.canonicalString, sampleObjective.verifier.canonicalString,
        (Value.object [("unit_price", u64Value 5)]).canonicalString,
        sampleClaim.toValue.canonicalString] := by
  let _ := sampleWorld
  rintro (⟨p, hp, htext⟩ | ⟨p, hp, rfl⟩)
  · have hobjective : p.2 = sampleObjective := by
      obtain ⟨hmem, hkind, hdecode⟩ := Log.mem_decoded.mp hp
      have hvalid : sampleObjective.validate = .ok () := by decide
      rw [sampleOps_objectives p.1 (Log.mem_ofKind.mpr ⟨hmem, hkind⟩),
        Objective.fromValue_toValue,
        Objective.stripNulls_of_noNulls (Objective.noNulls_of_validate hvalid), hvalid] at hdecode
      exact (Except.ok.inj hdecode).symm
    rw [hobjective] at htext
    obtain rfl | rfl | ⟨block, hblock, rfl⟩ := htext
    · simp
    · simp
    · cases hblock
      simp
  · rw [sample_claims p hp]
    simp

/-- The texts of the sample's records have digests of their own. -/
theorem sample_recordTexts_of {texts : String → Prop} (h : ∀ text, texts text →
    text ∈ [sampleObjective.toValue.canonicalString, sampleObjective.verifier.canonicalString,
      (Value.object [("unit_price", u64Value 5)]).canonicalString,
      sampleClaim.toValue.canonicalString]) : letI := sampleWorld
    NoCollision texts := by
  let _ := sampleWorld
  apply noCollision_of_nodup _ h
  have hobjective : sampleObjective.toValue.digest = sampleObjectiveId :=
    Value.digest_ofLengths sampleRunDigests (n := 185) (by decide +kernel) (by decide)
  show [sampleObjective.toValue.digest, sampleObjective.verifier.digest, (Value.object _).digest,
    sampleClaim.toValue.digest].Nodup
  rw [hobjective, sampleClaim_digest_run]
  decide +kernel

theorem sample_recordTexts : letI := sampleWorld
    NoCollision (Log.RecordTexts ((Node.new (sampleLog [])).run sampleOps).log) :=
  sample_recordTexts_of fun _ => sample_recordText

theorem run_spentOnce_sample : letI := sampleWorld
    Node.SpentOnce ((Node.new (sampleLog [])).run sampleOps) := by
  let _ := sampleWorld
  exact Node.run_spentOnce (sampleLog []) rfl sampleOps sample_recordTexts

end Cairn.Ports
