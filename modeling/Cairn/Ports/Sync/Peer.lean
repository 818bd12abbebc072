import Cairn.Ports.Canonical.Merkle
import Mathlib.Data.Finset.Basic
import Mathlib.Data.Finset.Lattice.Lemmas

/-!
# One side of a reconciliation

`src/p2p/sync.rs`: peers exchange records, addressed by the digest of their
payload, and ask for what they lack. A peer holds records, remembers where each
stands with it, and remembers what it has asked for and not yet received.

`ingest` takes a closure that may remember what it was asked; it is a function
of the records it has been asked about so far and of the record.
-/

namespace Cairn.Ports.Sync

open Cairn.Verified
open Cairn.Ports.Canonical

/-- The kinds that may cross the wire. -/
def EXCHANGEABLE : List String := ["objective", "commitment", "claim"]

structure Record where
  kind : String
  payload : Value
deriving DecidableEq

inductive SyncError where
  | notExchangeable (kind : String)
  | malformedId (id : String)
  | malformedMessage (detail : String)
  | unsolicited (id : String)
  | tooMany (limit got : Nat)
deriving DecidableEq

/-- Bytes from pairs of digits, each pair read by `u8::from_str_radix`. -/
def bytePairs : List Char → Option (List UInt8)
  | [] => some []
  | [_] => none
  | c :: d :: rest => do
      let byte ← fromStrRadix16 256 [c, d]
      let bytes ← bytePairs rest
      return UInt8.ofNat byte :: bytes

def unhex (text : String) : Option (Vector UInt8 32) :=
  if text.utf8ByteSize ≠ 64 then none
  else
    (bytePairs text.toList).bind fun bytes =>
      if h : bytes.length = 32 then some ⟨bytes.toArray, by simpa using h⟩ else none

/-- `id_bytes`: the bytes behind a digest. -/
def idBytes (id : String) : Option (Vector UInt8 32) :=
  if DIGEST_PREFIX.toList.isPrefixOf id.toList then
    unhex (String.ofList (id.toList.drop DIGEST_PREFIX.toList.length))
  else none

theorem utf8ByteSize_ofList (text : List Char) :
    (String.ofList text).utf8ByteSize = (text.map Char.utf8Size).sum := by
  induction text with
  | nil => rfl
  | cons c text ih =>
    rw [String.ofList_cons]
    simp [String.utf8ByteSize_append, ih]

theorem utf8Size_of_isHexDigit {c : Char} (h : isHexDigit c) : c.utf8Size = 1 := by
  have hle : c.val.toNat ≤ 127 := by
    simp only [isHexDigit, Char.isDigit, Bool.or_eq_true, Bool.and_eq_true, decide_eq_true_eq,
      Char.le_def] at h
    obtain ⟨-, h⟩ | ⟨-, h⟩ := h
    · exact le_trans h (by decide)
    · exact le_trans h (by decide)
  exact Char.utf8Size_eq_one_iff.mpr hle

theorem bytePairs_hexEncode (bytes : List UInt8) : bytePairs (hexEncode bytes) = some bytes := by
  induction bytes with
  | nil => rfl
  | cons byte bytes ih =>
    have hlt := byte.toNat_lt
    have hpair := fromStrRadix16_digitChars (Nat.div_lt_of_lt_mul (by omega) : byte.toNat / 16 < 16)
      (Nat.mod_lt byte.toNat (by omega : 0 < 16))
    rw [Nat.div_add_mod] at hpair
    have hrest : bytePairs (bytes.flatMap fun byte =>
        [Nat.digitChar (byte.toNat / 16), Nat.digitChar (byte.toNat % 16)]) = some bytes := ih
    simp [hexEncode, bytePairs, hpair, hrest]

/-- Bytes written in hexadecimal are read back. -/
theorem unhex_hexEncode (bytes : Vector UInt8 32) :
    unhex (String.ofList (hexEncode bytes.toList)) = some bytes := by
  have hsize : (String.ofList (hexEncode bytes.toList)).utf8ByteSize = 64 := by
    rw [utf8ByteSize_ofList, List.map_congr_left fun c hc =>
      utf8Size_of_isHexDigit (isHexDigit_of_mem_hexEncode hc)]
    simp [length_hexEncode]
  unfold unhex
  rw [if_neg (not_not.mpr hsize), String.toList_ofList, bytePairs_hexEncode, Option.bind_some,
    dif_pos (by simp)]
  simp [Vector.toList]

/-- Reading a digest gives back what was hashed. -/
theorem idBytes_digestBytes [Sha256] (data : ByteArray) :
    idBytes (digestBytes data) = some (Sha256.hash data) := by
  have hprefix : DIGEST_PREFIX.toList = ['s', 'h', 'a', '2', '5', '6', ':'] := rfl
  unfold idBytes
  rw [toList_digestBytes, hprefix, if_pos (by simp), List.drop_left]
  exact unhex_hexEncode _

inductive Standing where
  | unverified
  | verified
  | refused (why : String)
deriving DecidableEq

structure IngestReport where
  accepted : List String
  duplicates : Nat
  refused : List (String × SyncError)

structure Limits where
  maxIdsPerMessage : Nat
  maxRecordsPerMessage : Nat
  maxRecordBytes : Nat

/-- `crate::serve::MAX_BODY_BYTES`. -/
def MAX_BODY_BYTES : Nat := 1048576

def Limits.default : Limits where
  maxIdsPerMessage := 10000
  maxRecordsPerMessage := 512
  maxRecordBytes := MAX_BODY_BYTES

structure Peer where
  held : BTreeMap String Record
  standing : BTreeMap String Standing
  outstanding : Finset String
  limits : Limits

/-- What `verify` answers: the records it was asked about so far, and the one
it is asked about. -/
abbrev Verify := List Record → Record → Except SyncError Unit

/-- The size of a record: its canonical bytes. -/
def Record.size (r : Record) : Nat := r.payload.canonicalBytes.size

def Record.id [Sha256] (r : Record) : String := r.payload.digest

/-- Where the loop of `ingest` stands. -/
structure Ingest where
  peer : Peer
  report : IngestReport
  asked : List Record

namespace Peer

def withLimits (limits : Limits) : Peer where
  held := .empty
  standing := .empty
  outstanding := ∅
  limits := limits

def new : Peer := withLimits .default

def holds (p : Peer) (id : String) : Bool := p.held.containsKey id

def ids (p : Peer) : List String := p.held.keys

/-- The loop of `want_from`. -/
def wantEach (p : Peer) (want : List String) : List String → Peer × Except SyncError (List String)
  | [] => (p, .ok want)
  | id :: ids =>
    if (idBytes id).isNone then (p, .error (.malformedId id))
    else if ¬p.holds id ∧ id ∉ p.outstanding then
      wantEach { p with outstanding := Insert.insert id p.outstanding } (want ++ [id]) ids
    else wantEach p want ids

def wantFrom (p : Peer) (ids : List String) : Peer × Except SyncError (List String) :=
  if ids.length > p.limits.maxIdsPerMessage then
    (p, .error (.tooMany p.limits.maxIdsPerMessage ids.length))
  else p.wantEach [] ids

def serve (p : Peer) (ids : List String) : Except SyncError (List Record) :=
  if ids.length > p.limits.maxRecordsPerMessage then
    .error (.tooMany p.limits.maxRecordsPerMessage ids.length)
  else .ok (ids.filterMap p.held.get?)

section Digests

variable [Sha256]

def insert (p : Peer) (record : Record) : Peer × Except SyncError String :=
  if record.kind ∉ EXCHANGEABLE then (p, .error (.notExchangeable record.kind))
  else
    let id := record.id
    let standing :=
      if p.standing.containsKey id then p.standing else p.standing.insert id .unverified
    ({ p with held := p.held.insert id record, standing }, .ok id)

def refuse (s : Ingest) (id : String) (error : SyncError) : Ingest :=
  { s with report := { s.report with refused := s.report.refused ++ [(id, error)] } }

def duplicate (s : Ingest) : Ingest :=
  { s with report := { s.report with duplicates := s.report.duplicates + 1 } }

/-- `self.outstanding.remove(&id)`. -/
def received (s : Ingest) (id : String) : Ingest :=
  { s with peer := { s.peer with outstanding := s.peer.outstanding.erase id } }

/-- One turn of `ingest`'s loop. -/
def ingestOne (verify : Verify) (s : Ingest) (record : Record) : Ingest :=
  let id := record.id
  if record.size > s.peer.limits.maxRecordBytes then
    refuse s id (.tooMany s.peer.limits.maxRecordBytes record.size)
  else if record.kind ∉ EXCHANGEABLE then refuse s id (.notExchangeable record.kind)
  else if id ∉ s.peer.outstanding then
    if s.peer.holds id then duplicate s else refuse s id (.unsolicited id)
  else
    let s := received s id
    if s.peer.holds id then duplicate s
    else
      let answer := verify s.asked record
      let s := { s with asked := s.asked ++ [record] }
      match answer with
      | .error e => refuse s id e
      | .ok () =>
        { s with
          peer := { s.peer with held := s.peer.held.insert id record }
          report := { s.report with accepted := s.report.accepted ++ [id] } }

/-- `ingest`, with what the closure has been asked before. -/
def ingest (p : Peer) (records : List Record) (verify : Verify) : Ingest :=
  let start : Ingest :=
    { peer := p, report := { accepted := [], duplicates := 0, refused := [] }, asked := [] }
  if records.length > p.limits.maxRecordsPerMessage then
    refuse start "" (.tooMany p.limits.maxRecordsPerMessage records.length)
  else records.foldl (ingestOne verify) start

/-! ## One record -/

/-- What a record must pass to be held. -/
structure Admits (verify : Verify) (s : Ingest) (record : Record) : Prop where
  size : record.size ≤ s.peer.limits.maxRecordBytes
  exchangeable : record.kind ∈ EXCHANGEABLE
  asked : record.id ∈ s.peer.outstanding
  fresh : s.peer.holds record.id = false
  accepted : verify s.asked record = .ok ()

/-- A record is held and no longer asked for, or nothing but what is asked for
changes. -/
theorem ingestOne_cases (verify : Verify) (s : Ingest) (record : Record) :
    (Admits verify s record ∧ (ingestOne verify s record).peer =
      { s.peer with
        held := s.peer.held.insert record.id record
        outstanding := s.peer.outstanding.erase record.id }) ∨
    (¬Admits verify s record ∧ ∃ o ⊆ s.peer.outstanding,
      (ingestOne verify s record).peer = { s.peer with outstanding := o }) := by
  unfold ingestOne
  dsimp only
  by_cases hsize : record.size > s.peer.limits.maxRecordBytes
  · rw [if_pos hsize]
    exact .inr ⟨fun h => absurd h.size (not_le.mpr hsize), _, subset_rfl, rfl⟩
  rw [if_neg hsize]
  by_cases hkind : record.kind ∉ EXCHANGEABLE
  · rw [if_pos hkind]
    exact .inr ⟨fun h => hkind h.exchangeable, _, subset_rfl, rfl⟩
  rw [if_neg hkind]
  by_cases hasked : record.id ∉ s.peer.outstanding
  · rw [if_pos hasked]
    refine .inr ⟨fun h => hasked h.asked, s.peer.outstanding, subset_rfl, ?_⟩
    split_ifs <;> rfl
  rw [if_neg hasked]
  by_cases hheld : (received s record.id).peer.holds record.id
  · rw [if_pos hheld]
    refine .inr ⟨fun h => ?_, _, Finset.erase_subset _ _, rfl⟩
    exact absurd (h.fresh.symm.trans hheld) Bool.false_ne_true
  rw [if_neg hheld]
  have hfresh : s.peer.holds record.id = false := Bool.eq_false_iff.mpr hheld
  cases hanswer : verify s.asked record with
  | error e =>
    simp only [received, hanswer]
    refine .inr ⟨fun h => ?_, _, Finset.erase_subset _ _, rfl⟩
    exact absurd (h.accepted.symm.trans hanswer) (by simp)
  | ok u =>
    have hadmits : Admits verify s record :=
      ⟨not_lt.mp hsize, not_not.mp hkind, not_not.mp hasked, hfresh, hanswer⟩
    simp only [received, hanswer, and_true]
    exact .inl hadmits

variable {p : Peer} {record : Record}

theorem ingest_concat {records : List Record} (verify : Verify)
    (h : records.length < p.limits.maxRecordsPerMessage) :
    p.ingest (records ++ [record]) verify = ingestOne verify (p.ingest records verify) record := by
  unfold ingest
  dsimp only
  rw [if_neg (by simp; omega), if_neg (by omega), List.foldl_append]
  rfl

/-- A property that every turn keeps holds after `ingest`. -/
theorem ingest_induction {P : Peer → Prop} {p : Peer} (records : List Record) (verify : Verify)
    (step : ∀ s record, P s.peer → P (ingestOne verify s record).peer) (hp : P p) :
    P (p.ingest records verify).peer := by
  unfold ingest
  dsimp only
  split_ifs with hmany
  · exact hp
  · have hfold : ∀ (rest : List Record) (s : Ingest), P s.peer →
        P (rest.foldl (ingestOne verify) s).peer := by
      intro rest
      induction rest with
      | nil => exact fun s hs => hs
      | cons record rest ih => exact fun s hs => ih _ (step s record hs)
    exact hfold records _ hp

variable {id : String}

/-- What is held after `ingest` was held before, or arrived and passed. -/
theorem entered_ingest {verify : Verify} :
    ∀ {records : List Record}, (p.ingest records verify).peer.held.get? id = some record →
      p.held.get? id = some record ∨
        ∃ done rest, records = done ++ record :: rest ∧ record.id = id ∧
          Admits verify (p.ingest done verify) record := by
  intro records
  by_cases hmany : records.length > p.limits.maxRecordsPerMessage
  · intro h
    unfold ingest at h
    dsimp only at h
    rw [if_pos hmany] at h
    exact .inl h
  · rw [not_lt] at hmany
    induction records using List.reverseRecOn with
    | nil =>
      intro h
      exact .inl h
    | append_singleton records last ih =>
      rw [List.length_append, List.length_singleton] at hmany
      intro h
      rw [ingest_concat verify (by omega)] at h
      have hbefore : (p.ingest records verify).peer.held.get? id = some record →
          p.held.get? id = some record ∨
            ∃ done rest, records ++ [last] = done ++ record :: rest ∧ record.id = id ∧
              Admits verify (p.ingest done verify) record := by
        intro hheld
        obtain hheld | ⟨done, rest, rfl, hid, hadmits⟩ := ih (by omega) hheld
        · exact .inl hheld
        · exact .inr ⟨done, rest ++ [last], by simp, hid, hadmits⟩
      obtain ⟨hadmits, hpeer⟩ | ⟨-, o, -, hpeer⟩ :=
        ingestOne_cases verify (p.ingest records verify) last
      · rw [hpeer] at h
        dsimp only at h
        rw [BTreeMap.get?_insert] at h
        split_ifs at h with hid
        · cases h
          exact .inr ⟨records, [], rfl, hid.symm, hadmits⟩
        · exact hbefore h
      · rw [hpeer] at h
        exact hbefore h

/-! ## Asking -/

omit [Sha256] in
/-- What `want_from` changes: more is asked for, nothing of it held. -/
theorem wantEach_peer (ids : List String) : ∀ (p : Peer) (want : List String),
    ∃ o, p.outstanding ⊆ o ∧ (∀ id ∈ o, id ∈ p.outstanding ∨ p.holds id = false) ∧
      (p.wantEach want ids).1 = { p with outstanding := o } := by
  induction ids with
  | nil => exact fun p want => ⟨p.outstanding, subset_rfl, fun _ h => .inl h, rfl⟩
  | cons id ids ih =>
    intro p want
    unfold wantEach
    split_ifs with hid hnew
    · exact ⟨p.outstanding, subset_rfl, fun _ h => .inl h, rfl⟩
    · obtain ⟨o, hsub, hnone, hpeer⟩ :=
        ih { p with outstanding := Insert.insert id p.outstanding } (want ++ [id])
      refine ⟨o, (Finset.subset_insert _ _).trans hsub, ?_, hpeer⟩
      intro x hx
      obtain hx | hx := hnone x hx
      · obtain rfl | hx := Finset.mem_insert.mp hx
        · exact .inr (Bool.eq_false_iff.mpr hnew.1)
        · exact .inl hx
      · exact .inr hx
    · exact ih p want

omit [Sha256] in
theorem wantFrom_peer (p : Peer) (ids : List String) :
    ∃ o, (∀ id ∈ o, id ∈ p.outstanding ∨ p.holds id = false) ∧
      (p.wantFrom ids).1 = { p with outstanding := o } := by
  unfold wantFrom
  split_ifs
  · exact ⟨p.outstanding, fun _ h => .inl h, rfl⟩
  · obtain ⟨o, -, hnone, hpeer⟩ := wantEach_peer ids p []
    exact ⟨o, hnone, hpeer⟩

/-- The ids a list asks for before its first malformed one. -/
def readable (ids : List String) : List String := ids.takeWhile fun id => (idBytes id).isSome

omit [Sha256] in
/-- What has been asked for when the loop ends: what is not held of what it read. -/
theorem wantEach_outstanding (ids : List String) : ∀ (p : Peer) (want : List String),
    (p.wantEach want ids).1.outstanding =
      p.outstanding ∪ ((readable ids).filter fun id => !p.holds id).toFinset := by
  induction ids with
  | nil =>
    intro p want
    exact (Finset.union_empty _).symm
  | cons id ids ih =>
    intro p want
    unfold wantEach
    by_cases hid : (idBytes id).isNone
    · have hread : readable (id :: ids) = [] :=
        List.takeWhile_cons_of_neg (by simpa using hid)
      rw [if_pos hid, hread]
      exact (Finset.union_empty _).symm
    have hread : readable (id :: ids) = id :: readable ids :=
      List.takeWhile_cons_of_pos (by simpa [Option.isSome_iff_ne_none] using hid)
    rw [if_neg hid, hread]
    by_cases hnew : ¬p.holds id ∧ id ∉ p.outstanding
    · have hfresh : p.holds id = false := Bool.eq_false_iff.mpr hnew.1
      rw [if_pos hnew, ih, List.filter_cons_of_pos (by simp [hfresh]), List.toFinset_cons]
      show Insert.insert id p.outstanding ∪ _ = p.outstanding ∪ Insert.insert id _
      ext x
      simp only [Finset.mem_union, Finset.mem_insert]
      tauto
    · rw [if_neg hnew, ih]
      by_cases hheld : p.holds id = true
      · rw [List.filter_cons_of_neg (by simp [hheld])]
      · have hout : id ∈ p.outstanding := by
          by_contra hout
          exact hnew ⟨hheld, hout⟩
        rw [List.filter_cons_of_pos (by simpa using hheld), List.toFinset_cons]
        ext x
        simp only [Finset.mem_union, Finset.mem_insert]
        constructor
        · tauto
        · rintro (hx | rfl | hx)
          · exact .inl hx
          · exact .inl hout
          · exact .inr hx

omit [Sha256] in
/-- The loop refuses a list that has a malformed id, and no other. -/
theorem wantEach_error_iff (ids : List String) : ∀ (p : Peer) (want : List String),
    (∃ error, (p.wantEach want ids).2 = .error error) ↔ ∃ id ∈ ids, (idBytes id).isNone := by
  induction ids with
  | nil => simp [wantEach]
  | cons id ids ih =>
    intro p want
    unfold wantEach
    rw [List.exists_mem_cons_iff]
    by_cases hid : (idBytes id).isNone
    · simp [hid]
    · rw [if_neg hid]
      simp only [hid, false_or, Bool.false_eq_true]
      split_ifs
      · exact ih _ _
      · exact ih p want

omit [Sha256] in
/-- A list within the limit leaves what is asked for alone when it reads nothing new. -/
theorem wantFrom_same_iff {ids : List String} (hlimit : ids.length ≤ p.limits.maxIdsPerMessage) :
    (p.wantFrom ids).1.outstanding = p.outstanding ↔
      ∀ id ∈ readable ids, p.holds id = true ∨ id ∈ p.outstanding := by
  unfold wantFrom
  rw [if_neg (Nat.not_lt.mpr hlimit), wantEach_outstanding, Finset.union_eq_left]
  constructor
  · intro hsub id hid
    by_contra hnew
    rw [not_or] at hnew
    apply hnew.2
    apply hsub
    rw [List.mem_toFinset, List.mem_filter]
    exact ⟨hid, by simpa using hnew.1⟩
  · intro hold id hid
    rw [List.mem_toFinset, List.mem_filter] at hid
    have hfresh : ¬p.holds id = true := by simpa using hid.2
    exact (hold id hid.1).resolve_left hfresh

/-- A refusal of these ids comes before anything is recorded, or there is none. -/
def Atomic (p : Peer) (ids : List String) : Prop :=
  p.limits.maxIdsPerMessage < ids.length ∨ (∀ id ∈ ids, (idBytes id).isSome) ∨
    ∀ id ∈ readable ids, p.holds id = true ∨ id ∈ p.outstanding

omit [Sha256] in
/-- What is asked for depends on the peer alone. -/
theorem wantFrom_singleton (hid : (idBytes id).isSome) (hfresh : p.holds id = false)
    (hout : id ∉ p.outstanding) (hroom : 1 ≤ p.limits.maxIdsPerMessage) :
    (p.wantFrom [id]).2 = .ok [id] := by
  have hlength : ¬[id].length > p.limits.maxIdsPerMessage := Nat.not_lt.mpr hroom
  have hnone : ¬(idBytes id).isNone = true := by simpa [Option.isSome_iff_ne_none] using hid
  unfold wantFrom wantEach
  rw [if_neg hlength, if_neg hnone, if_pos ⟨by simp [hfresh], hout⟩]
  rfl

omit [Sha256] in
/-- When a refusal leaves what is asked for alone, and the ids of its list open
to a later request. -/
theorem wantFrom_atomic_iff (p : Peer) (ids : List String) :
    (∀ error, (p.wantFrom ids).2 = .error error →
      (p.wantFrom ids).1.outstanding = p.outstanding ∧
        ∀ id ∈ ids, (idBytes id).isSome → p.holds id = false → id ∉ p.outstanding →
          1 ≤ p.limits.maxIdsPerMessage → ((p.wantFrom ids).1.wantFrom [id]).2 = .ok [id]) ↔
      p.Atomic ids := by
  by_cases hlimit : ids.length ≤ p.limits.maxIdsPerMessage
  · have herror : (∃ error, (p.wantFrom ids).2 = .error error) ↔ ∃ id ∈ ids, (idBytes id).isNone := by
      unfold wantFrom
      rw [if_neg (Nat.not_lt.mpr hlimit)]
      exact wantEach_error_iff ids p []
    have hnot : ¬p.limits.maxIdsPerMessage < ids.length := Nat.not_lt.mpr hlimit
    unfold Atomic
    rw [← wantFrom_same_iff hlimit]
    constructor
    · intro hatomic
      right
      by_cases hbad : ∃ id ∈ ids, (idBytes id).isNone
      · obtain ⟨error, hrefused⟩ := herror.mpr hbad
        exact .inr (hatomic error hrefused).1
      · left
        intro id hid
        by_contra hsome
        exact hbad ⟨id, hid, by simpa using hsome⟩
    · intro hcond error hrefused
      obtain ⟨id, hid, hbad⟩ := herror.mp ⟨error, hrefused⟩
      have hsame : (p.wantFrom ids).1.outstanding = p.outstanding := by
        rcases hcond with hmany | hread | hsame
        · exact absurd hmany hnot
        · have hsome := hread id hid
          rw [← Option.not_isNone, hbad] at hsome
          cases hsome
        · exact hsame
      obtain ⟨o, -, hpeer⟩ := p.wantFrom_peer ids
      rw [hpeer] at hsame ⊢
      obtain rfl : o = p.outstanding := hsame
      exact ⟨rfl, fun _ _ hread hfresh hout hroom => wantFrom_singleton hread hfresh hout hroom⟩
  · have hmany := Nat.not_le.mp hlimit
    have hself : (p.wantFrom ids).1 = p := by
      unfold wantFrom
      rw [if_pos hmany]
    refine ⟨fun _ => .inl hmany, fun _ _ _ => ?_⟩
    rw [hself]
    exact ⟨rfl, fun _ _ hread hfresh hout hroom => wantFrom_singleton hread hfresh hout hroom⟩

/-- An id of 64 zeros. -/
def zeroId : String := DIGEST_PREFIX ++ String.ofList (List.replicate 64 '0')

omit [Sha256] in
/-- A good id before a bad one is recorded, never asked for, and not asked for again. -/
theorem not_wantFrom_atomic :
    (new.wantFrom [zeroId, "bad"]).2 = .error (.malformedId "bad") ∧
      (new.wantFrom [zeroId, "bad"]).1.outstanding ≠ new.outstanding ∧
      ((new.wantFrom [zeroId, "bad"]).1.wantFrom [zeroId]).2 = .ok [] ∧
      (new.wantFrom [zeroId]).2 = .ok [zeroId] := by
  decide

/-! ## Runs -/

/-- A call of a peer's interface. -/
inductive Call where
  | insert (record : Record)
  | wantFrom (ids : List String)
  | serve (ids : List String)
  | ingest (records : List Record) (verify : Verify)

def call (p : Peer) : Call → Peer
  | .insert record => (p.insert record).1
  | .wantFrom ids => (p.wantFrom ids).1
  | .serve _ => p
  | .ingest records verify => (p.ingest records verify).peer

def run (p : Peer) (calls : List Call) : Peer := calls.foldl call p

theorem run_concat (p : Peer) (calls : List Call) (c : Call) :
    p.run (calls ++ [c]) = (p.run calls).call c := by
  rw [run, List.foldl_append]
  rfl

/-- Records sit under their own id, and are of a kind that travels. -/
def WF (p : Peer) : Prop :=
  ∀ id record, p.held.get? id = some record → record.id = id ∧ record.kind ∈ EXCHANGEABLE

theorem insert_eq (h : record.kind ∈ EXCHANGEABLE) :
    (p.insert record).1 =
      { p with
        held := p.held.insert record.id record
        standing :=
          if p.standing.containsKey record.id then p.standing
          else p.standing.insert record.id .unverified } := by
  unfold insert
  rw [if_neg (not_not.mpr h)]

theorem insert_refused (h : record.kind ∉ EXCHANGEABLE) : (p.insert record).1 = p := by
  unfold insert
  rw [if_pos h]

theorem WF.call (h : p.WF) (c : Call) : (p.call c).WF := by
  cases c with
  | insert record =>
    show ((p.insert record).1).WF
    by_cases hkind : record.kind ∈ EXCHANGEABLE
    · rw [insert_eq hkind]
      intro id r hr
      dsimp only at hr
      rw [BTreeMap.get?_insert] at hr
      split_ifs at hr with hid
      · cases hr
        exact ⟨hid.symm, hkind⟩
      · exact h id r hr
    · rw [insert_refused hkind]
      exact h
  | wantFrom ids =>
    obtain ⟨o, -, hpeer⟩ := p.wantFrom_peer ids
    show ((p.wantFrom ids).1).WF
    rw [hpeer]
    exact h
  | serve ids => exact h
  | ingest records verify =>
    intro id r hr
    obtain hr | ⟨done, rest, -, hid, hadmits⟩ := entered_ingest hr
    · exact h id r hr
    · exact ⟨hid, hadmits.exchangeable⟩

theorem WF.run {p : Peer} (h : p.WF) (calls : List Call) : (p.run calls).WF := by
  induction calls using List.reverseRecOn with
  | nil => exact h
  | append_singleton calls c ih =>
    rw [run_concat]
    exact ih.call c

theorem wf_withLimits (limits : Limits) : (withLimits limits).WF := by
  intro id record h
  cases h

theorem limits_call (p : Peer) (c : Call) : (p.call c).limits = p.limits := by
  cases c with
  | insert record =>
    show ((p.insert record).1).limits = p.limits
    unfold insert
    split_ifs <;> rfl
  | wantFrom ids =>
    obtain ⟨o, -, hpeer⟩ := p.wantFrom_peer ids
    show ((p.wantFrom ids).1).limits = p.limits
    rw [hpeer]
  | serve ids => rfl
  | ingest records verify =>
    apply @ingest_induction _ (fun q => q.limits = p.limits) p records verify _ rfl
    intro s record hs
    obtain ⟨-, hpeer⟩ | ⟨-, o, -, hpeer⟩ := ingestOne_cases verify s record
    · rw [hpeer]
      exact hs
    · rw [hpeer]
      exact hs

theorem limits_run (p : Peer) (calls : List Call) : (p.run calls).limits = p.limits := by
  induction calls using List.reverseRecOn with
  | nil => rfl
  | append_singleton calls c ih => rw [run_concat, limits_call, ih]

/-- Nothing but a local insertion puts a held record among the outstanding. -/
theorem overlap_call {c : Call} (hheld : (p.call c).holds id)
    (hout : id ∈ (p.call c).outstanding) :
    (p.holds id ∧ id ∈ p.outstanding) ∨
      ∃ record, c = .insert record ∧ record.kind ∈ EXCHANGEABLE ∧ record.id = id ∧
        id ∈ p.outstanding := by
  cases c with
  | insert record =>
    change ((p.insert record).1).holds id at hheld
    change id ∈ ((p.insert record).1).outstanding at hout
    by_cases hkind : record.kind ∈ EXCHANGEABLE
    · rw [insert_eq hkind] at hheld hout
      unfold holds BTreeMap.containsKey at hheld
      dsimp only at hheld hout
      rw [BTreeMap.get?_insert] at hheld
      split_ifs at hheld with hid
      · exact .inr ⟨record, rfl, hkind, hid.symm, hout⟩
      · exact .inl ⟨hheld, hout⟩
    · rw [insert_refused hkind] at hheld hout
      exact .inl ⟨hheld, hout⟩
  | wantFrom ids =>
    obtain ⟨o, hnone, hpeer⟩ := p.wantFrom_peer ids
    change ((p.wantFrom ids).1).holds id at hheld
    change id ∈ ((p.wantFrom ids).1).outstanding at hout
    rw [hpeer] at hheld hout
    obtain hout | hfresh := hnone id hout
    · exact .inl ⟨hheld, hout⟩
    · exact absurd (hfresh.symm.trans hheld) Bool.false_ne_true
  | serve ids => exact .inl ⟨hheld, hout⟩
  | ingest records verify =>
    left
    have hkeep := @ingest_induction _
      (fun q => q.holds id → id ∈ q.outstanding → p.holds id ∧ id ∈ p.outstanding)
      p records verify ?_ (fun hh ho => ⟨hh, ho⟩)
    · exact hkeep hheld hout
    intro s record hs hh ho
    obtain ⟨-, hpeer⟩ | ⟨-, o, hsub, hpeer⟩ := ingestOne_cases verify s record
    · rw [hpeer] at hh ho
      obtain ⟨hne, ho⟩ := Finset.mem_erase.mp ho
      unfold holds BTreeMap.containsKey at hh
      dsimp only at hh
      rw [BTreeMap.get?_insert, if_neg hne] at hh
      exact hs hh ho
    · rw [hpeer] at hh ho
      exact hs hh (hsub ho)

theorem overlap_run {limits : Limits} {calls : List Call}
    (hheld : ((withLimits limits).run calls).holds id)
    (hout : id ∈ ((withLimits limits).run calls).outstanding) :
    ∃ before record after, calls = before ++ .insert record :: after ∧
      record.kind ∈ EXCHANGEABLE ∧ record.id = id ∧
      id ∈ ((withLimits limits).run before).outstanding := by
  induction calls using List.reverseRecOn with
  | nil => cases hheld
  | append_singleton calls c ih =>
    rw [run_concat] at hheld hout
    obtain ⟨hheld, hout⟩ | ⟨record, rfl, hkind, hid, hout⟩ := overlap_call hheld hout
    · obtain ⟨before, record, after, rfl, hrest⟩ := ih hheld hout
      exact ⟨before, record, after ++ [c], by simp, hrest⟩
    · exact ⟨calls, record, [], rfl, hkind, hid, hout⟩

/-- What has a standing keeps one. -/
theorem standing_call (h : p.standing.containsKey id) (c : Call) :
    (p.call c).standing.containsKey id := by
  cases c with
  | insert record =>
    show ((p.insert record).1).standing.containsKey id
    by_cases hkind : record.kind ∈ EXCHANGEABLE
    · rw [insert_eq hkind]
      dsimp only
      split_ifs
      · exact h
      · unfold BTreeMap.containsKey
        rw [BTreeMap.get?_insert]
        split_ifs
        · rfl
        · exact h
    · rw [insert_refused hkind]
      exact h
  | wantFrom ids =>
    obtain ⟨o, -, hpeer⟩ := p.wantFrom_peer ids
    show ((p.wantFrom ids).1).standing.containsKey id
    rw [hpeer]
    exact h
  | serve ids => exact h
  | ingest records verify =>
    apply @ingest_induction _ (fun q => q.standing.containsKey id = true) p records verify _ h
    intro s record hs
    obtain ⟨-, hpeer⟩ | ⟨-, o, -, hpeer⟩ := ingestOne_cases verify s record
    · rw [hpeer]
      exact hs
    · rw [hpeer]
      exact hs

/-- What was inserted has a standing. -/
theorem standing_run {calls : List Call} (h : .insert record ∈ calls)
    (hkind : record.kind ∈ EXCHANGEABLE) : (p.run calls).standing.containsKey record.id := by
  induction calls using List.reverseRecOn with
  | nil => cases h
  | append_singleton calls c ih =>
    rw [run_concat]
    obtain h | h := List.mem_append.mp h
    · exact standing_call (ih h) c
    · obtain rfl := List.mem_singleton.mp h
      show (((p.run calls).insert record).1).standing.containsKey record.id
      rw [insert_eq hkind]
      dsimp only
      split_ifs with hthere
      · exact hthere
      · unfold BTreeMap.containsKey
        rw [BTreeMap.get?_insert, if_pos rfl]
        rfl

/-- The representation of a peer after any calls. An id that is both held and
outstanding was inserted locally while it was outstanding; `ingest` counts the
record that arrives for it as a duplicate. -/
theorem run_represents (limits : Limits) (calls : List Call) :
    (∀ id record, ((withLimits limits).run calls).held.get? id = some record →
      record.id = id ∧ record.kind ∈ EXCHANGEABLE) ∧
    (∀ record, .insert record ∈ calls → record.kind ∈ EXCHANGEABLE →
      ((withLimits limits).run calls).standing.containsKey record.id) ∧
    (∀ id, ((withLimits limits).run calls).holds id →
      id ∈ ((withLimits limits).run calls).outstanding →
      ∃ before record after, calls = before ++ .insert record :: after ∧
        record.kind ∈ EXCHANGEABLE ∧ record.id = id ∧
        id ∈ ((withLimits limits).run before).outstanding) ∧
    (∀ records verify id record,
      (((withLimits limits).run calls).ingest records verify).peer.held.get? id = some record →
      ((withLimits limits).run calls).held.get? id = some record ∨
        ∃ done rest, records = done ++ record :: rest ∧ record.id = id ∧
          Admits verify (((withLimits limits).run calls).ingest done verify) record) :=
  ⟨(wf_withLimits limits).run calls, fun _ h hkind => standing_run h hkind,
    fun _ hheld hout => overlap_run hheld hout, fun _ _ _ _ h => entered_ingest h⟩

end Digests

/-! ## Runs of two calls -/

def sampleRecord : Record := { kind := "claim", payload := .null }

/-- SHA-256 on the sample. -/
@[reducible] def sampleHash : Sha256 := .ofTable
  [("null", 0x74234e98afe7498fb5daf1f36ac2d78acc339464f950703b8c019892f982b90b)]

/-- A record inserted while it is asked for is held and outstanding; one that
arrives has no standing. -/
theorem not_run_represents : letI := sampleHash
    let id := sampleRecord.id
    let seeded := new.run [.wantFrom [id], .insert sampleRecord]
    let fetched := new.run [.wantFrom [id], .ingest [sampleRecord] fun _ _ => .ok ()]
    (seeded.holds id = true ∧ id ∈ seeded.outstanding) ∧
      fetched.holds id = true ∧ fetched.standing.containsKey id = false := by
  decide

end Peer

end Cairn.Ports.Sync
