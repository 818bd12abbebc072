import Cairn.Ports.Canonical.Size
import Cairn.Ports.Records.Stake
import Cairn.Verified.Freshest
import Mathlib.Data.Finset.Card

/-!
# Peer hints

The store of gossiped peer records of `src/p2p/peers.rs`. It holds one record an
identity, the one with the highest `seq`, and an index from the ids of the
records it holds back to their identities.

A record whose `seq` is held already is stale, whatever else it says. An
identity that signs two records with one `seq` is therefore heard by each store
as the store first heard it, and no exchange brings two stores together that
heard different ones.
-/

namespace Cairn.Ports

open Cairn.Verified
open Cairn.Ports.Canonical

def MAX_HINTS : Nat := 512

structure PeerHintLimits where
  maxIdsPerMessage : Nat
  maxRecordsPerMessage : Nat
  maxRecordBytes : Nat

def PeerHintLimits.default : PeerHintLimits where
  maxIdsPerMessage := 2048
  maxRecordsPerMessage := 512
  maxRecordBytes := 1024

inductive HintRefusal where
  | inadmissible (error : RecordError)
  | badSignature (error : SignatureError)
  | stale (seq held : UInt64)
  | full

inductive Admitted where
  | taken
  | duplicate
deriving DecidableEq

namespace Hints

structure Entry where
  record : PeerRecord
  /-- It came from the node's own log, and does not count against the cap. -/
  pinned : Bool

end Hints

structure Hints where
  held : BTreeMap String Hints.Entry
  byId : BTreeMap String String

structure PeersReport where
  accepted : Nat
  refused : Nat
  duplicates : Nat
deriving DecidableEq

def PeersReport.default : PeersReport := ⟨0, 0, 0⟩

namespace Hints

/-! ## The two maps -/

def new : Hints where
  held := .empty
  byId := .empty

def unpinned (h : Hints) : Nat := (h.held.values.filter fun entry => !entry.pinned).length

/-- The record held for an identity. -/
def recordOf (h : Hints) (identity : String) : Option PeerRecord :=
  (h.held.get? identity).map Entry.record

variable {h : Hints}

theorem mem_keys_held {identity : String} :
    identity ∈ h.held.keys ↔ ∃ record, h.recordOf identity = some record := by
  rw [BTreeMap.mem_keys]
  unfold recordOf
  constructor
  · rintro ⟨entry, hentry⟩
    exact ⟨entry.record, by rw [hentry]; rfl⟩
  · rintro ⟨record, hrecord⟩
    rcases Option.map_eq_some_iff.mp hrecord with ⟨entry, hentry, -⟩
    exact ⟨entry, hentry⟩

theorem recordOf_insert (held : BTreeMap String Entry) (byId : BTreeMap String String)
    (k : String) (entry : Entry) (identity : String) :
    recordOf { held := held.insert k entry, byId } identity =
      if identity = k then some entry.record else recordOf { held, byId } identity := by
  unfold recordOf
  rw [BTreeMap.get?_insert]
  split_ifs <;> rfl

theorem unpinned_le (h : Hints) : h.unpinned ≤ h.held.keys.toFinset.card := by
  rw [List.toFinset_card_of_nodup h.held.nodup_keys, BTreeMap.keys, List.length_map, unpinned,
    BTreeMap.values]
  exact (List.length_filter_le _ _).trans (List.length_map _).le

/-- What an entry counts for. -/
def Entry.weight (entry : Entry) : Nat := if entry.pinned then 0 else 1

/-- What the entries of the other identities count for. -/
def others (h : Hints) (k : String) : Nat :=
  (h.held.remove k).entries.countP fun e => !e.2.pinned

theorem unpinned_eq (h : Hints) : h.unpinned = h.held.entries.countP fun e => !e.2.pinned := by
  rw [unpinned, BTreeMap.values, ← List.countP_eq_length_filter, List.countP_map]
  rfl

theorem unpinned_insert (h : Hints) (byId : BTreeMap String String) (k : String) (entry : Entry) :
    unpinned { held := h.held.insert k entry, byId } = h.others k + entry.weight := by
  rw [unpinned_eq, (BTreeMap.entries_insert_perm h.held k entry).countP_eq, List.countP_cons,
    others, Entry.weight]
  cases entry.pinned <;> rfl

theorem unpinned_of_get? {k : String} {entry : Entry} (hheld : h.held.get? k = some entry) :
    h.unpinned = h.others k + entry.weight := by
  rw [unpinned_eq, (BTreeMap.entries_perm_remove hheld).countP_eq, List.countP_cons, others,
    Entry.weight]
  cases entry.pinned <;> rfl

theorem unpinned_of_none {k : String} (hheld : h.held.get? k = none) : h.unpinned = h.others k := by
  rw [unpinned_eq, others, BTreeMap.remove_of_get?_none hheld]

theorem weight_le {entry entry' : Entry} (h : entry.pinned = true → entry'.pinned = true) :
    entry'.weight ≤ entry.weight := by
  unfold Entry.weight
  cases hp : entry.pinned with
  | false => cases entry'.pinned <;> simp
  | true => rw [h hp]

/-! ## Offers -/

variable [Signatures]

/-- A record that proves who it speaks for. -/
def Admissible (record : PeerRecord) : Prop :=
  record.validate = .ok () ∧ record.verifySignature = .ok ()

instance : DecidablePred Admissible := fun _ => inferInstanceAs (Decidable (_ ∧ _))

/-- What a record of an identity ranks by. -/
def rank (record : PeerRecord) : Nat := record.seq.toNat

/-- A call of `insert` or `pin`. -/
structure Offer where
  record : PeerRecord
  pinned : Bool

/-- The offers a store is to decide about: admissible, of one identity. -/
def said (offers : List Offer) (identity : String) : List PeerRecord :=
  (offers.map Offer.record).filter fun record =>
    decide (Admissible record) && decide (record.identity = identity)

theorem mem_said {offers : List Offer} {identity : String} {record : PeerRecord} :
    record ∈ said offers identity ↔
      (∃ o ∈ offers, o.record = record) ∧ Admissible record ∧ record.identity = identity := by
  simp [said]

theorem said_append (offers offers' : List Offer) (identity : String) :
    said (offers ++ offers') identity = said offers identity ++ said offers' identity := by
  simp [said]

end Hints

/-! ## The store -/

section Store

variable [Sha256] [Signatures]

namespace Hints

/-- Take a record that verifies, unless the identity has said something as
fresh or is new to a full store. -/
def admitRecord (h : Hints) (record : PeerRecord) (pinned : Bool) :
    Hints × Except HintRefusal Admitted :=
  match record.validate with
  | .error error => (h, .error (.inadmissible error))
  | .ok () =>
    match record.verifySignature with
    | .error error => (h, .error (.badSignature error))
    | .ok () =>
      match h.held.get? record.identity with
      | some entry =>
        if entry.record.seq = record.seq ∧ entry.record = record then
          let held := h.held.insert record.identity
            { entry with pinned := entry.pinned || pinned }
          ({ h with held }, .ok .duplicate)
        else if record.seq ≤ entry.record.seq then
          (h, .error (.stale record.seq entry.record.seq))
        else
          let byId := (h.byId.remove entry.record.id).insert record.id record.identity
          let held := h.held.insert record.identity
            { record, pinned := entry.pinned || pinned }
          ({ held, byId }, .ok .taken)
      | none =>
        if pinned = false ∧ MAX_HINTS ≤ h.unpinned then (h, .error .full)
        else
          ({ held := h.held.insert record.identity { record, pinned }
             byId := h.byId.insert record.id record.identity }, .ok .taken)

def insert (h : Hints) (record : PeerRecord) : Hints × Except HintRefusal Admitted :=
  h.admitRecord record false

def pin (h : Hints) (record : PeerRecord) : Hints × Except HintRefusal Admitted :=
  h.admitRecord record true

def ids (h : Hints) : List String := h.byId.keys

/-- The store as the text it is compared by. -/
def inventory (h : Hints) : Value := .array (h.byId.keys.map Value.string)

def digest (h : Hints) : String := h.inventory.digest

def missingFrom (h : Hints) (offered : List String) : List String :=
  offered.filter fun id => !h.byId.containsKey id

def serve (h : Hints) (ids : List String) (limits : PeerHintLimits) : List PeerRecord :=
  ((ids.filterMap fun id => h.byId.get? id).filterMap fun identity =>
    (h.held.get? identity).map Entry.record).take limits.maxRecordsPerMessage

end Hints

/-- One record from a peer: dropped unless it was asked for. -/
def ingestHint (wanted : Finset String) (state : Hints × PeersReport) (record : PeerRecord) :
    Hints × PeersReport :=
  if record.id ∉ wanted then (state.1, { state.2 with refused := state.2.refused + 1 })
  else
    match state.1.insert record with
    | (h, .ok .taken) => (h, { state.2 with accepted := state.2.accepted + 1 })
    | (h, .ok .duplicate) => (h, { state.2 with duplicates := state.2.duplicates + 1 })
    | (h, .error _) => (h, { state.2 with refused := state.2.refused + 1 })

def ingestHints (h : Hints) (wanted : Finset String) (records : List PeerRecord) :
    Hints × PeersReport :=
  records.foldl (ingestHint wanted) (h, .default)

/-- `reconcile`: what either side sends is read off before either takes
anything. -/
def Hints.reconcile (a b : Hints) (limits : PeerHintLimits) :
    (Hints × Hints) × (PeersReport × PeersReport) :=
  if a.digest = b.digest then ((a, b), (.default, .default))
  else
    let wantA := a.missingFrom b.ids
    let wantB := b.missingFrom a.ids
    let toA := b.serve wantA limits
    let toB := a.serve wantB limits
    let a' := ingestHints a wantA.toFinset toA
    let b' := ingestHints b wantB.toFinset toB
    ((a'.1, b'.1), (a'.2, b'.2))

namespace Hints

/-! ## What an offer does -/

def offer (h : Hints) (o : Offer) : Hints := (h.admitRecord o.record o.pinned).1

def run (offers : List Offer) : Hints := offers.foldl offer new

/-- The store takes no new identity. -/
def Closed (h : Hints) (o : Offer) : Prop :=
  h.held.get? o.record.identity = none ∧ o.pinned = false ∧ MAX_HINTS ≤ h.unpinned

/-- What an admissible offer does to the store. -/
inductive OfferStep (h : Hints) (o : Offer) : Hints → Prop where
  | refused (reason : ¬Admissible o.record ∨ h.Closed o) : OfferStep h o h
  /-- The record is held already; pinning it counts. -/
  | known {entry : Entry} {pinned : Bool} (admissible : Admissible o.record)
      (held : h.held.get? o.record.identity = some entry) (same : entry.record = o.record)
      (pins : entry.pinned = true → pinned = true) :
      OfferStep h o { h with held := h.held.insert o.record.identity ⟨entry.record, pinned⟩ }
  /-- Something as fresh is held. -/
  | stale {entry : Entry} (admissible : Admissible o.record)
      (held : h.held.get? o.record.identity = some entry)
      (fresh : rank o.record ≤ rank entry.record) : OfferStep h o h
  /-- It takes the place of an older one. -/
  | replaced {entry : Entry} {pinned : Bool} (admissible : Admissible o.record)
      (held : h.held.get? o.record.identity = some entry)
      (older : rank entry.record < rank o.record) (pins : entry.pinned = true → pinned = true) :
      OfferStep h o
        { held := h.held.insert o.record.identity ⟨o.record, pinned⟩
          byId := (h.byId.remove entry.record.id).insert o.record.id o.record.identity }
  /-- It is the first of its identity. -/
  | added (admissible : Admissible o.record) (free : h.held.get? o.record.identity = none)
      (room : o.pinned = false → h.unpinned < MAX_HINTS) :
      OfferStep h o
        { held := h.held.insert o.record.identity ⟨o.record, o.pinned⟩
          byId := h.byId.insert o.record.id o.record.identity }

theorem offer_step (h : Hints) (o : Offer) : OfferStep h o (h.offer o) := by
  unfold offer admitRecord
  cases hvalid : o.record.validate with
  | error error => exact .refused (.inl fun hadm => by rw [hadm.1] at hvalid; cases hvalid)
  | ok u =>
    dsimp only
    cases hsigned : o.record.verifySignature with
    | error error => exact .refused (.inl fun hadm => by rw [hadm.2] at hsigned; cases hsigned)
    | ok u' =>
      have hadm : Admissible o.record := ⟨hvalid, hsigned⟩
      dsimp only
      cases hheld : h.held.get? o.record.identity with
      | some entry =>
        dsimp only
        split
        · rename_i hsame
          exact .known hadm hheld hsame.2 fun hp => by rw [hp, Bool.true_or]
        · split
          · rename_i hstale
            exact .stale hadm hheld (UInt64.le_iff_toNat_le.mp hstale)
          · rename_i hfresh
            refine .replaced hadm hheld ?_ fun hp => by rw [hp, Bool.true_or]
            rw [UInt64.le_iff_toNat_le] at hfresh
            exact not_le.mp hfresh
      | none =>
        dsimp only
        split
        · rename_i hfull
          exact .refused (.inr ⟨hheld, hfull.1, hfull.2⟩)
        · rename_i hroom
          exact .added hadm hheld fun hp => not_le.mp fun hle => hroom ⟨hp, hle⟩

/-- An offer moves the record of its own identity, and no other. -/
theorem recordOf_offer (h : Hints) (o : Offer) (hopen : Admissible o.record → ¬h.Closed o)
    (identity : String) :
    (h.offer o).recordOf identity = (said [o] identity).foldl (fresher rank) (h.recordOf identity) := by
  have hsaid : said [o] identity =
      if Admissible o.record ∧ o.record.identity = identity then [o.record] else [] := by
    unfold said
    rw [List.map_singleton, List.filter_cons, List.filter_nil]
    simp
  rw [hsaid]
  have hstep := h.offer_step o
  generalize h.offer o = h' at hstep
  cases hstep with
  | refused reason =>
    rw [if_neg fun hadm => reason.elim (fun hnot => hnot hadm.1) (hopen hadm.1)]
    rfl
  | @known entry pinned admissible held same pins =>
    unfold recordOf
    rw [BTreeMap.get?_insert]
    by_cases hid : o.record.identity = identity
    · rw [if_pos hid.symm, if_pos ⟨admissible, hid⟩, ← hid, held, List.foldl_cons,
        List.foldl_nil, Option.map_some, Option.map_some, same, fresher_self]
    · rw [if_neg (Ne.symm hid), if_neg fun hadm => hid hadm.2]
      rfl
  | @stale entry admissible held fresh =>
    by_cases hid : o.record.identity = identity
    · rw [if_pos ⟨admissible, hid⟩, List.foldl_cons, List.foldl_nil, ← hid, recordOf, held]
      exact (if_neg (not_lt.mpr fresh)).symm
    · rw [if_neg fun hadm => hid hadm.2]
      rfl
  | @replaced entry pinned admissible held older pins =>
    unfold recordOf
    rw [BTreeMap.get?_insert]
    by_cases hid : o.record.identity = identity
    · rw [if_pos hid.symm, if_pos ⟨admissible, hid⟩, ← hid, held]
      exact (if_pos older).symm
    · rw [if_neg (Ne.symm hid), if_neg fun hadm => hid hadm.2]
      rfl
  | added admissible free room =>
    unfold recordOf
    rw [BTreeMap.get?_insert]
    by_cases hid : o.record.identity = identity
    · rw [if_pos hid.symm, if_pos ⟨admissible, hid⟩, ← hid, free]
      rfl
    · rw [if_neg (Ne.symm hid), if_neg fun hadm => hid hadm.2]
      rfl

/-! ## Room -/

/-- The identities that are spoken for. -/
def identities (offers : List Offer) : Finset String :=
  (((offers.map Offer.record).filter fun record => decide (Admissible record)).map
    PeerRecord.identity).toFinset

variable {identity : String} {offers offersA offersB : List Offer} {h a b : Hints}
  {record : PeerRecord} {limits : PeerHintLimits}

omit [Sha256] in
theorem mem_identities :
    identity ∈ identities offers ↔
      ∃ o ∈ offers, Admissible o.record ∧ o.record.identity = identity := by
  simp [identities, and_assoc]

theorem run_concat (offers : List Offer) (o : Offer) :
    run (offers ++ [o]) = (run offers).offer o := by
  rw [run, List.foldl_append]
  rfl

/-- While there is room, the store holds the freshest record of each identity. -/
theorem recordOf_run (offers : List Offer) (hfits : (identities offers).card ≤ MAX_HINTS)
    (identity : String) :
    (run offers).recordOf identity = freshest rank (said offers identity) := by
  induction offers using List.reverseRecOn generalizing identity with
  | nil => rfl
  | append_singleton offers o ih =>
    have hsub : identities offers ⊆ identities (offers ++ [o]) := by
      intro i hi
      rw [mem_identities] at hi ⊢
      rcases hi with ⟨p, hp, hrest⟩
      exact ⟨p, List.mem_append_left _ hp, hrest⟩
    have hbefore := ih ((Finset.card_le_card hsub).trans hfits)
    have hopen : Admissible o.record → ¬(run offers).Closed o := by
      rintro hadm ⟨hfree, -, hfull⟩
      have hnew : o.record.identity ∉ (run offers).held.keys.toFinset := by
        rw [List.mem_toFinset, BTreeMap.mem_keys]
        rintro ⟨entry, hentry⟩
        rw [hfree] at hentry
        cases hentry
      have hin : Insert.insert o.record.identity (run offers).held.keys.toFinset ⊆
          identities (offers ++ [o]) := by
        rw [Finset.insert_subset_iff]
        refine ⟨mem_identities.mpr ⟨o, by simp, hadm, rfl⟩, fun i hi => hsub ?_⟩
        rw [List.mem_toFinset, mem_keys_held] at hi
        rcases hi with ⟨record, hrecord⟩
        rw [hbefore] at hrecord
        rcases mem_said.mp (freshest_spec hrecord).1 with ⟨⟨p, hp, rfl⟩, hadm, hid⟩
        exact mem_identities.mpr ⟨p, hp, hadm, hid⟩
      have hcard := Finset.card_le_card hin
      rw [Finset.card_insert_of_notMem hnew] at hcard
      have hle := (run offers).unpinned_le
      omega
    rw [run_concat, recordOf_offer _ _ hopen, hbefore, said_append, freshest, freshest,
      List.foldl_append]

/-! ## What every store keeps -/

/-- The two maps are one: the index lists the ids of the records that are held,
and what is held was admissible and is within the cap. -/
structure Sound (h : Hints) : Prop where
  keyed : ∀ {identity record}, h.recordOf identity = some record →
    record.identity = identity ∧ Admissible record
  inverse : ∀ {id identity}, h.byId.get? id = some identity ↔
    ∃ record, h.recordOf identity = some record ∧ record.id = id
  bounded : h.unpinned ≤ MAX_HINTS

theorem sound_new : Sound new where
  keyed := fun h => by cases h
  inverse := by
    intro id identity
    constructor
    · intro h
      cases h
    · rintro ⟨record, h, -⟩
      cases h
  bounded := Nat.zero_le _

/-- A store stays sound if the offer's id tells its record from the held ones. -/
theorem Sound.offer (hs : h.Sound) (o : Offer)
    (hid : Admissible o.record → ∀ identity record, h.recordOf identity = some record →
      record.id = o.record.id → record = o.record) : (h.offer o).Sound := by
  have hstep := h.offer_step o
  generalize h.offer o = h' at hstep
  cases hstep with
  | refused reason => exact hs
  | stale admissible held fresh => exact hs
  | @known entry pinned admissible held same pins =>
    have hsame : ∀ identity, recordOf { h with
        held := h.held.insert o.record.identity ⟨entry.record, pinned⟩ } identity =
        h.recordOf identity := by
      intro identity
      rw [recordOf_insert]
      split_ifs with hk
      · rw [hk, recordOf, held]
        rfl
      · rfl
    refine ⟨fun hrecord => hs.keyed (hsame _ ▸ hrecord), ?_, ?_⟩
    · intro id identity
      rw [hsame]
      exact hs.inverse
    · rw [unpinned_insert]
      have hcap := hs.bounded
      rw [unpinned_of_get? held] at hcap
      exact (Nat.add_le_add_left (weight_le pins) _).trans hcap
  | @replaced entry pinned admissible held older pins =>
    have hheld : h.recordOf o.record.identity = some entry.record := by rw [recordOf, held]; rfl
    refine ⟨?_, ?_, ?_⟩
    · intro identity record hrecord
      rw [recordOf_insert] at hrecord
      split_ifs at hrecord with hk
      · cases hrecord
        exact ⟨hk.symm, admissible⟩
      · exact hs.keyed hrecord
    · intro id identity
      rw [recordOf_insert, BTreeMap.get?_insert, BTreeMap.get?_remove]
      constructor
      · intro hfound
        split_ifs at hfound with hnew hold
        · cases hfound
          exact ⟨o.record, by rw [if_pos rfl], hnew.symm⟩
        · rcases hs.inverse.mp hfound with ⟨record, hrecord, hrid⟩
          have hne : identity ≠ o.record.identity := by
            rintro rfl
            rw [hheld] at hrecord
            cases hrecord
            exact hold hrid.symm
          exact ⟨record, by rw [if_neg hne]; exact hrecord, hrid⟩
      · rintro ⟨record, hrecord, hrid⟩
        split_ifs at hrecord with hk
        · cases hrecord
          rw [if_pos hrid.symm, hk]
        · have hother : id ≠ o.record.id := by
            rintro rfl
            rw [hid admissible _ _ hrecord hrid] at hrecord
            exact hk (hs.keyed hrecord).1.symm
          have hkept : id ≠ entry.record.id := by
            rintro rfl
            have hsame := hs.inverse.mpr ⟨_, hheld, rfl⟩
            rw [hs.inverse.mpr ⟨record, hrecord, hrid⟩] at hsame
            exact hk (Option.some.inj hsame)
          rw [if_neg hother, if_neg hkept]
          exact hs.inverse.mpr ⟨record, hrecord, hrid⟩
    · rw [unpinned_insert]
      have hcap := hs.bounded
      rw [unpinned_of_get? held] at hcap
      exact (Nat.add_le_add_left (weight_le pins) _).trans hcap
  | added admissible free room =>
    have hfree : h.recordOf o.record.identity = none := by rw [recordOf, free]; rfl
    refine ⟨?_, ?_, ?_⟩
    · intro identity record hrecord
      rw [recordOf_insert] at hrecord
      split_ifs at hrecord with hk
      · cases hrecord
        exact ⟨hk.symm, admissible⟩
      · exact hs.keyed hrecord
    · intro id identity
      rw [recordOf_insert, BTreeMap.get?_insert]
      constructor
      · intro hfound
        split_ifs at hfound with hnew
        · cases hfound
          exact ⟨o.record, by rw [if_pos rfl], hnew.symm⟩
        · rcases hs.inverse.mp hfound with ⟨record, hrecord, hrid⟩
          have hne : identity ≠ o.record.identity := by
            rintro rfl
            rw [hfree] at hrecord
            cases hrecord
          exact ⟨record, by rw [if_neg hne]; exact hrecord, hrid⟩
      · rintro ⟨record, hrecord, hrid⟩
        split_ifs at hrecord with hk
        · cases hrecord
          rw [if_pos hrid.symm, hk]
        · have hother : id ≠ o.record.id := by
            rintro rfl
            rw [hid admissible _ _ hrecord hrid] at hrecord
            exact hk (hs.keyed hrecord).1.symm
          rw [if_neg hother]
          exact hs.inverse.mpr ⟨record, hrecord, hrid⟩
    · rw [unpinned_insert, ← unpinned_of_none free]
      unfold Entry.weight
      dsimp only
      cases hp : o.pinned with
      | true => exact hs.bounded
      | false => exact room hp

/-- An identity's record only gives way to a fresher one. -/
theorem rank_le_offer (o : Offer) (hheld : h.recordOf identity = some record) :
    ∃ later, (h.offer o).recordOf identity = some later ∧ rank record ≤ rank later := by
  have hstep := h.offer_step o
  generalize h.offer o = h' at hstep
  cases hstep with
  | refused reason => exact ⟨record, hheld, le_rfl⟩
  | stale admissible held fresh => exact ⟨record, hheld, le_rfl⟩
  | @known entry pinned admissible held same pins =>
    rw [recordOf_insert]
    split_ifs with hk
    · rw [hk, recordOf, held] at hheld
      exact ⟨entry.record, rfl, le_of_eq (congrArg rank (Option.some.inj hheld).symm)⟩
    · exact ⟨record, hheld, le_rfl⟩
  | @replaced entry pinned admissible held older pins =>
    rw [recordOf_insert]
    split_ifs with hk
    · rw [hk, recordOf, held] at hheld
      rw [← Option.some.inj hheld]
      exact ⟨o.record, rfl, older.le⟩
    · exact ⟨record, hheld, le_rfl⟩
  | added admissible free room =>
    rw [recordOf_insert]
    split_ifs with hk
    · rw [hk, recordOf, free] at hheld
      cases hheld
    · exact ⟨record, hheld, le_rfl⟩

theorem rank_le_foldl (offers : List Offer) (hheld : h.recordOf identity = some record) :
    ∃ later, (offers.foldl offer h).recordOf identity = some later ∧ rank record ≤ rank later := by
  induction offers generalizing h record with
  | nil => exact ⟨record, hheld, le_rfl⟩
  | cons o offers ih =>
    rcases rank_le_offer o hheld with ⟨next, hnext, hle⟩
    rcases ih hnext with ⟨later, hlater, hle'⟩
    exact ⟨later, hlater, hle.trans hle'⟩

/-- What is held was offered. -/
theorem mem_of_recordOf (h : (run offers).recordOf identity = some record) :
    ∃ o ∈ offers, o.record = record := by
  induction offers using List.reverseRecOn with
  | nil => cases h
  | append_singleton offers o ih =>
    have hold : (run offers).recordOf identity = some record →
        ∃ p ∈ offers ++ [o], p.record = record := by
      intro hheld
      rcases ih hheld with ⟨p, hp, hrecord⟩
      exact ⟨p, List.mem_append_left _ hp, hrecord⟩
    have hnew : ∀ {r : PeerRecord}, some r = some record → r = o.record →
        ∃ p ∈ offers ++ [o], p.record = record := by
      intro r hr hro
      exact ⟨o, by simp, by rw [← hro, Option.some.inj hr]⟩
    rw [run_concat] at h
    have hstep := (run offers).offer_step o
    generalize (run offers).offer o = h' at hstep h
    cases hstep with
    | refused reason => exact hold h
    | stale admissible held fresh => exact hold h
    | known admissible held same pins =>
      rw [recordOf_insert] at h
      split_ifs at h
      · exact hnew h same
      · exact hold h
    | replaced admissible held older pins =>
      rw [recordOf_insert] at h
      split_ifs at h
      · exact hnew h rfl
      · exact hold h
    | added admissible free room =>
      rw [recordOf_insert] at h
      split_ifs at h
      · exact hnew h rfl
      · exact hold h

/-- The texts of the records that are offered. -/
def RecordTexts (offers : List Offer) (text : String) : Prop :=
  ∃ o ∈ offers, text = o.record.toValue.canonicalString

/-- Admissible records are told apart by their ids. -/
theorem eq_of_id (hcol : NoCollision (RecordTexts offers)) {r r' : PeerRecord}
    (hr : ∃ o ∈ offers, o.record = r) (hr' : ∃ o ∈ offers, o.record = r') (hadm : Admissible r)
    (hadm' : Admissible r') (h : r.id = r'.id) : r = r' := by
  rcases hr with ⟨o, ho, rfl⟩
  rcases hr' with ⟨o', ho', rfl⟩
  have hvalue : o.record.toValue = o'.record.toValue :=
    Value.canonicalString_injective (hcol _ _ ⟨o, ho, rfl⟩ ⟨o', ho', rfl⟩ h)
  have hdecode := PeerRecord.fromValue_toValue o.record
  rw [hvalue, PeerRecord.fromValue_toValue, hadm.1, hadm'.1] at hdecode
  exact (Except.ok.inj hdecode).symm

theorem sound_run (hcol : NoCollision (RecordTexts offers)) : (run offers).Sound := by
  induction offers using List.reverseRecOn with
  | nil => exact sound_new
  | append_singleton offers o ih =>
    have hbefore : (run offers).Sound := by
      apply ih
      apply hcol.mono
      rintro text ⟨p, hp, htext⟩
      exact ⟨p, List.mem_append_left _ hp, htext⟩
    rw [run_concat]
    apply hbefore.offer o
    intro hadm identity record hheld hid
    rcases mem_of_recordOf hheld with ⟨p, hp, hrecord⟩
    exact eq_of_id hcol ⟨p, List.mem_append_left _ hp, hrecord⟩ ⟨o, by simp, rfl⟩
      (hbefore.keyed hheld).2 hadm hid

/-! ## An exchange -/

/-- The calls an ingest makes. -/
def asked (wanted : Finset String) (records : List PeerRecord) : List Offer :=
  (records.filter fun record => record.id ∈ wanted).map fun record => ⟨record, false⟩

theorem ingestHints_fst (wanted : Finset String) (records : List PeerRecord) (h : Hints)
    (report : PeersReport) :
    (records.foldl (ingestHint wanted) (h, report)).1 = (asked wanted records).foldl offer h := by
  induction records generalizing h report with
  | nil => rfl
  | cons record records ih =>
    have hstep : (ingestHint wanted (h, report) record).1 =
        if record.id ∈ wanted then h.offer ⟨record, false⟩ else h := by
      unfold ingestHint offer insert
      by_cases hin : record.id ∈ wanted
      · rw [if_neg (not_not.mpr hin), if_pos hin]
        generalize h.admitRecord record false = res
        rcases res with ⟨h', _ | (_ | _)⟩ <;> rfl
      · rw [if_pos hin, if_neg hin]
    rw [List.foldl_cons, ← Prod.mk.eta (p := ingestHint wanted (h, report) record), ih, hstep]
    unfold asked
    by_cases hin : record.id ∈ wanted
    · rw [if_pos hin, List.filter_cons, if_pos (decide_eq_true hin)]
      rfl
    · rw [if_neg hin, List.filter_cons, if_neg (by simpa using hin)]

theorem foldl_offer (offers more : List Offer) :
    more.foldl offer (run offers) = run (offers ++ more) := by
  rw [run, run, List.foldl_append]

/-- There are no more ids than identities. -/
theorem length_ids_le (hs : h.Sound) : h.ids.length ≤ h.held.keys.toFinset.card := by
  have hsub : h.byId.keys.toFinset ⊆
      h.held.keys.toFinset.image fun identity => ((h.recordOf identity).map PeerRecord.id).getD "" := by
    intro id hid
    rw [List.mem_toFinset, BTreeMap.mem_keys] at hid
    rcases hid with ⟨identity, hidentity⟩
    rcases hs.inverse.mp hidentity with ⟨record, hrecord, rfl⟩
    rw [Finset.mem_image]
    refine ⟨identity, List.mem_toFinset.mpr (mem_keys_held.mpr ⟨record, hrecord⟩), ?_⟩
    rw [hrecord]
    rfl
  calc h.ids.length = h.byId.keys.toFinset.card :=
        (List.toFinset_card_of_nodup h.byId.nodup_keys).symm
    _ ≤ _ := Finset.card_le_card hsub
    _ ≤ h.held.keys.toFinset.card := Finset.card_image_le

/-- What is served of the ids that are asked for: the records held under them,
where the limit leaves them all. -/
theorem mem_serve (hs : h.Sound) {ids : List String}
    (hlimit : ids.length ≤ limits.maxRecordsPerMessage) :
    record ∈ h.serve ids limits ↔
      record.id ∈ ids ∧ h.recordOf record.identity = some record := by
  have hlength : ((ids.filterMap fun id => h.byId.get? id).filterMap fun identity =>
      (h.held.get? identity).map Entry.record).length ≤ limits.maxRecordsPerMessage :=
    ((List.length_filterMap_le _ _).trans (List.length_filterMap_le _ _)).trans hlimit
  unfold serve
  rw [List.take_of_length_le hlength, List.mem_filterMap]
  constructor
  · rintro ⟨identity, hidentity, hrecord⟩
    rcases List.mem_filterMap.mp hidentity with ⟨id, hid, hfound⟩
    rcases hs.inverse.mp hfound with ⟨record', hheld, rfl⟩
    rw [show h.recordOf identity = some record from hrecord] at hheld
    cases hheld
    rw [(hs.keyed hrecord).1]
    exact ⟨hid, hrecord⟩
  · rintro ⟨hid, hheld⟩
    exact ⟨record.identity, List.mem_filterMap.mpr ⟨_, hid, hs.inverse.mpr ⟨record, hheld, rfl⟩⟩,
      hheld⟩

/-- The calls by which one store takes over what another one has. -/
def catchUp (a b : Hints) (limits : PeerHintLimits) : List Offer :=
  asked (a.missingFrom b.ids).toFinset (b.serve (a.missingFrom b.ids) limits)

theorem reconcile_fst (h : a.digest ≠ b.digest) :
    (a.reconcile b limits).1 =
      ((catchUp a b limits).foldl offer a, (catchUp b a limits).foldl offer b) := by
  unfold reconcile ingestHints
  rw [if_neg h]
  dsimp only
  rw [ingestHints_fst, ingestHints_fst]
  rfl

theorem mem_catchUp (hb : b.Sound) (hlimit : b.ids.length ≤ limits.maxRecordsPerMessage) {o : Offer} :
    o ∈ catchUp a b limits ↔ o.pinned = false ∧
      b.recordOf o.record.identity = some o.record ∧ a.byId.get? o.record.id = none := by
  have hmissing : ∀ id, id ∈ a.missingFrom b.ids ↔ id ∈ b.ids ∧ a.byId.get? id = none := by
    intro id
    simp [missingFrom, BTreeMap.containsKey]
  have hserved : (a.missingFrom b.ids).length ≤ limits.maxRecordsPerMessage :=
    (List.length_filter_le _ _).trans hlimit
  unfold catchUp asked
  rw [List.mem_map]
  constructor
  · rintro ⟨record, hrecord, rfl⟩
    rw [List.mem_filter, mem_serve hb hserved] at hrecord
    exact ⟨rfl, hrecord.1.2, ((hmissing _).mp hrecord.1.1).2⟩
  · rintro ⟨hpinned, hheld, hlacks⟩
    have hid : o.record.id ∈ a.missingFrom b.ids := by
      rw [hmissing]
      exact ⟨BTreeMap.mem_keys.mpr ⟨_, hb.inverse.mpr ⟨o.record, hheld, rfl⟩⟩, hlacks⟩
    refine ⟨o.record, ?_, by rw [← hpinned]⟩
    rw [List.mem_filter, mem_serve hb hserved]
    exact ⟨⟨hid, hheld⟩, decide_eq_true (List.mem_toFinset.mpr hid)⟩

/-- What is taken over of an identity: the record the other store holds, if it
is news. -/
theorem mem_said_catchUp (a : Hints) (hb : b.Sound)
    (hlimit : b.ids.length ≤ limits.maxRecordsPerMessage) (identity : String) (record : PeerRecord) :
    record ∈ said (catchUp a b limits) identity ↔
      b.recordOf identity = some record ∧ a.byId.get? record.id = none := by
  rw [mem_said]
  constructor
  · rintro ⟨⟨o, ho, rfl⟩, -, hid⟩
    rw [mem_catchUp hb hlimit, hid] at ho
    exact ho.2
  · rintro ⟨hheld, hlacks⟩
    have hkeyed := hb.keyed hheld
    refine ⟨⟨⟨record, false⟩, (mem_catchUp hb hlimit).mpr ⟨rfl, ?_, hlacks⟩, rfl⟩, hkeyed.2,
      hkeyed.1⟩
    rw [hkeyed.1]
    exact hheld

/-! ## Stores that meet -/

/-- No identity says two things under one `seq`. -/
def OneVoice (offers : List Offer) : Prop :=
  ∀ o ∈ offers, ∀ o' ∈ offers, Admissible o.record → Admissible o'.record →
    o.record.identity = o'.record.identity → o.record.seq = o'.record.seq → o.record = o'.record

omit [Sha256] in
theorem OneVoice.apart (h : OneVoice offers) (identity : String) :
    RanksApart rank (said offers identity) := by
  intro r hr r' hr' hrank
  rcases mem_said.mp hr with ⟨⟨o, ho, rfl⟩, hadm, hid⟩
  rcases mem_said.mp hr' with ⟨⟨o', ho', rfl⟩, hadm', hid'⟩
  exact h o ho o' ho' hadm hadm' (hid.trans hid'.symm) (UInt64.toNat_inj.mp hrank)

omit [Sha256] in
theorem identities_mono {offers' : List Offer} (h : ∀ o ∈ offers, ∃ o' ∈ offers',
    o'.record = o.record) : identities offers ⊆ identities offers' := by
  intro identity hin
  rw [mem_identities] at hin ⊢
  rcases hin with ⟨o, ho, hadm, hid⟩
  rcases h o ho with ⟨o', ho', hsame⟩
  exact ⟨o', ho', hsame ▸ hadm, hsame ▸ hid⟩

/-- A store holds no more identities than were spoken for. -/
theorem length_ids_run_le (hs : (run offers).Sound) :
    (run offers).ids.length ≤ (identities offers).card := by
  refine (length_ids_le hs).trans (Finset.card_le_card ?_)
  intro identity hin
  rw [List.mem_toFinset, mem_keys_held] at hin
  rcases hin with ⟨record, hrecord⟩
  rcases mem_of_recordOf hrecord with ⟨o, ho, rfl⟩
  exact mem_identities.mpr ⟨o, ho, (hs.keyed hrecord).2, (hs.keyed hrecord).1⟩

/-- After it has caught up, a store holds what it would hold had it heard
everything both have heard. -/
theorem recordOf_catchUp (hcol : NoCollision (RecordTexts (offersA ++ offersB)))
    (hvoice : OneVoice (offersA ++ offersB))
    (hfits : (identities (offersA ++ offersB)).card ≤ MAX_HINTS)
    (hlimit : (identities (offersA ++ offersB)).card ≤ limits.maxRecordsPerMessage)
    (identity : String) :
    (run (offersA ++ catchUp (run offersA) (run offersB) limits)).recordOf identity =
      freshest rank (said (offersA ++ offersB) identity) := by
  have hsubA : identities offersA ⊆ identities (offersA ++ offersB) :=
    identities_mono fun o ho => ⟨o, List.mem_append_left _ ho, rfl⟩
  have hsubB : identities offersB ⊆ identities (offersA ++ offersB) :=
    identities_mono fun o ho => ⟨o, List.mem_append_right _ ho, rfl⟩
  have hA : (run offersA).Sound := sound_run (hcol.mono fun text ⟨o, ho, htext⟩ =>
    ⟨o, List.mem_append_left _ ho, htext⟩)
  have hB : (run offersB).Sound := sound_run (hcol.mono fun text ⟨o, ho, htext⟩ =>
    ⟨o, List.mem_append_right _ ho, htext⟩)
  have hidsB : (run offersB).ids.length ≤ limits.maxRecordsPerMessage :=
    (length_ids_run_le hB).trans ((Finset.card_le_card hsubB).trans hlimit)
  have hheard : identities (offersA ++ catchUp (run offersA) (run offersB) limits) ⊆
      identities (offersA ++ offersB) := by
    apply identities_mono
    intro o ho
    rcases List.mem_append.mp ho with ho | ho
    · exact ⟨o, List.mem_append_left _ ho, rfl⟩
    · rcases mem_of_recordOf ((mem_catchUp hB hidsB).mp ho).2.1 with ⟨p, hp, hrecord⟩
      exact ⟨p, List.mem_append_right _ hp, hrecord⟩
  have hheldA := recordOf_run offersA ((Finset.card_le_card hsubA).trans hfits) identity
  have hheldB := recordOf_run offersB ((Finset.card_le_card hsubB).trans hfits) identity
  have hapart := hvoice.apart identity
  rw [said_append] at hapart
  rw [recordOf_run _ ((Finset.card_le_card hheard).trans hfits), said_append, said_append]
  have hnews := mem_said_catchUp (run offersA) hB hidsB identity
  cases hother : (run offersB).recordOf identity with
  | none =>
    have hnone : said (catchUp (run offersA) (run offersB) limits) identity = [] := by
      rw [List.eq_nil_iff_forall_not_mem]
      intro record hin
      rw [hnews, hother] at hin
      cases hin.1
    rw [hother] at hheldB
    rw [hnone, freshest_eq_none.mp hheldB.symm]
  | some record =>
    rw [hother] at hheldB
    rw [← fresher_freshest hapart hheldB.symm]
    cases hindex : (run offersA).byId.get? record.id with
    | some owner =>
      -- it is held already
      rcases hA.inverse.mp hindex with ⟨record', hrecord', hid⟩
      have hsame : record' = record := by
        rcases mem_of_recordOf hrecord' with ⟨o, ho, hrecord⟩
        rcases mem_of_recordOf hother with ⟨p, hp, hrecord⟩
        exact eq_of_id hcol ⟨o, List.mem_append_left _ ho, by assumption⟩
          ⟨p, List.mem_append_right _ hp, hrecord⟩ (hA.keyed hrecord').2 (hB.keyed hother).2 hid
      have howner : owner = identity := by
        rw [← (hA.keyed hrecord').1, hsame, (hB.keyed hother).1]
      have hnone : said (catchUp (run offersA) (run offersB) limits) identity = [] := by
        rw [List.eq_nil_iff_forall_not_mem]
        intro r hin
        rw [hnews, hother] at hin
        rcases hin with ⟨hr, hlacks⟩
        rw [← Option.some.inj hr, hindex] at hlacks
        cases hlacks
      rw [howner, hsame, hheldA] at hrecord'
      rw [hnone, List.append_nil, hrecord', fresher_self]
    | none =>
      have hone : ∀ r, r ∈ said (catchUp (run offersA) (run offersB) limits) identity ↔
          r ∈ [record] := by
        intro r
        rw [hnews, hother, List.mem_singleton]
        constructor
        · rintro ⟨hr, -⟩
          exact (Option.some.inj hr).symm
        · rintro rfl
          exact ⟨rfl, hindex⟩
      rw [← freshest_concat]
      apply freshest_congr
      · apply hapart.mono
        intro r hr
        rcases List.mem_append.mp hr with hr | hr
        · exact List.mem_append_left _ hr
        · rw [(List.mem_singleton.mp ((hone r).mp hr))]
          exact List.mem_append_right _ (freshest_spec hheldB.symm).1
      · intro r
        rw [List.mem_append, List.mem_append, hone]

omit [Sha256] in
theorem OneVoice.symm (h : OneVoice (offersA ++ offersB)) : OneVoice (offersB ++ offersA) :=
  fun o ho o' ho' => h o (List.mem_append.mpr (List.mem_append.mp ho).symm) o'
    (List.mem_append.mpr (List.mem_append.mp ho').symm)

omit [Sha256] in
theorem identities_comm (offersA offersB : List Offer) :
    identities (offersB ++ offersA) = identities (offersA ++ offersB) := by
  ext identity
  simp only [mem_identities, List.mem_append, or_comm]

/-- Two stores that hold the same records have one index. -/
theorem byId_eq (ha : a.Sound) (hb : b.Sound)
    (h : ∀ identity, a.recordOf identity = b.recordOf identity) : a.byId = b.byId := by
  apply BTreeMap.ext_get?
  intro id
  apply Option.ext
  intro identity
  rw [ha.inverse, hb.inverse, h]

/-- The texts of an exchange: the records, and the two inventories. -/
def ExchangeTexts (offersA offersB : List Offer) (text : String) : Prop :=
  RecordTexts (offersA ++ offersB) text ∨
    text = (run offersA).inventory.canonicalString ∨ text = (run offersB).inventory.canonicalString

theorem keys_eq_of_digest (hcol : NoCollision (ExchangeTexts offersA offersB))
    (h : (run offersA).digest = (run offersB).digest) :
    (run offersA).byId.keys = (run offersB).byId.keys := by
  have hsame : (run offersA).inventory = (run offersB).inventory :=
    Value.canonicalString_injective (hcol _ _ (.inr (.inl rfl)) (.inr (.inr rfl)) h)
  have hitems := congrArg Value.asArray hsame
  unfold inventory at hitems
  rw [Value.asArray_array, Value.asArray_array] at hitems
  exact List.map_injective_iff.mpr (fun _ _ => Value.string_inj.mp) (Option.some.inj hitems)

/-- A record of one store whose id the other one lists is held by both. -/
theorem recordOf_of_mem_ids (hcol : NoCollision (RecordTexts (offersA ++ offersB)))
    (hA : (run offersA).Sound) (hB : (run offersB).Sound)
    (hheld : (run offersA).recordOf identity = some record)
    (hlisted : record.id ∈ (run offersB).byId.keys) :
    (run offersB).recordOf identity = some record := by
  rcases BTreeMap.mem_keys.mp hlisted with ⟨owner, howner⟩
  rcases hB.inverse.mp howner with ⟨record', hrecord', hid⟩
  rcases mem_of_recordOf hheld with ⟨o, ho, ho'⟩
  rcases mem_of_recordOf hrecord' with ⟨p, hp, hp'⟩
  have hsame : record' = record := eq_of_id hcol ⟨p, List.mem_append_right _ hp, hp'⟩
    ⟨o, List.mem_append_left _ ho, ho'⟩ (hB.keyed hrecord').2 (hA.keyed hheld).2 hid
  rw [hsame] at hrecord'
  rw [← (hA.keyed hheld).1, (hB.keyed hrecord').1]
  exact hrecord'

/-- What a store takes over was offered to the other one. -/
theorem recordTexts_catchUp (hB : (run offersB).Sound)
    (hlimit : (run offersB).ids.length ≤ limits.maxRecordsPerMessage) {text : String}
    (h : RecordTexts (offersA ++ catchUp (run offersA) (run offersB) limits) text) :
    RecordTexts (offersA ++ offersB) text := by
  rcases h with ⟨o, ho, htext⟩
  rcases List.mem_append.mp ho with ho | ho
  · exact ⟨o, List.mem_append_left _ ho, htext⟩
  · rcases mem_of_recordOf ((mem_catchUp hB hlimit).mp ho).2.1 with ⟨p, hp, hrecord⟩
    exact ⟨p, List.mem_append_right _ hp, by rw [hrecord]; exact htext⟩

/-- One exchange makes two stores sound ones with the same records. -/
theorem reconcile_meets (hcol : NoCollision (ExchangeTexts offersA offersB))
    (hvoice : OneVoice (offersA ++ offersB))
    (hfits : (identities (offersA ++ offersB)).card ≤ MAX_HINTS)
    (hlimit : (identities (offersA ++ offersB)).card ≤ limits.maxRecordsPerMessage) :
    ((run offersA).reconcile (run offersB) limits).1.1.Sound ∧
      ((run offersA).reconcile (run offersB) limits).1.2.Sound ∧
      ∀ identity, ((run offersA).reconcile (run offersB) limits).1.1.recordOf identity =
        ((run offersA).reconcile (run offersB) limits).1.2.recordOf identity := by
  have hAB : NoCollision (RecordTexts (offersA ++ offersB)) := hcol.mono fun _ h => .inl h
  have hBA : NoCollision (RecordTexts (offersB ++ offersA)) := hAB.mono fun text ⟨o, ho, htext⟩ =>
    ⟨o, List.mem_append.mpr (List.mem_append.mp ho).symm, htext⟩
  have hA : (run offersA).Sound := sound_run (hAB.mono fun text ⟨o, ho, htext⟩ =>
    ⟨o, List.mem_append_left _ ho, htext⟩)
  have hB : (run offersB).Sound := sound_run (hAB.mono fun text ⟨o, ho, htext⟩ =>
    ⟨o, List.mem_append_right _ ho, htext⟩)
  by_cases hdigest : (run offersA).digest = (run offersB).digest
  · have hsame : (run offersA).reconcile (run offersB) limits =
        ((run offersA, run offersB), (.default, .default)) := if_pos hdigest
    have hkeys := keys_eq_of_digest hcol hdigest
    rw [hsame]
    refine ⟨hA, hB, fun identity => Option.ext fun record => ⟨fun hheld => ?_, fun hheld => ?_⟩⟩
    · apply recordOf_of_mem_ids hAB hA hB hheld
      rw [← hkeys]
      exact BTreeMap.mem_keys.mpr ⟨identity, hA.inverse.mpr ⟨record, hheld, rfl⟩⟩
    · apply recordOf_of_mem_ids hBA hB hA hheld
      rw [hkeys]
      exact BTreeMap.mem_keys.mpr ⟨identity, hB.inverse.mpr ⟨record, hheld, rfl⟩⟩
  · have hsubA : identities offersA ⊆ identities (offersA ++ offersB) :=
      identities_mono fun o ho => ⟨o, List.mem_append_left _ ho, rfl⟩
    have hsubB : identities offersB ⊆ identities (offersA ++ offersB) :=
      identities_mono fun o ho => ⟨o, List.mem_append_right _ ho, rfl⟩
    have hidsA := (length_ids_run_le hA).trans ((Finset.card_le_card hsubA).trans hlimit)
    have hidsB := (length_ids_run_le hB).trans ((Finset.card_le_card hsubB).trans hlimit)
    rw [reconcile_fst hdigest, foldl_offer, foldl_offer]
    refine ⟨sound_run (hAB.mono fun _ => recordTexts_catchUp hB hidsB),
      sound_run (hBA.mono fun _ => recordTexts_catchUp hA hidsA), fun identity => ?_⟩
    rw [← identities_comm] at hfits hlimit
    have hother := recordOf_catchUp hBA hvoice.symm hfits hlimit identity
    rw [identities_comm] at hfits hlimit
    rw [recordOf_catchUp hAB hvoice hfits hlimit identity]
    refine Eq.trans ?_ hother.symm
    apply freshest_congr (hvoice.apart identity)
    intro record
    rw [said_append, said_append, List.mem_append, List.mem_append, or_comm]

/-- Along every run the two maps are one, nothing held gives way to something
older and the cap is kept. Where every identity speaks with one voice and there
is room, the order of the offers does not matter, two stores hold the same
records after one exchange, and the next exchange stops at once. -/
theorem hints_meet (offersA offersB : List Offer)
    (hcol : NoCollision (ExchangeTexts offersA offersB)) :
    (∀ before after, before ++ after = offersA ∨ before ++ after = offersB →
      (run before).Sound ∧ ∀ identity record, (run before).recordOf identity = some record →
        ∃ later, (run (before ++ after)).recordOf identity = some later ∧
          record.seq ≤ later.seq) ∧
    (OneVoice (offersA ++ offersB) → (identities (offersA ++ offersB)).card ≤ MAX_HINTS →
      (∀ offers, offers.Perm offersA → ∀ identity,
        (run offers).recordOf identity = (run offersA).recordOf identity) ∧
      ∀ limits, (identities (offersA ++ offersB)).card ≤ limits.maxRecordsPerMessage →
        let met := (run offersA).reconcile (run offersB) limits
        (∀ identity, met.1.1.recordOf identity = met.1.2.recordOf identity) ∧
          met.1.1.digest = met.1.2.digest ∧
          met.1.1.reconcile met.1.2 limits = (met.1, (.default, .default))) := by
  have hrecords : NoCollision (RecordTexts (offersA ++ offersB)) := hcol.mono fun _ h => .inl h
  have hsound : ∀ before after, before ++ after = offersA ∨ before ++ after = offersB →
      (run before).Sound := by
    intro before after hsplit
    apply sound_run
    apply hrecords.mono
    rintro text ⟨o, ho, htext⟩
    refine ⟨o, ?_, htext⟩
    rcases hsplit with h | h
    · rw [← h]
      exact List.mem_append_left _ (List.mem_append_left _ ho)
    · rw [← h]
      exact List.mem_append_right _ (List.mem_append_left _ ho)
  have hA : (run offersA).Sound := hsound offersA [] (.inl (List.append_nil _))
  have hB : (run offersB).Sound := hsound offersB [] (.inr (List.append_nil _))
  refine ⟨fun before after hsplit => ⟨hsound before after hsplit, ?_⟩, ?_⟩
  · intro identity record hheld
    rcases rank_le_foldl after hheld with ⟨later, hlater, hle⟩
    rw [foldl_offer] at hlater
    exact ⟨later, hlater, UInt64.le_iff_toNat_le.mpr hle⟩
  intro hvoice hfits
  have hsubA : identities offersA ⊆ identities (offersA ++ offersB) :=
    identities_mono fun o ho => ⟨o, List.mem_append_left _ ho, rfl⟩
  constructor
  · intro offers hperm identity
    have hsame : identities offers = identities offersA := by
      ext i
      simp only [mem_identities, hperm.mem_iff]
    have hroom := (Finset.card_le_card hsubA).trans hfits
    rw [recordOf_run _ (hsame ▸ hroom), recordOf_run _ hroom]
    apply freshest_congr
    · apply (hvoice.apart identity).mono
      intro r hr
      rw [said_append, List.mem_append]
      left
      rw [mem_said] at hr ⊢
      rcases hr with ⟨⟨o, ho, hrecord⟩, hrest⟩
      exact ⟨⟨o, hperm.mem_iff.mp ho, hrecord⟩, hrest⟩
    · intro r
      simp only [mem_said, hperm.mem_iff]
  · intro limits hlimit met
    have hmeets := reconcile_meets hcol hvoice hfits hlimit
    have hdigest : met.1.1.digest = met.1.2.digest := by
      unfold digest inventory
      rw [byId_eq hmeets.1 hmeets.2.1 hmeets.2.2]
    exact ⟨hmeets.2.2, hdigest, if_pos hdigest⟩

/-! ## An identity that speaks twice -/

/-- A record stays while its identity offers nothing fresher. -/
theorem recordOf_foldl_keeps (offers : List Offer) (hheld : h.recordOf identity = some record)
    (hfresh : ∀ o ∈ offers, rank o.record ≤ rank record) :
    (offers.foldl offer h).recordOf identity = some record := by
  induction offers generalizing h with
  | nil => exact hheld
  | cons o offers ih =>
    apply ih _ fun p hp => hfresh p (List.mem_cons_of_mem _ hp)
    have hstep := h.offer_step o
    generalize h.offer o = h' at hstep
    cases hstep with
    | refused reason => exact hheld
    | stale admissible held fresh => exact hheld
    | @known entry pinned admissible held same pins =>
      rw [recordOf_insert]
      split_ifs with hk
      · rw [hk, recordOf, held] at hheld
        exact hheld
      · exact hheld
    | @replaced entry pinned admissible held older pins =>
      rw [recordOf_insert]
      split_ifs with hk
      · rw [hk, recordOf, held] at hheld
        have hle := hfresh o List.mem_cons_self
        rw [← Option.some.inj hheld] at hle
        exact absurd older (not_lt.mpr hle)
      · exact hheld
    | added admissible free room =>
      rw [recordOf_insert]
      split_ifs with hk
      · rw [hk, recordOf, free] at hheld
        cases hheld
      · exact hheld

/-- A store takes over only what the other one was offered. -/
theorem offered_of_mem_catchUp {o : Offer} (h : o ∈ catchUp a (run offers) limits) :
    ∃ p ∈ offers, p.record = o.record := by
  unfold catchUp asked at h
  rcases List.mem_map.mp h with ⟨record, hrecord, rfl⟩
  rcases List.mem_filterMap.mp (List.mem_of_mem_take (List.mem_filter.mp hrecord).1) with
    ⟨identity, -, hheld⟩
  exact mem_of_recordOf hheld

/-- One record, of an identity the store is new to, is taken. -/
theorem recordOf_run_singleton (h : Admissible record) :
    (run [⟨record, false⟩]).recordOf record.identity = some record := by
  have hsaid : said [⟨record, false⟩] record.identity = [record] := by
    simp [said, h]
  rw [recordOf_run, hsaid]
  · rfl
  · have hone : (1 : Nat) ≤ MAX_HINTS := by decide
    exact (List.toFinset_card_le _).trans ((List.length_map _).le.trans
      ((List.length_filter_le _ _).trans hone))

theorem keys_run_singleton (h : Admissible record) :
    (run [⟨record, false⟩]).byId.keys = [record.id] := by
  have hroom : ¬(false = false ∧ MAX_HINTS ≤ new.unpinned) := by decide
  show (admitRecord new record false).1.byId.keys = _
  unfold admitRecord
  rw [h.1, h.2]
  dsimp only
  rw [show new.held.get? record.identity = none from rfl]
  dsimp only
  rw [if_neg hroom]
  rfl

end Hints

end Store

section Sample

/-- The texts hashed below, by their length. -/
def sampleHintDigests : List (Nat × Nat) :=
  [(2, 0x4f53cda18c2baa0c0354bb5f9a3ecbe5ed12ab4d8e11ba873c2f11161202b945),
    (75, 0x37e6897115d7a514f39183a2c4f8f221bb9c973ae661ff833d98260bb8f1571a),
    (372, 0xadf781c95221aa4eec62d6e81dc8e5e6c9d30fbd7c5dc89ca620645b5c98e5d7)]

local instance sampleHintHash : Sha256 := .ofLengths sampleHintDigests

local instance sampleHintSignatures : Signatures := ⟨fun _ _ _ => true⟩

/-- A peer at one address. -/
def sampleHint : PeerRecord where
  identity := "8a88e3dd7409f195fd52db2d3cba5d72ca6709bf1d94121bf3748801b40f6f5c"
  transport := "ce8e3abf6f21bff57e79f7039fb0a15a5d580f6112debacbd0f7e67aa9d2c1bf"
  addr := "a:1"
  seq := 1
  createdAt := "2026-08-18T00:00:00Z"
  signature := some ("5bdf3c571e59caeda7ee500470198ca124223061cdf26682524a3947bc498e77" ++
    "fdc6e388bdc5f7419310b35006be0cea479f5537e8222bbfeb434512e2584a03")

/-- The same peer at another address, under the same `seq`. -/
def sampleOtherHint : PeerRecord :=
  { sampleHint with
    addr := "a:20"
    signature := some ("f7ccd69f91202118e30e6ca04c248c16e2257f6c15792eca965e13e5adaad948" ++
      "f1569e9922d37ac9e24f81504926e4e45bb2fe57be9fb929d288d7dfafbf010a") }

theorem sampleHint_admissible : Hints.Admissible sampleHint := by decide

theorem sampleOtherHint_admissible : Hints.Admissible sampleOtherHint := by decide

theorem sampleHint_id : sampleHint.id =
    "sha256:adf781c95221aa4eec62d6e81dc8e5e6c9d30fbd7c5dc89ca620645b5c98e5d7" :=
  Value.digest_ofLengths sampleHintDigests (n := 372) (by decide +kernel) (by decide)

theorem hints_meet_sample :
    ((Hints.run []).reconcile (Hints.run [⟨sampleHint, false⟩]) .default).1.1.digest =
      ((Hints.run []).reconcile (Hints.run [⟨sampleHint, false⟩]) .default).1.2.digest := by
  have hinventory : (Hints.run [⟨sampleHint, false⟩]).inventory = .array [.string sampleHint.id] := by
    rw [Hints.inventory, Hints.keys_run_singleton sampleHint_admissible]
    rfl
  have htexts : ∀ text, Hints.ExchangeTexts [] [⟨sampleHint, false⟩] text →
      text ∈ [sampleHint.toValue.canonicalString, "[]",
        (Value.array [.string sampleHint.id]).canonicalString] := by
    rintro text (⟨o, ho, rfl⟩ | rfl | rfl)
    · rw [List.mem_singleton.mp ho]
      simp
    · have hempty : (Hints.run []).inventory.canonicalString = "[]" := by decide
      simp [hempty]
    · simp [hinventory]
  have hcol : NoCollision (Hints.ExchangeTexts [] [⟨sampleHint, false⟩]) := by
    apply noCollision_of_nodup _ htexts
    have hdigest : digestText sampleHint.toValue.canonicalString = _ := sampleHint_id
    rw [List.map_cons, hdigest, sampleHint_id]
    decide
  have hone : Hints.OneVoice ([] ++ [⟨sampleHint, false⟩]) := by
    intro o ho o' ho' _ _ _ _
    rw [List.mem_singleton.mp ho, List.mem_singleton.mp ho']
  exact (((Hints.hints_meet [] [⟨sampleHint, false⟩] hcol).2 hone (by decide)).2 .default
    (by decide)).2.1

/-- Two stores that heard an identity say two things under one `seq` do not
meet. -/
theorem not_hints_meet :
    ¬∀ offersA offersB : List Hints.Offer, (∀ o ∈ offersA ++ offersB, Hints.Admissible o.record) →
      (Hints.identities (offersA ++ offersB)).card ≤ MAX_HINTS →
      ∀ identity,
        ((Hints.run offersA).reconcile (Hints.run offersB) .default).1.1.recordOf identity =
          ((Hints.run offersA).reconcile (Hints.run offersB) .default).1.2.recordOf identity := by
  intro h
  have hadm : ∀ o ∈ [⟨sampleHint, false⟩] ++ [(⟨sampleOtherHint, false⟩ : Hints.Offer)],
      Hints.Admissible o.record := by
    intro o ho
    rcases List.mem_cons.mp ho with rfl | ho
    · exact sampleHint_admissible
    · rw [List.mem_singleton.mp ho]
      exact sampleOtherHint_admissible
  have hsame := h _ _ hadm (by decide) sampleHint.identity
  have hfirst := Hints.recordOf_run_singleton sampleHint_admissible
  have hsecond := Hints.recordOf_run_singleton sampleOtherHint_admissible
  have hne : sampleHint ≠ sampleOtherHint := by decide
  by_cases hdigest : (Hints.run [⟨sampleHint, false⟩]).digest =
      (Hints.run [⟨sampleOtherHint, false⟩]).digest
  · have hstop : (Hints.run [⟨sampleHint, false⟩]).reconcile (Hints.run [⟨sampleOtherHint, false⟩])
        .default = ((Hints.run [⟨sampleHint, false⟩], Hints.run [⟨sampleOtherHint, false⟩]),
          (.default, .default)) := if_pos hdigest
    rw [hstop, hfirst] at hsame
    exact hne (Option.some.inj (hsame.trans hsecond))
  · rw [Hints.reconcile_fst hdigest] at hsame
    dsimp only at hsame
    have hle : ∀ (a : Hints) (record other : PeerRecord), Hints.rank other ≤ Hints.rank record →
        ∀ o ∈ Hints.catchUp a (Hints.run [⟨other, false⟩]) .default,
          Hints.rank o.record ≤ Hints.rank record := by
      intro a record other hrank o ho
      rcases Hints.offered_of_mem_catchUp ho with ⟨p, hp, hrecord⟩
      rw [← hrecord, List.mem_singleton.mp hp]
      exact hrank
    have hkeptA := Hints.recordOf_foldl_keeps _ hfirst
      (hle (Hints.run [⟨sampleHint, false⟩]) sampleHint sampleOtherHint le_rfl)
    have hkeptB := Hints.recordOf_foldl_keeps _ hsecond
      (hle (Hints.run [⟨sampleOtherHint, false⟩]) sampleOtherHint sampleHint le_rfl)
    rw [hkeptA] at hsame
    exact hne (Option.some.inj (hsame.trans hkeptB))

end Sample

end Cairn.Ports
