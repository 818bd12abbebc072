import Cairn.Ports.Sync.Peer
import Mathlib.Data.Finset.Lattice.Lemmas
import Mathlib.Logic.Function.Basic

/-!
# Reconciling two peers

`src/p2p/sync.rs`: a peer summarises its ids by leading byte, with a count and
an exclusive or; where two summaries differ, the peers exchange id lists, ask
for what they lack, and serve it. Both askers and servers have ceilings, and
`reconcile` takes a refused message for an empty one.
-/

namespace Cairn.Ports.Sync

open Cairn.Verified
open Cairn.Ports.Canonical

/-- Why a computation stops: a refusal, or an addition that overflows, which
the release profile checks. -/
inductive Halt where
  | refused (error : SyncError)
  | overflow

/-- `BUCKETS` counts and exclusive ors, one per leading byte. -/
structure Inventory where
  counts : UInt8 → UInt32
  xors : UInt8 → Vector UInt8 32

def BUCKETS : Nat := 256

/-- Every leading byte, from zero. -/
def bytes : List UInt8 := (List.range BUCKETS).map UInt8.ofNat

theorem mem_bytes (b : UInt8) : b ∈ bytes :=
  List.mem_map.mpr ⟨b.toNat, List.mem_range.mpr b.toNat_lt, UInt8.ofNat_toNat⟩

theorem nodup_bytes : bytes.Nodup := by
  apply List.Nodup.map_on _ List.nodup_range
  intro x hx y hy h
  rw [List.mem_range] at hx hy
  have hnat := congrArg UInt8.toNat h
  rwa [UInt8.toNat_ofNat_of_lt' hx, UInt8.toNat_ofNat_of_lt' hy] at hnat

/-- The bucket an id belongs to. -/
def bucketOf (id : String) : Option UInt8 := (idBytes id).map fun bytes => bytes[0]

namespace Inventory

def default : Inventory where
  counts _ := 0
  xors _ := Vector.replicate 32 0

/-- One turn of the loop of `of`. -/
def count (inv : Inventory) (id : String) : Except Halt Inventory :=
  match idBytes id with
  | none => .error (.refused (.malformedId id))
  | some bytes =>
    let bucket := bytes[0]
    if (inv.counts bucket).toNat + 1 < UInt32.size then
      .ok
        { counts := Function.update inv.counts bucket (inv.counts bucket + 1)
          xors := Function.update inv.xors bucket
            ((inv.xors bucket).zipWith (· ^^^ ·) bytes) }
    else .error .overflow

def of (ids : List String) : Except Halt Inventory := ids.foldlM count default

/-- Where two summaries disagree. -/
def differing (inv other : Inventory) : List UInt8 :=
  bytes.filter fun b => inv.counts b ≠ other.counts b ∨ inv.xors b ≠ other.xors b

end Inventory

namespace Peer

/-- `inventory`: an id that is malformed would be a panic. -/
def inventory (p : Peer) : Except Halt Inventory := Inventory.of p.ids

def bucketIds (p : Peer) (bucket : UInt8) : List String :=
  p.ids.filter fun id => bucketOf id = some bucket

end Peer

/-- `unwrap_or_default` of a list. -/
def orEmpty {α : Type} : Except SyncError (List α) → List α
  | .ok l => l
  | .error _ => []

/-- Where the loop over the buckets stands: both peers, and what each wants. -/
structure Exchange where
  a : Peer
  b : Peer
  wantA : List String
  wantB : List String

/-- One turn of `reconcile`'s loop. -/
def Exchange.bucket (s : Exchange) (bucket : UInt8) : Exchange :=
  let theirs := s.b.bucketIds bucket
  let askA := s.a.wantFrom theirs
  let mine := askA.1.bucketIds bucket
  let askB := s.b.wantFrom mine
  { a := askA.1
    b := askB.1
    wantA := s.wantA ++ orEmpty askA.2
    wantB := s.wantB ++ orEmpty askB.2 }

/-- Both peers and both reports. -/
structure Outcome where
  a : Peer
  b : Peer
  reportA : IngestReport
  reportB : IngestReport

section Digests

variable [Sha256]

/-- Both sides serve and take; the closure goes on from what it was asked for
`a`. -/
def Exchange.finish (s : Exchange) (verify : Verify) : Outcome :=
  let toA := orEmpty (s.b.serve s.wantA)
  let toB := orEmpty (s.a.serve s.wantB)
  let ingestA := s.a.ingest toA verify
  let ingestB := s.b.ingest toB fun asked => verify (ingestA.asked ++ asked)
  { a := ingestA.peer
    b := ingestB.peer
    reportA := ingestA.report
    reportB := ingestB.report }

def reconcile (a b : Peer) (verify : Verify) : Except Halt Outcome := do
  let invA ← a.inventory
  let invB ← b.inventory
  let start : Exchange := { a, b, wantA := [], wantB := [] }
  let s := (invA.differing invB).foldl Exchange.bucket start
  return s.finish verify

end Digests

/-! ## Summaries -/

/-- How many of these ids a bucket has. -/
def countIn (ids : List String) (b : UInt8) : Nat :=
  (ids.filter fun id => bucketOf id = some b).length

namespace Inventory

theorem countIn_cons (id : String) (ids : List String) (b : UInt8) :
    countIn (id :: ids) b = countIn ids b + if bucketOf id = some b then 1 else 0 := by
  unfold countIn
  rw [List.filter_cons]
  by_cases h : bucketOf id = some b
  · simp [h]
  · simp [h]

theorem count_eq_ok {inv inv' : Inventory} {id : String} (h : inv.count id = .ok inv') :
    (idBytes id).isSome ∧ ∀ b, (inv'.counts b).toNat =
      (inv.counts b).toNat + if bucketOf id = some b then 1 else 0 := by
  unfold count at h
  unfold bucketOf
  cases hbytes : idBytes id with
  | none =>
    rw [hbytes] at h
    cases h
  | some bytes =>
    rw [hbytes] at h
    dsimp only at h
    split_ifs at h with hfits
    cases h
    refine ⟨rfl, ?_⟩
    intro b
    simp only [Option.map_some, Option.some.injEq]
    by_cases hb : bytes[0] = b
    · subst hb
      rw [Function.update_self, if_pos rfl, UInt32.toNat_add]
      exact Nat.mod_eq_of_lt hfits
    · rw [Function.update_of_ne (Ne.symm hb), if_neg hb]
      rfl

theorem exists_count {inv : Inventory} {id : String} (hid : (idBytes id).isSome)
    (hfits : ∀ b, bucketOf id = some b → (inv.counts b).toNat + 1 < UInt32.size) :
    ∃ inv', inv.count id = .ok inv' := by
  obtain ⟨bytes, hbytes⟩ := Option.isSome_iff_exists.mp hid
  have hbucket : bucketOf id = some bytes[0] := by
    rw [bucketOf, hbytes]
    rfl
  unfold count
  rw [hbytes]
  dsimp only
  rw [if_pos (hfits _ hbucket)]
  exact ⟨_, rfl⟩

theorem counts_foldlM (ids : List String) : ∀ {inv inv' : Inventory},
    ids.foldlM count inv = .ok inv' → (∀ id ∈ ids, (idBytes id).isSome) ∧
      ∀ b, (inv'.counts b).toNat = (inv.counts b).toNat + countIn ids b := by
  induction ids with
  | nil =>
    intro inv inv' h
    cases h
    exact ⟨by simp, fun b => by simp [countIn]⟩
  | cons id ids ih =>
    intro inv inv' h
    rw [List.foldlM_cons, bind_eq_ok] at h
    obtain ⟨next, hnext, h⟩ := h
    obtain ⟨hid, hcount⟩ := count_eq_ok hnext
    obtain ⟨hids, hcounts⟩ := ih h
    refine ⟨by simpa [hid] using hids, ?_⟩
    intro b
    rw [hcounts, hcount, countIn_cons]
    omega

theorem exists_foldlM (ids : List String) : ∀ {inv : Inventory},
    (∀ id ∈ ids, (idBytes id).isSome) →
    (∀ b, (inv.counts b).toNat + countIn ids b < UInt32.size) →
    ∃ inv', ids.foldlM count inv = .ok inv' := by
  induction ids with
  | nil => exact fun _ _ => ⟨_, rfl⟩
  | cons id ids ih =>
    intro inv hids hfits
    simp only [countIn_cons] at hfits
    obtain ⟨next, hnext⟩ : ∃ next, inv.count id = .ok next := by
      apply exists_count (hids id (by simp))
      intro b hb
      have hfit := hfits b
      rw [if_pos hb] at hfit
      omega
    obtain ⟨-, hcount⟩ := count_eq_ok hnext
    obtain ⟨inv', hinv'⟩ := @ih next (fun x hx => hids x (by simp [hx])) (by
      intro b
      rw [hcount]
      have hfit := hfits b
      omega)
    refine ⟨inv', ?_⟩
    rw [List.foldlM_cons, bind_eq_ok]
    exact ⟨next, hnext, hinv'⟩

end Inventory

namespace Peer

theorem countIn_ids (p : Peer) (b : UInt8) : countIn p.ids b = (p.bucketIds b).length := rfl

variable {p q : Peer} {id : String}

theorem counts_inventory {inv : Inventory} (h : p.inventory = .ok inv) (b : UInt8) :
    (inv.counts b).toNat = (p.bucketIds b).length := by
  have hcounts := (Inventory.counts_foldlM p.ids h).2 b
  rw [hcounts, countIn_ids]
  exact Nat.zero_add _

/-- A summary goes through when every id is well formed and every bucket can be
counted. -/
theorem inventory_ok_iff (hids : ∀ id ∈ p.ids, (idBytes id).isSome) :
    (∃ inv, p.inventory = .ok inv) ↔ ∀ b, (p.bucketIds b).length < UInt32.size := by
  constructor
  · rintro ⟨inv, h⟩ b
    rw [← counts_inventory h]
    exact (inv.counts b).toNat_lt
  · intro hfits
    apply Inventory.exists_foldlM p.ids hids
    intro b
    rw [countIn_ids]
    have hzero : (Inventory.default.counts b).toNat = 0 := rfl
    rw [hzero, Nat.zero_add]
    exact hfits b

/-! ## What is asked for -/

/-- What one peer asks another for in a bucket. -/
def requested (p q : Peer) (b : UInt8) : List String :=
  if (q.bucketIds b).length ≤ p.limits.maxIdsPerMessage then
    (q.bucketIds b).filter fun id => ¬p.holds id
  else []

theorem nodup_ids (p : Peer) : p.ids.Nodup := p.held.nodup_keys

theorem mem_ids : id ∈ p.ids ↔ p.holds id := by
  rw [ids, BTreeMap.mem_keys, holds, BTreeMap.containsKey_iff]

theorem mem_bucketIds {p : Peer} {b : UInt8} {id : String} :
    id ∈ p.bucketIds b ↔ p.holds id ∧ bucketOf id = some b := by
  rw [bucketIds, List.mem_filter, mem_ids, decide_eq_true_eq]

theorem mem_requested {b : UInt8} :
    id ∈ p.requested q b ↔ (q.bucketIds b).length ≤ p.limits.maxIdsPerMessage ∧
      q.holds id ∧ bucketOf id = some b ∧ p.holds id = false := by
  unfold requested
  split_ifs with hfits
  · simp [hfits, mem_bucketIds, and_assoc]
  · simp [hfits]

theorem wantEach_eq (ids : List String) : ∀ {p : Peer} (want : List String), ids.Nodup →
    (∀ id ∈ ids, (idBytes id).isSome) → (∀ id ∈ ids, id ∉ p.outstanding) →
    p.wantEach want ids =
      ({ p with outstanding := p.outstanding ∪ (ids.filter fun id => ¬p.holds id).toFinset },
        .ok (want ++ ids.filter fun id => ¬p.holds id)) := by
  induction ids with
  | nil =>
    intro p want _ _ _
    simp [wantEach, Finset.union_empty]
  | cons id ids ih =>
    intro p want hnodup hids hfresh
    rw [List.nodup_cons] at hnodup
    have hsome : (idBytes id).isNone = false := by simp [hids id (by simp)]
    unfold wantEach
    rw [hsome, if_neg Bool.false_ne_true]
    by_cases hheld : p.holds id
    · rw [if_neg fun h => h.1 hheld,
        ih want hnodup.2 (fun x hx => hids x (by simp [hx])) fun x hx => hfresh x (by simp [hx])]
      simp [hheld]
    · rw [if_pos ⟨hheld, hfresh id (by simp)⟩, ih (want ++ [id]) hnodup.2
        (fun x hx => hids x (by simp [hx])) ?_]
      · have hholds : ∀ x, ({ p with outstanding := Insert.insert id p.outstanding } : Peer).holds x =
            p.holds x := fun _ => rfl
        have hcons : ((id :: ids).filter fun x => ¬p.holds x) =
            id :: ids.filter fun x => ¬p.holds x := by simp [hheld]
        simp only [hholds]
        rw [hcons, List.toFinset_cons, Finset.union_insert, Finset.insert_union]
        simp
      · intro x hx hmem
        obtain rfl | hmem := Finset.mem_insert.mp hmem
        · exact hnodup.1 hx
        · exact hfresh x (by simp [hx]) hmem

/-- Asking for a bucket of which nothing is outstanding. -/
theorem wantFrom_bucketIds {p q : Peer} {b : UInt8} (hids : ∀ id ∈ q.ids, (idBytes id).isSome)
    (hfresh : ∀ id ∈ q.bucketIds b, id ∉ p.outstanding) :
    (p.wantFrom (q.bucketIds b)).1 =
        { p with outstanding := p.outstanding ∪ (p.requested q b).toFinset } ∧
      orEmpty (p.wantFrom (q.bucketIds b)).2 = p.requested q b := by
  unfold wantFrom requested
  by_cases hmany : (q.bucketIds b).length > p.limits.maxIdsPerMessage
  · rw [if_pos hmany, if_neg (by omega)]
    simp [orEmpty]
  · rw [if_neg hmany, if_pos (by omega), wantEach_eq (q.bucketIds b) []
      (q.nodup_ids.filter _) (fun id hid => hids id (List.mem_filter.mp hid).1) hfresh]
    exact ⟨rfl, rfl⟩

/-- What one peer asks another for in all these buckets. -/
def wanted (p q : Peer) (buckets : List UInt8) : List String := buckets.flatMap (p.requested q)

theorem mem_wanted {buckets : List UInt8} :
    id ∈ p.wanted q buckets ↔ ∃ b ∈ buckets, (q.bucketIds b).length ≤ p.limits.maxIdsPerMessage ∧
      q.holds id ∧ bucketOf id = some b ∧ p.holds id = false := by
  simp only [wanted, List.mem_flatMap, mem_requested]

theorem nodup_wanted {buckets : List UInt8} (h : buckets.Nodup) : (p.wanted q buckets).Nodup := by
  unfold wanted
  rw [List.nodup_flatMap]
  constructor
  · intro b _
    unfold requested
    split_ifs
    · exact (q.nodup_ids.filter _).filter _
    · exact List.nodup_nil
  · apply h.imp
    intro b c hne x hb hc
    exact hne (Option.some.inj ((mem_requested.mp hb).2.2.1.symm.trans (mem_requested.mp hc).2.2.1))

end Peer

/-! ## The loop -/

/-- Where the loop stands after these buckets. -/
def Exchange.after (a b : Peer) (buckets : List UInt8) : Exchange where
  a := { a with outstanding := (a.wanted b buckets).toFinset }
  b := { b with outstanding := (b.wanted a buckets).toFinset }
  wantA := a.wanted b buckets
  wantB := b.wanted a buckets

theorem Exchange.bucket_after {a b : Peer} {done : List UInt8} {bucket : UInt8}
    (ha : ∀ id ∈ a.ids, (idBytes id).isSome) (hb : ∀ id ∈ b.ids, (idBytes id).isSome)
    (hnew : bucket ∉ done) :
    (Exchange.after a b done).bucket bucket = Exchange.after a b (done ++ [bucket]) := by
  -- nothing of this bucket was asked for in an earlier one
  have hfresh : ∀ p q : Peer, ∀ id ∈ q.bucketIds bucket, id ∉ (p.wanted q done).toFinset := by
    intro p q id hid hmem
    obtain ⟨c, hc, -, -, hbucket, -⟩ := Peer.mem_wanted.mp (List.mem_toFinset.mp hmem)
    rw [(Peer.mem_bucketIds.mp hid).2, Option.some.injEq] at hbucket
    exact hnew (hbucket ▸ hc)
  have hconcat : ∀ p q : Peer, p.wanted q (done ++ [bucket]) =
      p.wanted q done ++ p.requested q bucket := by
    intro p q
    simp [Peer.wanted]
  let pa : Peer := { a with outstanding := (a.wanted b done).toFinset }
  let pb : Peer := { b with outstanding := (b.wanted a done).toFinset }
  obtain ⟨ha1, ha2⟩ := @Peer.wantFrom_bucketIds pa pb bucket hb (hfresh a b)
  have hmine : (pa.wantFrom (pb.bucketIds bucket)).1.bucketIds bucket = pa.bucketIds bucket := by
    rw [ha1]
    rfl
  obtain ⟨hb1, hb2⟩ := @Peer.wantFrom_bucketIds pb pa bucket ha (hfresh b a)
  have hstep : (Exchange.after a b done).bucket bucket =
      { a := (pa.wantFrom (pb.bucketIds bucket)).1
        b := (pb.wantFrom ((pa.wantFrom (pb.bucketIds bucket)).1.bucketIds bucket)).1
        wantA := a.wanted b done ++ orEmpty (pa.wantFrom (pb.bucketIds bucket)).2
        wantB := b.wanted a done ++
          orEmpty (pb.wantFrom ((pa.wantFrom (pb.bucketIds bucket)).1.bucketIds bucket)).2 } := rfl
  rw [hstep, hmine, ha1, ha2, hb1, hb2]
  unfold Exchange.after
  rw [hconcat, hconcat, List.toFinset_append, List.toFinset_append]
  rfl

theorem Exchange.foldl_bucket {a b : Peer} (ha : ∀ id ∈ a.ids, (idBytes id).isSome)
    (hb : ∀ id ∈ b.ids, (idBytes id).isSome) (buckets : List UInt8) : ∀ done : List UInt8,
    (done ++ buckets).Nodup →
    buckets.foldl Exchange.bucket (Exchange.after a b done) =
      Exchange.after a b (done ++ buckets) := by
  induction buckets with
  | nil => simp
  | cons bucket buckets ih =>
    intro done hnodup
    have hnew : bucket ∉ done := fun hmem =>
      (List.nodup_append.mp hnodup).2.2 bucket hmem bucket (by simp) rfl
    rw [List.foldl_cons, Exchange.bucket_after ha hb hnew, ih (done ++ [bucket]) (by simpa using hnodup)]
    simp

/-! ## What arrives -/

section Digests

variable [Sha256]

namespace Peer

theorem WF.isSome_idBytes {p : Peer} (h : p.WF) : ∀ id ∈ p.ids, (idBytes id).isSome := by
  intro id hid
  obtain ⟨record, hrecord⟩ := BTreeMap.mem_keys.mp hid
  rw [← (h id record hrecord).1, Record.id, Value.digest, idBytes_digestBytes]
  rfl

/-- Every record a peer holds is within its ceiling. -/
def Sized (p : Peer) : Prop :=
  ∀ id record, p.held.get? id = some record → record.size ≤ p.limits.maxRecordBytes

/-- What is asked for, fits and is accepted arrives. -/
theorem ingest_all {p : Peer} {verify : Verify} (hverify : ∀ asked r, verify asked r = .ok ())
    (records : List Record) :
    records.length ≤ p.limits.maxRecordsPerMessage → (records.map Record.id).Nodup →
    (∀ r ∈ records, r.size ≤ p.limits.maxRecordBytes ∧ r.kind ∈ EXCHANGEABLE ∧
      r.id ∈ p.outstanding ∧ p.holds r.id = false) →
    (∀ id, (p.ingest records verify).peer.holds id = true ↔
      p.holds id = true ∨ id ∈ records.map Record.id) ∧
    (p.ingest records verify).peer.outstanding =
      p.outstanding \ (records.map Record.id).toFinset ∧
    (p.ingest records verify).peer.limits = p.limits := by
  induction records using List.reverseRecOn with
  | nil =>
    intro _ _ _
    unfold ingest
    simp
  | append_singleton records last ih =>
    intro hmany hnodup hpass
    rw [List.length_append, List.length_singleton] at hmany
    rw [List.map_append, List.nodup_append] at hnodup
    obtain ⟨hholds, hout, hlimits⟩ :=
      ih (by omega) hnodup.1 fun r hr => hpass r (by simp [hr])
    obtain ⟨hsize, hkind, hasked, hfresh⟩ := hpass last (by simp)
    have hnew : last.id ∉ records.map Record.id := fun hmem =>
      hnodup.2.2 last.id hmem last.id (by simp) rfl
    have hadmits : Admits verify (p.ingest records verify) last := by
      refine ⟨by rw [hlimits]; exact hsize, hkind, ?_, ?_, hverify _ _⟩
      · rw [hout, Finset.mem_sdiff, List.mem_toFinset]
        exact ⟨hasked, hnew⟩
      · rw [Bool.eq_false_iff, Ne, hholds, hfresh]
        simp [hnew]
    rw [ingest_concat verify (by omega)]
    obtain ⟨-, hpeer⟩ | ⟨hnot, -⟩ := ingestOne_cases verify (p.ingest records verify) last
    · rw [hpeer]
      refine ⟨?_, ?_, hlimits⟩
      · intro id
        rw [holds, BTreeMap.containsKey]
        dsimp only
        rw [BTreeMap.get?_insert]
        by_cases hid : id = last.id
        · simp [hid]
        · rw [if_neg hid]
          simp only [List.map_append, List.mem_append, List.map_cons, List.map_nil,
            List.mem_singleton, hid, or_false]
          exact hholds id
      · rw [hout, List.map_append, List.toFinset_append]
        ext id
        simp only [Finset.mem_erase, Finset.mem_sdiff, Finset.mem_union, List.mem_toFinset,
          List.map_cons, List.map_nil, List.mem_singleton]
        tauto
    · exact absurd hadmits hnot

/-- What is served holds the ids asked for. -/
theorem WF.map_id_serve {p : Peer} (h : p.WF) {ids : List String} (hids : ∀ id ∈ ids, p.holds id) :
    (ids.filterMap p.held.get?).map Record.id = ids := by
  induction ids with
  | nil => rfl
  | cons id ids ih =>
    obtain ⟨record, hrecord⟩ := BTreeMap.containsKey_iff.mp (hids id (by simp))
    rw [List.filterMap_cons_some hrecord, List.map_cons, (h id record hrecord).1,
      ih fun x hx => hids x (by simp [hx])]

/-- Everything asked for arrives, or more is asked for than is served and
nothing does. -/
theorem deliver {a b : Peer} (hb : b.WF) (hsized : b.Sized) (hlimits : a.limits = b.limits)
    {want : List String} (hnodup : want.Nodup)
    (hwant : ∀ id ∈ want, b.holds id = true ∧ a.holds id = false) (o : Finset String)
    {verify : Verify} (hverify : ∀ asked r, verify asked r = .ok ()) :
    (∀ id, (({ a with outstanding := want.toFinset } : Peer).ingest
        (orEmpty (({ b with outstanding := o } : Peer).serve want)) verify).peer.holds id = true ↔
      a.holds id = true ∨ (id ∈ want ∧ want.length ≤ a.limits.maxRecordsPerMessage)) ∧
    ((({ a with outstanding := want.toFinset } : Peer).ingest
        (orEmpty (({ b with outstanding := o } : Peer).serve want)) verify).peer.outstanding = ∅ ↔
      want.length ≤ a.limits.maxRecordsPerMessage) := by
  have hholds : ∀ id, ({ a with outstanding := want.toFinset } : Peer).holds id = a.holds id :=
    fun _ => rfl
  unfold serve
  dsimp only
  rw [← hlimits]
  by_cases hmany : want.length > a.limits.maxRecordsPerMessage
  · rw [if_pos hmany]
    obtain ⟨hheld, hout, -⟩ := @ingest_all _ { a with outstanding := want.toFinset } verify
      hverify [] (by simp) (by simp) (by simp)
    have hne : want ≠ [] := by
      rintro rfl
      simp at hmany
    simp only [orEmpty, hheld, hout, hholds]
    have hnot : ¬want.length ≤ a.limits.maxRecordsPerMessage := by omega
    simp [hnot, hne]
  · rw [if_neg hmany]
    have hids := hb.map_id_serve fun id hid => (hwant id hid).1
    have hlength := congrArg List.length hids
    rw [List.length_map] at hlength
    have hpass : ∀ r ∈ want.filterMap b.held.get?, r.size ≤ a.limits.maxRecordBytes ∧
        r.kind ∈ EXCHANGEABLE ∧ r.id ∈ want.toFinset ∧ a.holds r.id = false := by
      intro r hr
      obtain ⟨id, hid, hget⟩ := List.mem_filterMap.mp hr
      obtain ⟨rfl, hkind⟩ := hb id r hget
      rw [hlimits]
      exact ⟨hsized _ r hget, hkind, List.mem_toFinset.mpr hid, (hwant _ hid).2⟩
    obtain ⟨hheld, hout, -⟩ := @ingest_all _ { a with outstanding := want.toFinset } verify
      hverify (want.filterMap b.held.get?) (by rw [hlength]; exact not_lt.mp hmany)
      (by rw [hids]; exact hnodup) hpass
    have hfits : want.length ≤ a.limits.maxRecordsPerMessage := not_lt.mp hmany
    simp only [orEmpty, hheld, hout, hholds, hids, hfits, and_true, iff_true]
    exact ⟨fun id => trivial, Finset.sdiff_self _⟩

end Peer

/-! ## Convergence -/

/-- A peer built by calls, with the default limits. -/
def Reachable (p : Peer) : Prop := ∃ calls, p = Peer.new.run calls

variable {p a b : Peer} {buckets : List UInt8} {verify : Verify}

theorem Reachable.wf (h : Reachable p) : p.WF := by
  obtain ⟨calls, rfl⟩ := h
  exact (Peer.wf_withLimits _).run calls

theorem Reachable.limits (h : Reachable p) : p.limits = .default := by
  obtain ⟨calls, rfl⟩ := h
  exact Peer.limits_run _ calls

/-- Where both summaries agree on a bucket, both peers hold the same ids there. -/
def Distinguished (a b : Peer) : Prop :=
  ∀ invA invB, a.inventory = .ok invA → b.inventory = .ok invB →
    ∀ bucket, invA.counts bucket = invB.counts bucket → invA.xors bucket = invB.xors bucket →
      a.bucketIds bucket = b.bucketIds bucket

/-- Both hold what either held, and nobody waits for anything. -/
def Converges (a b : Peer) (verify : Verify) : Prop :=
  ∃ after, reconcile a b verify = .ok after ∧
    (∀ id, after.a.holds id ↔ a.holds id ∨ b.holds id) ∧
    (∀ id, after.b.holds id ↔ a.holds id ∨ b.holds id) ∧
    after.a.outstanding = ∅ ∧ after.b.outstanding = ∅

/-- Every bucket can be counted. -/
def Countable (p : Peer) : Prop := ∀ bucket, (p.bucketIds bucket).length < UInt32.size

/-- What one peer lacks of another's passes no ceiling: no bucket that has some
of it is too long to be listed, and all of it fits in one message. -/
def Fits (p q : Peer) : Prop :=
  (∀ bucket, (q.bucketIds bucket).length ≤ p.limits.maxIdsPerMessage ∨
    ∀ id ∈ q.bucketIds bucket, p.holds id) ∧
  (q.ids.filter fun id => ¬p.holds id).length ≤ p.limits.maxRecordsPerMessage

/-- One side gets all it lacks and waits for nothing exactly when it fits. -/
theorem fits_iff {q : Peer} (hq : q.WF) (hnodup : buckets.Nodup)
    (hdiffer : ∀ id b, q.holds id = true → p.holds id = false → bucketOf id = some b → b ∈ buckets) :
    Fits p q ↔ (∀ id, p.holds id = true ∨ (id ∈ p.wanted q buckets ∧
        (p.wanted q buckets).length ≤ p.limits.maxRecordsPerMessage) ↔
          p.holds id = true ∨ q.holds id = true) ∧
      (p.wanted q buckets).length ≤ p.limits.maxRecordsPerMessage := by
  -- when nothing is left out, what is wanted is what is missing
  have hlength : (∀ id, q.holds id = true → p.holds id = false → id ∈ p.wanted q buckets) →
      (q.ids.filter fun id => ¬p.holds id).length = (p.wanted q buckets).length := by
    intro hall
    apply List.Perm.length_eq
    rw [List.perm_ext_iff_of_nodup (q.nodup_ids.filter _) (Peer.nodup_wanted hnodup)]
    intro id
    rw [List.mem_filter, Peer.mem_ids, decide_eq_true_eq, Bool.not_eq_true]
    constructor
    · rintro ⟨hheld, hfree⟩
      exact hall id hheld hfree
    · intro hid
      obtain ⟨b, -, -, hheld, -, hfree⟩ := Peer.mem_wanted.mp hid
      exact ⟨hheld, hfree⟩
  have hbucket : ∀ id, q.holds id = true → ∃ b, bucketOf id = some b := by
    intro id hid
    obtain ⟨bytes, hbytes⟩ :=
      Option.isSome_iff_exists.mp (hq.isSome_idBytes id (Peer.mem_ids.mpr hid))
    exact ⟨bytes[0], by rw [bucketOf, hbytes]; rfl⟩
  constructor
  · rintro ⟨hlists, hmissing⟩
    have hall : ∀ id, q.holds id = true → p.holds id = false → id ∈ p.wanted q buckets := by
      intro id hheld hfree
      obtain ⟨b, hb⟩ := hbucket id hheld
      obtain hshort | hnone := hlists b
      · exact Peer.mem_wanted.mpr ⟨b, hdiffer id b hheld hfree hb, hshort, hheld, hb, hfree⟩
      · have hcontra := hnone id (Peer.mem_bucketIds.mpr ⟨hheld, hb⟩)
        exact absurd (hfree.symm.trans hcontra) Bool.false_ne_true
    rw [hlength hall] at hmissing
    refine ⟨?_, hmissing⟩
    intro id
    simp only [hmissing, and_true]
    constructor
    · apply Or.imp_right
      intro hid
      obtain ⟨b, -, -, hheld, -⟩ := Peer.mem_wanted.mp hid
      exact hheld
    · rintro (hheld | hheld)
      · exact .inl hheld
      · cases hfree : p.holds id with
        | true => exact .inl rfl
        | false => exact .inr (hall id hheld hfree)
  · rintro ⟨hunion, hfits⟩
    have hall : ∀ id, q.holds id = true → p.holds id = false → id ∈ p.wanted q buckets := by
      intro id hheld hfree
      obtain hcontra | ⟨hid, -⟩ := (hunion id).mpr (.inr hheld)
      · exact absurd (hfree.symm.trans hcontra) Bool.false_ne_true
      · exact hid
    refine ⟨?_, by rw [hlength hall]; exact hfits⟩
    intro b
    by_cases hshort : (q.bucketIds b).length ≤ p.limits.maxIdsPerMessage
    · exact .inl hshort
    · right
      intro id hid
      obtain ⟨hheld, hb⟩ := Peer.mem_bucketIds.mp hid
      cases hfree : p.holds id with
      | true => rfl
      | false =>
        obtain ⟨c, -, hlist, -, hc, -⟩ := Peer.mem_wanted.mp (hall id hheld hfree)
        rw [hb, Option.some.injEq] at hc
        exact absurd (hc ▸ hlist) hshort

/-- Two peers that wait for nothing, with the default limits, holding records
within them. -/
structure Ready (a b : Peer) : Prop where
  reachableA : Reachable a
  reachableB : Reachable b
  idleA : a.outstanding = ∅
  idleB : b.outstanding = ∅
  sizedA : a.Sized
  sizedB : b.Sized
  distinguished : Distinguished a b

theorem Ready.exchange (h : Ready a b) (hnodup : buckets.Nodup) :
    buckets.foldl Exchange.bucket { a, b, wantA := [], wantB := [] } =
      Exchange.after a b buckets := by
  have hstart : Exchange.after a b [] = { a, b, wantA := [], wantB := [] } := by
    have ha : ({ a with outstanding := ∅ } : Peer) = a := by rw [← h.idleA]
    have hb : ({ b with outstanding := ∅ } : Peer) = b := by rw [← h.idleB]
    show Exchange.mk { a with outstanding := ∅ } { b with outstanding := ∅ } [] [] = _
    rw [ha, hb]
  rw [← hstart, Exchange.foldl_bucket h.reachableA.wf.isSome_idBytes
    h.reachableB.wf.isSome_idBytes buckets [] hnodup]
  rfl

/-- What one peer lacks of another's is in a bucket where they differ. -/
theorem Ready.differ (h : Ready a b) {invA invB : Inventory} (hinvA : a.inventory = .ok invA)
    (hinvB : b.inventory = .ok invB) {id : String} {bucket : UInt8}
    (hlack : a.holds id ≠ b.holds id) (hbucket : bucketOf id = some bucket) :
    bucket ∈ invA.differing invB := by
  unfold Inventory.differing
  rw [List.mem_filter, decide_eq_true_eq]
  refine ⟨mem_bytes bucket, ?_⟩
  by_contra hsame
  rw [not_or, not_not, not_not] at hsame
  have hids := h.distinguished invA invB hinvA hinvB bucket hsame.1 hsame.2
  apply hlack
  rw [Bool.eq_iff_iff]
  have ha := @Peer.mem_bucketIds a bucket id
  have hb := @Peer.mem_bucketIds b bucket id
  rw [hids] at ha
  simp only [hbucket, and_true] at ha hb
  exact ha.symm.trans hb

/-- What one side has after a reconciliation: what it had and, if that fits in
one message, what it wanted of the other. -/
def Served (p q : Peer) (buckets : List UInt8) (after : Peer) : Prop :=
  (∀ id, after.holds id = true ↔ p.holds id = true ∨ (id ∈ p.wanted q buckets ∧
    (p.wanted q buckets).length ≤ p.limits.maxRecordsPerMessage)) ∧
  (after.outstanding = ∅ ↔ (p.wanted q buckets).length ≤ p.limits.maxRecordsPerMessage)

theorem served {q : Peer} (hq : q.WF) (hsized : q.Sized) (hlimits : p.limits = q.limits)
    (hnodup : buckets.Nodup) (o : Finset String) (hverify : ∀ asked r, verify asked r = .ok ()) :
    Served p q buckets (({ p with outstanding := (p.wanted q buckets).toFinset } : Peer).ingest
      (orEmpty (({ q with outstanding := o } : Peer).serve (p.wanted q buckets))) verify).peer := by
  apply Peer.deliver hq hsized hlimits (Peer.nodup_wanted hnodup) _ o hverify
  intro id hid
  obtain ⟨b, -, -, hheld, -, hfree⟩ := Peer.mem_wanted.mp hid
  exact ⟨hheld, hfree⟩

/-- What one reconciliation does to both peers. -/
theorem Ready.reconcile_eq (h : Ready a b) (hverify : ∀ asked r, verify asked r = .ok ())
    {invA invB : Inventory} (hinvA : a.inventory = .ok invA) (hinvB : b.inventory = .ok invB) :
    ∃ after, reconcile a b verify = .ok after ∧
      Served a b (invA.differing invB) after.a ∧ Served b a (invA.differing invB) after.b := by
  have hnodup : (invA.differing invB).Nodup := nodup_bytes.filter _
  have hlimits : a.limits = b.limits := h.reachableA.limits.trans h.reachableB.limits.symm
  refine ⟨(Exchange.after a b (invA.differing invB)).finish verify, ?_,
    served h.reachableB.wf h.sizedB hlimits hnodup _ hverify,
    served h.reachableA.wf h.sizedA hlimits.symm hnodup _ fun asked r => hverify _ r⟩
  unfold reconcile
  simp only [hinvA, hinvB, bind, Except.bind, h.exchange hnodup, pure, Except.pure]

/-- One reconciliation converges exactly when nothing passes a ceiling. -/
theorem Ready.converges_iff (h : Ready a b) (hverify : ∀ asked r, verify asked r = .ok ()) :
    Converges a b verify ↔ Countable a ∧ Countable b ∧ Fits a b ∧ Fits b a := by
  rw [Countable, Countable, ← Peer.inventory_ok_iff h.reachableA.wf.isSome_idBytes,
    ← Peer.inventory_ok_iff h.reachableB.wf.isSome_idBytes]
  constructor
  · rintro ⟨after, hafter, hunionA, hunionB, hidleA, hidleB⟩
    have hinv := hafter
    unfold reconcile at hinv
    simp only [bind_eq_ok] at hinv
    obtain ⟨invA, hinvA, invB, hinvB, -⟩ := hinv
    obtain ⟨after', hafter', ⟨hholdsA, houtA⟩, hholdsB, houtB⟩ := h.reconcile_eq hverify hinvA hinvB
    obtain rfl := Except.ok.inj (hafter.symm.trans hafter')
    have hnodup : (invA.differing invB).Nodup := nodup_bytes.filter _
    refine ⟨⟨invA, hinvA⟩, ⟨invB, hinvB⟩, ?_, ?_⟩
    · rw [fits_iff h.reachableB.wf hnodup fun id b hb ha =>
        h.differ hinvA hinvB (by rw [ha, hb]; exact Bool.false_ne_true)]
      exact ⟨fun id => (hholdsA id).symm.trans (hunionA id), houtA.mp hidleA⟩
    · rw [fits_iff h.reachableA.wf hnodup fun id b ha hb =>
        h.differ hinvA hinvB (by rw [ha, hb]; exact Bool.false_ne_true.symm)]
      exact ⟨fun id => (hholdsB id).symm.trans ((hunionB id).trans or_comm), houtB.mp hidleB⟩
  · rintro ⟨⟨invA, hinvA⟩, ⟨invB, hinvB⟩, hfitsA, hfitsB⟩
    obtain ⟨after, hafter, ⟨hholdsA, houtA⟩, hholdsB, houtB⟩ := h.reconcile_eq hverify hinvA hinvB
    have hnodup : (invA.differing invB).Nodup := nodup_bytes.filter _
    rw [fits_iff h.reachableB.wf hnodup fun id b hb ha =>
      h.differ hinvA hinvB (by rw [ha, hb]; exact Bool.false_ne_true)] at hfitsA
    rw [fits_iff h.reachableA.wf hnodup fun id b ha hb =>
      h.differ hinvA hinvB (by rw [ha, hb]; exact Bool.false_ne_true.symm)] at hfitsB
    refine ⟨after, hafter, ?_, ?_, houtA.mpr hfitsA.2, houtB.mpr hfitsB.2⟩
    · exact fun id => (hholdsA id).trans (hfitsA.1 id)
    · exact fun id => (hholdsB id).trans ((hfitsB.1 id).trans or_comm)

/-! ## Sending a list to a peer that has nothing -/

namespace Peer

/-- A peer seeded with records. -/
def seeded (records : List Record) : Peer := new.run (records.map Call.insert)

theorem seeded_concat (records : List Record) (record : Record) :
    seeded (records ++ [record]) = ((seeded records).insert record).1 := by
  unfold seeded
  rw [List.map_append, List.map_singleton, run_concat]
  rfl

theorem outstanding_seeded (records : List Record) : (seeded records).outstanding = ∅ := by
  induction records using List.reverseRecOn with
  | nil => rfl
  | append_singleton records record ih =>
    rw [seeded_concat]
    by_cases hkind : record.kind ∈ EXCHANGEABLE
    · rw [insert_eq hkind]
      exact ih
    · rw [insert_refused hkind]
      exact ih

theorem mem_of_get?_seeded {records : List Record} {id : String} {record : Record}
    (h : (seeded records).held.get? id = some record) : record ∈ records := by
  induction records using List.reverseRecOn with
  | nil => cases h
  | append_singleton records last ih =>
    rw [seeded_concat] at h
    by_cases hkind : last.kind ∈ EXCHANGEABLE
    · rw [insert_eq hkind] at h
      dsimp only at h
      rw [BTreeMap.get?_insert] at h
      split_ifs at h
      · cases h
        simp
      · exact List.mem_append_left _ (ih h)
    · rw [insert_refused hkind] at h
      exact List.mem_append_left _ (ih h)

theorem holds_seeded {records : List Record} (hkinds : ∀ r ∈ records, r.kind ∈ EXCHANGEABLE)
    {record : Record} (h : record ∈ records) : (seeded records).holds record.id = true := by
  induction records using List.reverseRecOn with
  | nil => cases h
  | append_singleton records last ih =>
    rw [seeded_concat, insert_eq (hkinds last (by simp))]
    unfold holds BTreeMap.containsKey
    dsimp only
    rw [BTreeMap.get?_insert]
    split_ifs with hid
    · rfl
    · obtain h | h := List.mem_append.mp h
      · exact ih (fun r hr => hkinds r (by simp [hr])) h
      · exact absurd (by rw [List.mem_singleton.mp h]) hid

theorem ids_seeded_subset (records : List Record) :
    (seeded records).ids ⊆ records.map Record.id := by
  intro id hid
  obtain ⟨record, hrecord⟩ := BTreeMap.mem_keys.mp hid
  have hwf := (wf_withLimits Limits.default).run (records.map Call.insert) id record hrecord
  exact List.mem_map.mpr ⟨record, mem_of_get?_seeded hrecord, hwf.1⟩

theorem length_ids_seeded (records : List Record) :
    (seeded records).ids.length ≤ records.length := by
  have hle := ((seeded records).nodup_ids.subperm (ids_seeded_subset records)).length_le
  rwa [List.length_map] at hle

omit [Sha256] in
theorem length_bucketIds_le (p : Peer) (b : UInt8) : (p.bucketIds b).length ≤ p.ids.length :=
  List.length_filter_le _ _

end Peer

/-- A peer with nothing and one seeded with small enough records are ready. -/
theorem ready_seeded {records : List Record} (hsizes : ∀ r ∈ records, r.size ≤ MAX_BODY_BYTES) :
    Ready Peer.new (Peer.seeded records) where
  reachableA := ⟨[], rfl⟩
  reachableB := ⟨_, rfl⟩
  idleA := rfl
  idleB := Peer.outstanding_seeded records
  sizedA := by
    intro id record h
    cases h
  sizedB := by
    intro id record h
    have hlimits : (Peer.seeded records).limits = .default := Peer.limits_run _ _
    rw [hlimits]
    exact hsizes record (Peer.mem_of_get?_seeded h)
  distinguished := by
    intro invA invB hinvA hinvB bucket hcounts _
    have hnone : Peer.new.bucketIds bucket = [] := rfl
    have hA := Peer.counts_inventory hinvA bucket
    have hB := Peer.counts_inventory hinvB bucket
    rw [hcounts, hB, hnone, List.length_nil] at hA
    rw [hnone, List.length_eq_zero_iff.mp hA]

/-- More records than one message holds do not arrive. -/
theorem not_converges_of_many {records : List Record} (hnodup : (records.map Record.id).Nodup)
    (hkinds : ∀ r ∈ records, r.kind ∈ EXCHANGEABLE)
    (hsizes : ∀ r ∈ records, r.size ≤ MAX_BODY_BYTES) (hmany : 512 < records.length)
    (hverify : ∀ asked r, verify asked r = .ok ()) :
    Ready Peer.new (Peer.seeded records) ∧ ¬Converges Peer.new (Peer.seeded records) verify := by
  have hready := ready_seeded hsizes
  refine ⟨hready, ?_⟩
  rw [hready.converges_iff hverify]
  rintro ⟨-, -, ⟨-, hmissing⟩, -⟩
  have hall : ((Peer.seeded records).ids.filter fun id => ¬Peer.new.holds id) =
      (Peer.seeded records).ids := by
    apply List.filter_eq_self.mpr
    intro id _
    rfl
  have hsub : records.map Record.id ⊆ (Peer.seeded records).ids := by
    intro id hid
    obtain ⟨record, hrecord, rfl⟩ := List.mem_map.mp hid
    exact Peer.mem_ids.mpr (Peer.holds_seeded hkinds hrecord)
  have hle := (hnodup.subperm hsub).length_le
  rw [hall] at hmissing
  rw [List.length_map] at hle
  have hlimit : Peer.new.limits.maxRecordsPerMessage = 512 := rfl
  omega

/-! ## Accepting everything -/

/-- The closure that accepts every record. -/
def acceptAll : Verify := fun _ _ => .ok ()

/-- Peers with the default limits that wait for nothing and hold nothing too
large converge in one reconciliation exactly when every bucket can be counted
and what each lacks passes no ceiling of the other's messages. -/
theorem reconcile_converges_iff {a b : Peer} (h : Ready a b) :
    Converges a b acceptAll ↔ Countable a ∧ Countable b ∧ Fits a b ∧ Fits b a :=
  h.converges_iff fun _ _ => rfl

end Digests

/-- A peer with one record and a peer with none converge. -/
theorem reconcile_converges_sample : letI := Peer.sampleHash
    Converges Peer.new (Peer.seeded [Peer.sampleRecord]) acceptAll := by
  let _ := Peer.sampleHash
  have hready : Ready Peer.new (Peer.seeded [Peer.sampleRecord]) := by
    apply ready_seeded
    intro r hr
    obtain rfl := List.mem_singleton.mp hr
    decide
  have hone := Peer.length_ids_seeded [Peer.sampleRecord]
  have hshort : ∀ b, ((Peer.seeded [Peer.sampleRecord]).bucketIds b).length ≤ 1 :=
    fun b => (Peer.length_bucketIds_le _ b).trans hone
  refine (reconcile_converges_iff hready).mpr ⟨?_, ?_, ⟨?_, ?_⟩, ?_, ?_⟩
  · exact fun b => (by decide : 0 < UInt32.size)
  · exact fun b => lt_of_le_of_lt (hshort b) (by decide)
  · exact fun b => .inl ((hshort b).trans (by decide))
  · exact (List.length_filter_le _ _).trans (hone.trans (by decide))
  · exact fun b => .inl (Nat.zero_le _)
  · exact Nat.zero_le _

/-! ## One record more than a message holds -/

def sampleClaim (n : Nat) : Record where
  kind := "claim"
  payload := .string (String.ofList (List.replicate n 'a'))

def sampleClaims : List Record := (List.range 513).map sampleClaim

/-- A digest that tells the sample's records apart, by their length. -/
@[reducible] def lengthHash : Sha256 where
  hash data := digestOfNat data.size

theorem size_sampleClaim (n : Nat) : (sampleClaim n).payload.canonicalBytes.size = n + 2 := by
  have hescape : escapeChar 'a' = ['a'] := by decide
  have htext : (sampleClaim n).payload.canonicalString =
      String.ofList ('"' :: (List.replicate n 'a' ++ ['"'])) := by
    unfold sampleClaim Value.canonicalString
    rw [Value.write_string, writeEscaped, String.toList_ofList, List.flatMap_replicate, hescape]
    simp
  have hquote : Char.utf8Size '"' = 1 := by decide
  have hletter : Char.utf8Size 'a' = 1 := by decide
  show (sampleClaim n).payload.canonicalString.utf8ByteSize = n + 2
  rw [htext, utf8ByteSize_ofList]
  simp [hquote, hletter]
  omega

theorem digestOfNat_inj {n m : Nat} (hn : n < 65536) (hm : m < 65536)
    (h : digestOfNat n = digestOfNat m) : n = m := by
  have hlow := congrArg (fun v => v[31].toNat) h
  have hhigh := congrArg (fun v => v[30].toNat) h
  simp [digestOfNat, Nat.shiftRight_eq_div_pow] at hlow hhigh
  omega

theorem id_sampleClaim_inj {n m : Nat} (hn : n < 513) (hm : m < 513)
    (h : @Record.id lengthHash (sampleClaim n) = @Record.id lengthHash (sampleClaim m)) :
    n = m := by
  let _ := lengthHash
  have hbytes := congrArg idBytes h
  simp only [Record.id, Value.digest, idBytes_digestBytes, Option.some.injEq] at hbytes
  have hsize := digestOfNat_inj (by rw [size_sampleClaim]; omega)
    (by rw [size_sampleClaim]; omega) hbytes
  rw [size_sampleClaim, size_sampleClaim] at hsize
  omega

theorem not_reconcile_converges : letI := lengthHash
    Ready Peer.new (Peer.seeded sampleClaims) ∧
      ¬Converges Peer.new (Peer.seeded sampleClaims) acceptAll := by
  let _ := lengthHash
  have hsizes : ∀ r ∈ sampleClaims, r.size ≤ MAX_BODY_BYTES := by
    intro r hr
    obtain ⟨n, hn, rfl⟩ := List.mem_map.mp hr
    rw [List.mem_range] at hn
    rw [Record.size, size_sampleClaim]
    unfold MAX_BODY_BYTES
    omega
  have hnodup : (sampleClaims.map Record.id).Nodup := by
    rw [sampleClaims, List.map_map]
    apply List.Nodup.map_on _ List.nodup_range
    intro n hn m hm h
    exact id_sampleClaim_inj (List.mem_range.mp hn) (List.mem_range.mp hm) h
  have hkinds : ∀ r ∈ sampleClaims, r.kind ∈ EXCHANGEABLE := by
    intro r hr
    obtain ⟨n, -, rfl⟩ := List.mem_map.mp hr
    simp [sampleClaim, EXCHANGEABLE]
  have hlength : sampleClaims.length = 513 := by simp [sampleClaims]
  exact not_converges_of_many hnodup hkinds hsizes (by omega) fun _ _ => rfl

end Cairn.Ports.Sync
