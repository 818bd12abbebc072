import Cairn.Verified.BTreeMap

/-!
# The routing table

`src/dht.rs`: identifiers of 256 bits under the XOR metric, and a table of at
most `K` contacts for each highest bit in which an identifier may differ from
the node's own.

A full bucket keeps what it has. The newcomer it turns away may be pushed into
it later by `replace`, which does not look whether the newcomer has come in by
another way since.
-/

namespace Cairn.Ports.Dht

open Cairn.Verified

/-- Contacts of one distance band. -/
def K : Nat := 20

/-- Bits of an identifier. -/
def ID_BITS : Nat := 256

/-- A point of the keyspace: 32 bytes, read as one big-endian number. -/
abbrev NodeId := BitVec 256

/-- An XOR distance; its order is that of the number. -/
abbrev Distance := BitVec 256

instance linearOrderKey : LinearOrder (BitVec 256) := LinearOrder.lift' BitVec.toNat fun _ _ => BitVec.eq_of_toNat_eq

namespace NodeId

def distance (a b : NodeId) : Distance := a ^^^ b

/-- The highest bit in which the two differ; none for a node itself. -/
def bucket (a b : NodeId) : Option (Fin 256) :=
  let leading := (distance a b).clz.toNat
  if leading = ID_BITS then none
  else some ⟨ID_BITS - 1 - leading, by unfold ID_BITS; omega⟩

theorem distance_inj {a b target : NodeId} : distance a target = distance b target ↔ a = b :=
  BitVec.xor_left_inj target

theorem bucket_self (a : NodeId) : bucket a a = none := by
  have hclz := BitVec.clz_eq_iff_eq_zero.mpr (show distance a a = 0#256 from BitVec.xor_self)
  have hleading : (distance a a).clz.toNat = ID_BITS := by
    rw [hclz]
    simp [ID_BITS]
  exact if_pos hleading

end NodeId

/-! ## The table -/

/-- What the table needs of a contact. -/
class Contact (C : Type) where
  id : C → NodeId
  seq : C → UInt64

inductive Insertion (C : Type) where
  | added
  | refreshed
  | pending (probe : C)
  | ignored

/-- Buckets list what was seen longest ago first. -/
structure RoutingTable (C : Type) where
  localId : NodeId
  buckets : Fin 256 → List C

namespace RoutingTable

variable {C : Type}

def new (localId : NodeId) : RoutingTable C where
  localId
  buckets := fun _ => []

/-- The table with another bucket in the place of one. -/
def setBucket (t : RoutingTable C) (index : Fin 256) (bucket : List C) : RoutingTable C :=
  { t with buckets := Function.update t.buckets index bucket }

def contacts (t : RoutingTable C) : List C := (List.finRange 256).flatMap t.buckets

variable [Contact C]

/-- The contact is the one of this identifier. -/
def isOf (id : NodeId) (held : C) : Bool := decide (Contact.id held = id)

/-- Offer a contact. -/
def insert (t : RoutingTable C) (contact : C) : RoutingTable C × Insertion C :=
  match NodeId.bucket t.localId (Contact.id contact) with
  | none => (t, .ignored)
  | some index =>
    let bucket := t.buckets index
    match bucket.find? (isOf (Contact.id contact)) with
    | some existing =>
      let kept := if Contact.seq existing ≤ Contact.seq contact then contact else existing
      (t.setBucket index (bucket.eraseP (isOf (Contact.id contact)) ++ [kept]), .refreshed)
    | none =>
      if bucket.length < K then (t.setBucket index (bucket ++ [contact]), .added)
      else
        match bucket with
        | oldest :: _ => (t, .pending oldest)
        | [] => (t, .ignored)

/-- Push a contact in for one that is dead. -/
def replace (t : RoutingTable C) (dead : NodeId) (contact : C) : RoutingTable C × Bool :=
  match NodeId.bucket t.localId dead with
  | none => (t, false)
  | some index =>
    let bucket := t.buckets index
    if bucket.any (isOf dead) then
      (t.setBucket index (bucket.eraseP (isOf dead) ++ [contact]), true)
    else (t, false)

def remove (t : RoutingTable C) (id : NodeId) : RoutingTable C × Bool :=
  match NodeId.bucket t.localId id with
  | none => (t, false)
  | some index =>
    let bucket := t.buckets index
    if bucket.any (isOf id) then (t.setBucket index (bucket.eraseP (isOf id)), true)
    else (t, false)

/-- Nearer to the target, and of the smaller identifier where as near. -/
def Nearer (target : NodeId) (a b : C) : Prop :=
  NodeId.distance (Contact.id a) target < NodeId.distance (Contact.id b) target ∨
    (NodeId.distance (Contact.id a) target = NodeId.distance (Contact.id b) target ∧
      Contact.id a ≤ Contact.id b)

instance (target : NodeId) : DecidableRel (Nearer (C := C) target) :=
  fun _ _ => inferInstanceAs (Decidable (_ ∨ _))

def closest (t : RoutingTable C) (target : NodeId) (count : Nat) : List C :=
  (t.contacts.insertionSort (Nearer target)).take count

/-! ## A table in order -/

/-- Every contact is in the bucket of its distance from the node, no identifier
is there twice, and no bucket holds more than `K`. -/
structure Routed (t : RoutingTable C) : Prop where
  placed : ∀ index, ∀ c ∈ t.buckets index, NodeId.bucket t.localId (Contact.id c) = some index
  nodup : ∀ index, ((t.buckets index).map Contact.id).Nodup
  bounded : ∀ index, (t.buckets index).length ≤ K

variable {c contact : C} {t t' : RoutingTable C} {index : Fin 256} {id dead : NodeId}

omit [Contact C] in
theorem mem_contacts : c ∈ t.contacts ↔ ∃ index, c ∈ t.buckets index := by
  simp [contacts]

theorem routed_new (localId : NodeId) : Routed (new localId : RoutingTable C) where
  placed := fun _ _ h => by cases h
  nodup := fun _ => List.nodup_nil
  bounded := fun _ => Nat.zero_le _

/-- An identifier names one contact of a table in order. -/
theorem Routed.unique (h : t.Routed) {d : C} (hc : c ∈ t.contacts) (hd : d ∈ t.contacts)
    (hid : Contact.id c = Contact.id d) : c = d := by
  rcases mem_contacts.mp hc with ⟨index, hc⟩
  rcases mem_contacts.mp hd with ⟨other, hd⟩
  have hindex := h.placed index c hc
  rw [hid, h.placed other d hd] at hindex
  rw [Option.some.inj hindex] at hd
  exact List.inj_on_of_nodup_map (h.nodup index) hc hd hid

/-- The node itself is not in its table. -/
theorem Routed.ne_local (h : t.Routed) (hc : c ∈ t.contacts) : Contact.id c ≠ t.localId := by
  intro hid
  rcases mem_contacts.mp hc with ⟨index, hc⟩
  have hplaced := h.placed index c hc
  rw [hid, NodeId.bucket_self] at hplaced
  cases hplaced

variable {bucket : List C}

theorem Routed.setBucket (h : t.Routed)
    (hplaced : ∀ c ∈ bucket, NodeId.bucket t.localId (Contact.id c) = some index)
    (hnodup : (bucket.map Contact.id).Nodup) (hbounded : bucket.length ≤ K) :
    (t.setBucket index bucket).Routed := by
  constructor
  · intro other c hc
    unfold RoutingTable.setBucket at hc ⊢
    dsimp only at hc ⊢
    by_cases heq : other = index
    · subst heq
      rw [Function.update_self] at hc
      exact hplaced c hc
    · rw [Function.update_of_ne heq] at hc
      exact h.placed other c hc
  · intro other
    unfold RoutingTable.setBucket
    dsimp only
    by_cases heq : other = index
    · subst heq
      rw [Function.update_self]
      exact hnodup
    · rw [Function.update_of_ne heq]
      exact h.nodup other
  · intro other
    unfold RoutingTable.setBucket
    dsimp only
    by_cases heq : other = index
    · subst heq
      rw [Function.update_self]
      exact hbounded
    · rw [Function.update_of_ne heq]
      exact h.bounded other

omit [Contact C] in
theorem mem_contacts_setBucket (h : c ∈ (t.setBucket index bucket).contacts) :
    c ∈ bucket ∨ c ∈ t.contacts := by
  rcases mem_contacts.mp h with ⟨other, hc⟩
  unfold setBucket at hc
  dsimp only at hc
  by_cases heq : other = index
  · rw [heq, Function.update_self] at hc
    exact .inl hc
  · rw [Function.update_of_ne heq] at hc
    exact .inr (mem_contacts.mpr ⟨other, hc⟩)

theorem isOf_iff : isOf id c = true ↔ Contact.id c = id := decide_eq_true_iff

/-- Taking an identifier out of a bucket leaves none of it. -/
theorem ne_of_mem_eraseP (h : (bucket.map Contact.id).Nodup)
    (hc : c ∈ bucket.eraseP (isOf id)) : Contact.id c ≠ id := by
  induction bucket with
  | nil => cases hc
  | cons d bucket ih =>
    rw [List.map_cons, List.nodup_cons] at h
    by_cases hd : isOf id d = true
    · rw [List.eraseP_cons_of_pos hd] at hc
      rintro rfl
      rw [isOf_iff] at hd
      exact h.1 (hd ▸ List.mem_map_of_mem hc)
    · rw [List.eraseP_cons_of_neg hd] at hc
      rcases List.mem_cons.mp hc with rfl | hc
      · intro hid
        exact hd (isOf_iff.mpr hid)
      · exact ih h.2 hc

/-- A bucket without one identifier, and a contact of an identifier it lacks. -/
theorem nodup_push (h : (bucket.map Contact.id).Nodup)
    (hnew : ∀ c ∈ bucket, Contact.id c ≠ Contact.id contact) :
    ((bucket ++ [contact]).map Contact.id).Nodup := by
  rw [List.map_append, List.map_singleton, List.nodup_append]
  refine ⟨h, List.nodup_singleton _, ?_⟩
  intro id hid other hother
  rcases List.mem_map.mp hid with ⟨c, hc, rfl⟩
  rw [List.mem_singleton.mp hother]
  exact hnew c hc

theorem nodup_eraseP (h : (bucket.map Contact.id).Nodup) (id : NodeId) :
    ((bucket.eraseP (isOf id)).map Contact.id).Nodup :=
  h.sublist (List.eraseP_sublist.map _)

omit [Contact C] in
theorem length_eraseP_succ {p : C → Bool} (h : bucket.any p = true) :
    (bucket.eraseP p).length + 1 = bucket.length := by
  rcases List.any_eq_true.mp h with ⟨c, hc, hp⟩
  have hlength := List.length_eraseP_of_mem hc hp
  have hpos := List.length_pos_of_mem hc
  omega

/-! ## What the calls do -/

theorem Routed.insert (h : t.Routed) (contact : C) : (t.insert contact).1.Routed := by
  unfold RoutingTable.insert
  cases hbucket : NodeId.bucket t.localId (Contact.id contact) with
  | none => exact h
  | some index =>
    dsimp only
    cases hfind : (t.buckets index).find? (isOf (Contact.id contact)) with
    | some existing =>
      dsimp only
      have hkept : ∀ kept : C, Contact.id kept = Contact.id contact →
          (t.setBucket index ((t.buckets index).eraseP (isOf (Contact.id contact)) ++
            [kept])).Routed := by
        intro kept hid
        apply h.setBucket
        · intro c hc
          rcases List.mem_append.mp hc with hc | hc
          · exact h.placed index c (List.mem_of_mem_eraseP hc)
          · rw [List.mem_singleton.mp hc, hid, hbucket]
        · apply nodup_push (nodup_eraseP (h.nodup index) _)
          rw [hid]
          exact fun c hc => ne_of_mem_eraseP (h.nodup index) hc
        · have hany : (t.buckets index).any (isOf (Contact.id contact)) = true :=
            List.any_eq_true.mpr ⟨existing, List.mem_of_find?_eq_some hfind,
              List.find?_some hfind⟩
          rw [List.length_append, List.length_singleton, length_eraseP_succ hany]
          exact h.bounded index
      apply hkept
      split_ifs
      · rfl
      · exact isOf_iff.mp (List.find?_some hfind)
    | none =>
      dsimp only
      split
      · rename_i hroom
        apply h.setBucket
        · intro c hc
          rcases List.mem_append.mp hc with hc | hc
          · exact h.placed index c hc
          · rw [List.mem_singleton.mp hc, hbucket]
        · apply nodup_push (h.nodup index)
          intro c hc hid
          exact List.find?_eq_none.mp hfind c hc (isOf_iff.mpr hid)
        · rw [List.length_append, List.length_singleton]
          exact hroom
      · split <;> exact h

/-- What an offer leaves in the table: what was there, and the contact. -/
theorem mem_contacts_insert (hc : c ∈ (t.insert contact).1.contacts) :
    c ∈ t.contacts ∨ c = contact := by
  unfold insert at hc
  cases hbucket : NodeId.bucket t.localId (Contact.id contact) with
  | none =>
    rw [hbucket] at hc
    exact .inl hc
  | some index =>
    rw [hbucket] at hc
    dsimp only at hc
    cases hfind : (t.buckets index).find? (isOf (Contact.id contact)) with
    | some existing =>
      rw [hfind] at hc
      dsimp only at hc
      rcases mem_contacts_setBucket hc with hc | hc
      · rcases List.mem_append.mp hc with hc | hc
        · exact .inl (mem_contacts.mpr ⟨index, List.mem_of_mem_eraseP hc⟩)
        · rw [List.mem_singleton.mp hc]
          split_ifs
          · exact .inr rfl
          · exact .inl (mem_contacts.mpr ⟨index, List.mem_of_find?_eq_some hfind⟩)
      · exact .inl hc
    | none =>
      rw [hfind] at hc
      dsimp only at hc
      split at hc
      · rcases mem_contacts_setBucket hc with hc | hc
        · rcases List.mem_append.mp hc with hc | hc
          · exact .inl (mem_contacts.mpr ⟨index, hc⟩)
          · exact .inr (List.mem_singleton.mp hc)
        · exact .inl hc
      · split at hc <;> exact .inl hc

/-- A newcomer that is not there yet, of the bucket of the dead contact, may take
its place. -/
theorem Routed.replace (h : t.Routed)
    (hsame : NodeId.bucket t.localId (Contact.id contact) = NodeId.bucket t.localId dead)
    (hnew : ∀ c ∈ t.contacts, Contact.id c ≠ Contact.id contact) :
    (t.replace dead contact).1.Routed := by
  unfold RoutingTable.replace
  cases hbucket : NodeId.bucket t.localId dead with
  | none => exact h
  | some index =>
    dsimp only
    split
    · rename_i hany
      apply h.setBucket
      · intro c hc
        rcases List.mem_append.mp hc with hc | hc
        · exact h.placed index c (List.mem_of_mem_eraseP hc)
        · rw [List.mem_singleton.mp hc, hsame, hbucket]
      · apply nodup_push (nodup_eraseP (h.nodup index) _)
        intro c hc
        exact hnew c (mem_contacts.mpr ⟨index, List.mem_of_mem_eraseP hc⟩)
      · rw [List.length_append, List.length_singleton, length_eraseP_succ hany]
        exact h.bounded index
    · exact h

theorem replace_of_absent (h : ∀ c ∈ t.contacts, Contact.id c ≠ dead) :
    (t.replace dead contact).1 = t := by
  unfold replace
  cases NodeId.bucket t.localId dead with
  | none => rfl
  | some index =>
    dsimp only
    have hany : ¬(t.buckets index).any (isOf dead) = true := by
      intro hany
      rcases List.any_eq_true.mp hany with ⟨c, hc, hof⟩
      exact h c (mem_contacts.mpr ⟨index, hc⟩) (isOf_iff.mp hof)
    rw [if_neg hany]

theorem mem_contacts_replace (hc : c ∈ (t.replace dead contact).1.contacts) :
    c ∈ t.contacts ∨ c = contact := by
  unfold replace at hc
  cases hbucket : NodeId.bucket t.localId dead with
  | none =>
    rw [hbucket] at hc
    exact .inl hc
  | some index =>
    rw [hbucket] at hc
    dsimp only at hc
    split at hc
    · rcases mem_contacts_setBucket hc with hc | hc
      · rcases List.mem_append.mp hc with hc | hc
        · exact .inl (mem_contacts.mpr ⟨index, List.mem_of_mem_eraseP hc⟩)
        · exact .inr (List.mem_singleton.mp hc)
      · exact .inl hc
    · exact .inl hc

theorem Routed.remove (h : t.Routed) (id : NodeId) : (t.remove id).1.Routed := by
  unfold RoutingTable.remove
  cases hbucket : NodeId.bucket t.localId id with
  | none => exact h
  | some index =>
    dsimp only
    split
    · apply h.setBucket
      · exact fun c hc => h.placed index c (List.mem_of_mem_eraseP hc)
      · exact nodup_eraseP (h.nodup index) _
      · exact (List.eraseP_sublist.length_le).trans (h.bounded index)
    · exact h

theorem mem_contacts_remove (hc : c ∈ (t.remove id).1.contacts) : c ∈ t.contacts := by
  unfold remove at hc
  cases hbucket : NodeId.bucket t.localId id with
  | none =>
    rw [hbucket] at hc
    exact hc
  | some index =>
    rw [hbucket] at hc
    dsimp only at hc
    split at hc
    · rcases mem_contacts_setBucket hc with hc | hc
      · exact mem_contacts.mpr ⟨index, List.mem_of_mem_eraseP hc⟩
      · exact hc
    · exact hc

/-! ## What stays -/

omit [Contact C] in
theorem mem_contacts_of_setBucket (h : c ∈ bucket) :
    c ∈ (t.setBucket index bucket).contacts := by
  refine mem_contacts.mpr ⟨index, ?_⟩
  unfold setBucket
  dsimp only
  rwa [Function.update_self]

omit [Contact C] in
/-- A contact is still there, or it was in the bucket that has changed. -/
theorem mem_setBucket_or (h : c ∈ t.contacts) (index : Fin 256) (bucket : List C) :
    c ∈ (t.setBucket index bucket).contacts ∨ c ∈ t.buckets index := by
  rcases mem_contacts.mp h with ⟨other, hc⟩
  by_cases heq : other = index
  · exact .inr (heq ▸ hc)
  · refine .inl (mem_contacts.mpr ⟨other, ?_⟩)
    unfold setBucket
    dsimp only
    rwa [Function.update_of_ne heq]

/-- Whoever was in the table is in it still, with a record as fresh. -/
def Grows (t t' : RoutingTable C) : Prop :=
  ∀ c ∈ t.contacts, ∃ c' ∈ t'.contacts, Contact.id c' = Contact.id c ∧
    Contact.seq c ≤ Contact.seq c'

/-- Whoever was in the table and is in it still has a record as fresh. -/
def SeqKept (t t' : RoutingTable C) : Prop :=
  ∀ c ∈ t.contacts, ∀ c' ∈ t'.contacts, Contact.id c' = Contact.id c →
    Contact.seq c ≤ Contact.seq c'

theorem Grows.refl (t : RoutingTable C) : t.Grows t :=
  fun c hc => ⟨c, hc, rfl, UInt64.le_refl _⟩

theorem Grows.trans {t'' : RoutingTable C} (h : t.Grows t') (h' : t'.Grows t'') : t.Grows t'' := by
  intro c hc
  rcases h c hc with ⟨c', hc', hid, hseq⟩
  rcases h' c' hc' with ⟨c'', hc'', hid', hseq'⟩
  exact ⟨c'', hc'', hid'.trans hid, UInt64.le_trans hseq hseq'⟩

theorem Grows.seqKept (h : t.Grows t') (hrouted : t'.Routed) : t.SeqKept t' := by
  intro c hc c' hc' hid
  rcases h c hc with ⟨d, hd, hsame, hseq⟩
  rw [hrouted.unique hc' hd (hid.trans hsame.symm)]
  exact hseq

/-- A table out of which contacts are only taken. -/
theorem Routed.seqKept_of_subset (h : t.Routed) (hsub : ∀ c ∈ t'.contacts, c ∈ t.contacts) :
    t.SeqKept t' := by
  intro c hc c' hc' hid
  rw [h.unique (hsub c' hc') hc hid]
  exact UInt64.le_refl _

theorem Routed.grows_insert (h : t.Routed) (contact : C) : t.Grows (t.insert contact).1 := by
  intro c hc
  unfold RoutingTable.insert
  cases hbucket : NodeId.bucket t.localId (Contact.id contact) with
  | none => exact ⟨c, hc, rfl, UInt64.le_refl _⟩
  | some index =>
    dsimp only
    cases hfind : (t.buckets index).find? (isOf (Contact.id contact)) with
    | some existing =>
      dsimp only
      have hid := isOf_iff.mp (List.find?_some hfind)
      have hin := List.mem_of_find?_eq_some hfind
      -- the record the bucket keeps is as fresh as the one it had
      have hkept : ∃ c' ∈ (t.setBucket index
          ((t.buckets index).eraseP (isOf (Contact.id contact)) ++
            [if Contact.seq existing ≤ Contact.seq contact then contact else existing])).contacts,
          Contact.id c' = Contact.id existing ∧ Contact.seq existing ≤ Contact.seq c' := by
        refine ⟨_, mem_contacts_of_setBucket (List.mem_append_right _ (List.mem_singleton.mpr rfl)),
          ?_⟩
        split_ifs with hseq
        · exact ⟨hid.symm, hseq⟩
        · exact ⟨rfl, UInt64.le_refl _⟩
      by_cases heq : Contact.id c = Contact.id contact
      · rw [h.unique hc (mem_contacts.mpr ⟨index, hin⟩) (heq.trans hid.symm)]
        exact hkept
      · rcases mem_setBucket_or hc index ((t.buckets index).eraseP (isOf (Contact.id contact)) ++
          [if Contact.seq existing ≤ Contact.seq contact then contact else existing]) with
          hstill | hold
        · exact ⟨c, hstill, rfl, UInt64.le_refl _⟩
        · have hne : ¬isOf (Contact.id contact) c = true := fun hof => heq (isOf_iff.mp hof)
          exact ⟨c, mem_contacts_of_setBucket (List.mem_append_left _
            ((List.mem_eraseP_of_neg hne).mpr hold)), rfl, UInt64.le_refl _⟩
    | none =>
      dsimp only
      split
      · rcases mem_setBucket_or hc index (t.buckets index ++ [contact]) with hstill | hold
        · exact ⟨c, hstill, rfl, UInt64.le_refl _⟩
        · exact ⟨c, mem_contacts_of_setBucket (List.mem_append_left _ hold), rfl,
            UInt64.le_refl _⟩
      · split <;> exact ⟨c, hc, rfl, UInt64.le_refl _⟩

/-- No call moves the node itself. -/
theorem localId_insert (t : RoutingTable C) (contact : C) :
    (t.insert contact).1.localId = t.localId := by
  unfold insert
  split
  · rfl
  · dsimp only
    split
    · rfl
    · split
      · rfl
      · split <;> rfl

theorem localId_replace (t : RoutingTable C) (dead : NodeId) (contact : C) :
    (t.replace dead contact).1.localId = t.localId := by
  unfold replace
  split
  · rfl
  · dsimp only
    split <;> rfl

theorem localId_remove (t : RoutingTable C) (id : NodeId) :
    (t.remove id).1.localId = t.localId := by
  unfold remove
  split
  · rfl
  · dsimp only
    split <;> rfl

/-- A contact that is turned away shares its bucket with the one it waits behind,
and is not that one. -/
theorem Routed.bucket_of_pending (h : t.Routed) {probe : C}
    (hpending : (t.insert contact).2 = .pending probe) :
    NodeId.bucket t.localId (Contact.id contact) = NodeId.bucket t.localId (Contact.id probe) ∧
      Contact.id contact ≠ Contact.id probe := by
  unfold RoutingTable.insert at hpending
  cases hbucket : NodeId.bucket t.localId (Contact.id contact) with
  | none =>
    rw [hbucket] at hpending
    cases hpending
  | some index =>
    rw [hbucket] at hpending
    dsimp only at hpending
    cases hfind : (t.buckets index).find? (isOf (Contact.id contact)) with
    | some existing =>
      rw [hfind] at hpending
      cases hpending
    | none =>
      rw [hfind] at hpending
      dsimp only at hpending
      split at hpending
      · cases hpending
      · cases hlist : t.buckets index with
        | nil =>
          rw [hlist] at hpending
          cases hpending
        | cons oldest rest =>
          rw [hlist] at hpending
          have hprobe : oldest = probe := Insertion.pending.inj hpending
          subst hprobe
          have hin : oldest ∈ t.buckets index := by
            rw [hlist]
            exact List.mem_cons_self
          refine ⟨(h.placed index oldest hin).symm, fun hid => ?_⟩
          exact List.find?_eq_none.mp hfind oldest hin (isOf_iff.mpr hid.symm)

/-- The newcomer of a slot that is there already is there twice. -/
theorem not_routed_replace (h : t.Routed)
    (hsame : NodeId.bucket t.localId (Contact.id contact) = NodeId.bucket t.localId dead)
    (hne : Contact.id contact ≠ dead) (hdead : ∃ d ∈ t.contacts, Contact.id d = dead)
    (hc : c ∈ t.contacts) (hid : Contact.id c = Contact.id contact) :
    ¬(t.replace dead contact).1.Routed := by
  rcases hdead with ⟨d, hd, rfl⟩
  rcases mem_contacts.mp hd with ⟨index, hin⟩
  have hindex := h.placed index d hin
  have hany : (t.buckets index).any (isOf (Contact.id d)) = true :=
    List.any_eq_true.mpr ⟨d, hin, isOf_iff.mpr rfl⟩
  have hcin : c ∈ t.buckets index := by
    rcases mem_contacts.mp hc with ⟨other, hother⟩
    have hplaced := h.placed other c hother
    rw [hid, hsame, hindex] at hplaced
    rwa [Option.some.inj hplaced]
  have hstill : c ∈ (t.buckets index).eraseP (isOf (Contact.id d)) := by
    apply (List.mem_eraseP_of_neg _).mpr hcin
    intro hof
    exact hne (hid.symm.trans (isOf_iff.mp hof))
  intro hrouted
  have hnodup := hrouted.nodup index
  unfold replace at hnodup
  rw [hindex] at hnodup
  dsimp only at hnodup
  rw [if_pos hany] at hnodup
  unfold setBucket at hnodup
  dsimp only at hnodup
  rw [Function.update_self, List.map_append, List.nodup_append] at hnodup
  exact hnodup.2.2 (Contact.id c) (List.mem_map_of_mem hstill) (Contact.id contact)
    (List.mem_map_of_mem (List.mem_singleton.mpr rfl)) hid

/-! ## The nearest -/

theorem nearer_total (target : NodeId) (a b : C) : Nearer target a b ∨ Nearer target b a := by
  unfold Nearer
  rcases lt_trichotomy (NodeId.distance (Contact.id a) target)
    (NodeId.distance (Contact.id b) target) with h | h | h
  · exact .inl (.inl h)
  · rcases le_total (Contact.id a) (Contact.id b) with hle | hle
    · exact .inl (.inr ⟨h, hle⟩)
    · exact .inr (.inr ⟨h.symm, hle⟩)
  · exact .inr (.inl h)

theorem nearer_trans (target : NodeId) {a b : C} (hab : Nearer target a b) (hbc : Nearer target b c) :
    Nearer target a c := by
  unfold Nearer at *
  rcases hab with hab | ⟨hab, hid⟩
  · rcases hbc with hbc | ⟨hbc, -⟩
    · exact .inl (hab.trans hbc)
    · exact .inl (hbc ▸ hab)
  · rw [hab]
    rcases hbc with hbc | ⟨hbc, hid'⟩
    · exact .inl hbc
    · exact .inr ⟨hbc, hid.trans hid'⟩

/-- The identifiers of a table in order are distinct. -/
theorem Routed.nodup_contacts (h : t.Routed) : (t.contacts.map Contact.id).Nodup := by
  rw [contacts, List.map_flatMap, List.nodup_flatMap]
  refine ⟨fun index _ => h.nodup index, ?_⟩
  apply (List.nodup_finRange 256).imp
  intro index other hne id hid hid'
  rcases List.mem_map.mp hid with ⟨c, hc, rfl⟩
  rcases List.mem_map.mp hid' with ⟨d, hd, hsame⟩
  have hplaced := h.placed index c hc
  rw [← hsame, h.placed other d hd] at hplaced
  exact hne (Option.some.inj hplaced).symm

/-- The answer of a table in order: that many contacts of it, in strictly
increasing distance, and none left out that is nearer than one of them. -/
theorem Routed.closest_spec (h : t.Routed) (target : NodeId) (count : Nat) :
    (t.closest target count).length = min count t.contacts.length ∧
      ((t.closest target count).map Contact.id).Nodup ∧
      (t.closest target count).Pairwise (fun a b =>
        NodeId.distance (Contact.id a) target < NodeId.distance (Contact.id b) target) ∧
      (∀ c ∈ t.closest target count, c ∈ t.contacts) ∧
      ∀ c ∈ t.contacts, c ∉ t.closest target count → ∀ a ∈ t.closest target count,
        NodeId.distance (Contact.id a) target < NodeId.distance (Contact.id c) target := by
  have hperm : (t.contacts.insertionSort (Nearer target)).Perm t.contacts :=
    List.perm_insertionSort _ _
  have hnodup : ((t.contacts.insertionSort (Nearer target)).map Contact.id).Nodup :=
    (hperm.map _).nodup_iff.mpr h.nodup_contacts
  have hsorted : (t.contacts.insertionSort (Nearer target)).Pairwise fun a b =>
      NodeId.distance (Contact.id a) target < NodeId.distance (Contact.id b) target := by
    have : Std.Total (α := C) (Nearer target) := ⟨nearer_total target⟩
    have : IsTrans C (Nearer target) := ⟨fun _ _ _ => nearer_trans target⟩
    have hpair := (List.pairwise_insertionSort (Nearer target) t.contacts).and
      (List.pairwise_map.mp hnodup)
    apply hpair.imp
    rintro a b ⟨hlt | ⟨heq, -⟩, hne⟩
    · exact hlt
    · exact absurd (NodeId.distance_inj.mp heq) hne
  have hsub := (List.take_sublist count (t.contacts.insertionSort (Nearer target)))
  refine ⟨?_, hnodup.sublist (hsub.map _), hsorted.sublist hsub, ?_, ?_⟩
  · rw [closest, List.length_take, hperm.length_eq]
  · exact fun c hc => hperm.mem_iff.mp (hsub.subset hc)
  · intro c hc hout a ha
    have hin := hperm.mem_iff.mpr hc
    rw [← List.take_append_drop count (t.contacts.insertionSort (Nearer target)),
      List.mem_append] at hin
    have hdrop := hin.resolve_left hout
    rw [← List.take_append_drop count (t.contacts.insertionSort (Nearer target)),
      List.pairwise_append] at hsorted
    exact hsorted.2.2 a ha c hdrop

/-- All that is asked of a table: who is where, that nobody is there twice, and
what it answers. -/
structure Sound (t : RoutingTable C) : Prop where
  placed : ∀ index, ∀ c ∈ t.buckets index, NodeId.bucket t.localId (Contact.id c) = some index
  ne_local : ∀ c ∈ t.contacts, Contact.id c ≠ t.localId
  nodup : (t.contacts.map Contact.id).Nodup
  bounded : ∀ index, (t.buckets index).length ≤ K
  closest : ∀ target count, (t.closest target count).length = min count t.contacts.length ∧
    ((t.closest target count).map Contact.id).Nodup ∧
    (t.closest target count).Pairwise (fun a b =>
      NodeId.distance (Contact.id a) target < NodeId.distance (Contact.id b) target) ∧
    (∀ c ∈ t.closest target count, c ∈ t.contacts) ∧
    ∀ c ∈ t.contacts, c ∉ t.closest target count → ∀ a ∈ t.closest target count,
      NodeId.distance (Contact.id a) target < NodeId.distance (Contact.id c) target

/-- A table in order is sound, and a sound one is in order. -/
theorem sound_iff : t.Sound ↔ t.Routed := by
  constructor
  · intro h
    refine ⟨h.placed, fun index => ?_, h.bounded⟩
    have hnodup := h.nodup
    rw [contacts, List.map_flatMap, List.nodup_flatMap] at hnodup
    exact hnodup.1 index (List.mem_finRange index)
  · intro h
    exact ⟨h.placed, fun c hc => h.ne_local hc, h.nodup_contacts, h.bounded, h.closest_spec⟩

end RoutingTable

end Cairn.Ports.Dht
