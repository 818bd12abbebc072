import Cairn.Ports.P2p.Directory
import Mathlib.Algebra.BigOperators.Group.Finset.Basic
import Mathlib.Algebra.Order.BigOperators.Group.Finset

/-!
# Whom the lookups wait for

Every contact that `next_hops` returns is answered for once, by `on_providers` or
by `on_unreachable`. A lookup waits for the contacts it has in flight, so it must
have none in flight but those that were returned and are not answered for yet.

`next_hops` books all the contacts its lookups name and then cuts the list to its
limit. As long as nothing is cut, a lookup that is not done and waits for nobody
names somebody; over finitely many contacts it does so finitely often, since each
time a contact has its turn or has been passed over once more.
-/

namespace Cairn.Ports.Dht

open Cairn.Verified

/-! ## One lookup -/

namespace Lookup

variable {C P : Type} [Contact C] [Provider P]

/-- What a lookup has of its own stays what it is. -/
structure Same (l l' : Lookup C P) : Prop where
  shortlist : l'.shortlist = l.shortlist
  alpha : l'.alpha = l.alpha
  k : l'.k = l.k

variable {l l' : Lookup C P}

omit [Contact C] [Provider P] in
theorem Same.trans {l'' : Lookup C P} (h : l.Same l') (h' : l'.Same l'') : l.Same l'' :=
  ⟨h'.shortlist.trans h.shortlist, h'.alpha.trans h.alpha, h'.k.trans h.k⟩

omit [Contact C] [Provider P] in
theorem Same.live {l l' : Lookup C P} (h : l.Same l') (hlive : l.Live) : l'.Live :=
  ⟨h.alpha ▸ hlive.alpha, h.k ▸ hlive.k⟩

omit [Provider P] in
theorem Same.within (h : l.Same l') {known : Finset NodeId} (hwithin : l.Within known) :
    l'.Within known := by
  unfold Within
  rw [h.shortlist]
  exact hwithin

omit [Provider P] in
theorem Within.closest {known : Finset NodeId} (h : l.Within known) {contact : C}
    (hc : contact ∈ l.closest) : Contact.id contact ∈ known := h contact (List.mem_of_mem_take hc)

/-- What an answer changes. -/
theorem onResponse_spec (l : Lookup C P) (sender : NodeId) (closer : List C) (providers : List P) :
    (l.onResponse sender closer providers).inFlight = l.inFlight.erase sender ∧
      (l.onResponse sender closer providers).queried = insert sender l.queried ∧
      (l.onResponse sender closer providers).alpha = l.alpha ∧
      (l.onResponse sender closer providers).k = l.k ∧
      ∀ known : Finset NodeId, l.Within known → (∀ c ∈ closer, Contact.id c ∈ known) →
        (l.onResponse sender closer providers).Within known := by
  rcases foldl_consider closer
    { l with inFlight := l.inFlight.erase sender, queried := insert sender l.queried } with
    ⟨hqueried, hflight, halpha, hk, hwithin⟩
  exact ⟨hflight, hqueried, halpha, hk, fun known h hin => hwithin known h hin⟩

omit [Contact C] [Provider P] in
/-- Nothing that was spent is given back by an answer, or for want of one. -/
theorem spent_erase_insert (l : Lookup C P) (sender : NodeId) :
    l.spent ⊆ insert sender l.queried ∪ l.inFlight.erase sender := by
  intro id hid
  unfold spent at hid
  rcases Finset.mem_union.mp hid with hqueried | hflight
  · exact Finset.mem_union_left _ (Finset.mem_insert_of_mem hqueried)
  · by_cases heq : id = sender
    · rw [heq]
      exact Finset.mem_union_left _ (Finset.mem_insert_self _ _)
    · exact Finset.mem_union_right _ (Finset.mem_erase.mpr ⟨heq, hflight⟩)

/-- A lookup after it has heard of some contacts, or waits for one less. -/
structure Advances (heard : List C) (l l' : Lookup C P) : Prop where
  alpha : l'.alpha = l.alpha
  k : l'.k = l.k
  inFlight : l'.inFlight ⊆ l.inFlight
  spent : l.spent ⊆ l'.spent
  within : ∀ known : Finset NodeId, (∀ c ∈ heard, Contact.id c ∈ known) → l.Within known →
    l'.Within known

omit [Provider P] in
theorem Advances.refl (heard : List C) (l : Lookup C P) : Advances heard l l :=
  ⟨rfl, rfl, Finset.Subset.refl _, Finset.Subset.refl _, fun _ _ h => h⟩

omit [Provider P] in
theorem Advances.trans {heard heard' : List C} {l'' : Lookup C P} (h : Advances heard l l')
    (h' : Advances heard' l' l'') : Advances (heard ++ heard') l l'' where
  alpha := h'.alpha.trans h.alpha
  k := h'.k.trans h.k
  inFlight := h'.inFlight.trans h.inFlight
  spent := h.spent.trans h'.spent
  within := fun known hin hwithin =>
    h'.within known (fun c hc => hin c (List.mem_append_right _ hc))
      (h.within known (fun c hc => hin c (List.mem_append_left _ hc)) hwithin)

omit [Provider P] in
theorem Advances.live {heard : List C} {l l' : Lookup C P} (h : Advances heard l l')
    (hlive : l.Live) : l'.Live := ⟨h.alpha ▸ hlive.alpha, h.k ▸ hlive.k⟩

theorem advances_onResponse (l : Lookup C P) (sender : NodeId) (closer : List C)
    (providers : List P) : Advances closer l (l.onResponse sender closer providers) := by
  rcases l.onResponse_spec sender closer providers with ⟨hflight, hqueried, halpha, hk, hwithin⟩
  refine ⟨halpha, hk, ?_, ?_, fun known hin h => hwithin known h hin⟩
  · rw [hflight]
    exact Finset.erase_subset _ _
  · have hspent := l.spent_erase_insert sender
    unfold spent at hspent ⊢
    rw [hflight, hqueried]
    exact hspent

omit [Provider P] in
theorem advances_onTimeout (l : Lookup C P) (sender : NodeId) :
    Advances [] l (l.onTimeout sender) :=
  ⟨rfl, rfl, Finset.erase_subset _ _, l.spent_erase_insert sender, fun _ _ h => h⟩

end Lookup

/-! ## What is owed -/

variable {Addr : Type}

/-- The contact owes the lookup of this address an answer. -/
def Owes (outstanding : BTreeMap NodeId Addresses) (id : NodeId) (address : String) : Prop :=
  ((outstanding.get? id).getD .empty).containsKey address = true

theorem Owes.mem_keys {outstanding : BTreeMap NodeId Addresses} {id : NodeId} {address : String}
    (h : Owes outstanding id address) :
    address ∈ ((outstanding.get? id).getD .empty).keys := by
  rw [BTreeMap.mem_keys]
  exact BTreeMap.containsKey_iff.mp h

theorem Owes.of_ne {outstanding : BTreeMap NodeId Addresses} {id sender : NodeId} {address : String}
    (h : Owes outstanding id address) (hne : id ≠ sender) :
    Owes (outstanding.remove sender) id address := by
  unfold Owes
  rw [BTreeMap.get?_remove, if_neg hne]
  exact h

/-- A contact is passed over no less often. -/
def Counted (deferrals deferrals' : BTreeMap NodeId Nat) : Prop :=
  ∀ id, (deferrals.get? id).getD 0 ≤ (deferrals'.get? id).getD 0

namespace Directory

/-! ## One hop -/

variable {address other : String} {h : Hops Addr} {l : Lookup (PeerContact Addr) (Holder Addr)}
  {addresses : List String} {awaiting known : Finset NodeId} {dialable : NodeId → Bool}
  {d d' : Directory Addr} {due : Prop}

/-- What one contact of a lookup changes: it is booked, or passed over. -/
theorem hop_cases (dialable : NodeId → Bool) (hl : h.lookups.get? address = some l)
    (contact : PeerContact Addr) :
    (dialable contact.id = true ∧ (hop dialable address h contact).lookups = h.lookups ∧
        (hop dialable address h contact).outstanding = h.outstanding.insert contact.id
          (((h.outstanding.get? contact.id).getD .empty).insert address ()) ∧
        (hop dialable address h contact).deferrals = h.deferrals ∧
        (hop dialable address h contact).seen = insert contact.id h.seen ∧
        (hop dialable address h contact).chosen =
          if contact.id ∈ h.seen then h.chosen else h.chosen ++ [contact]) ∨
      (dialable contact.id = false ∧
        (hop dialable address h contact).outstanding = h.outstanding ∧
        (hop dialable address h contact).deferrals = h.deferrals.insert contact.id
          ((h.deferrals.get? contact.id).getD 0 + 1) ∧
        (hop dialable address h contact).seen = h.seen ∧
        (hop dialable address h contact).chosen = h.chosen ∧
        ((hop dialable address h contact).lookups =
            h.lookups.insert address (l.onTimeout contact.id) ∨
          (h.deferrals.get? contact.id).getD 0 < MAX_DEFERRALS ∧
            (hop dialable address h contact).lookups =
              h.lookups.insert address (l.defer contact.id))) := by
  unfold hop
  cases hdial : dialable contact.id with
  | true => exact .inl ⟨rfl, rfl, rfl, rfl, rfl, rfl⟩
  | false =>
    rw [hl]
    by_cases hoften : MAX_DEFERRALS < (h.deferrals.get? contact.id).getD 0 + 1
    · simp only [Bool.not_false, if_true, if_pos hoften]
      exact .inr ⟨trivial, trivial, trivial, trivial, trivial, .inl trivial⟩
    · simp only [Bool.not_false, if_true, if_neg hoften]
      exact .inr ⟨trivial, trivial, trivial, trivial, trivial, .inr ⟨by omega, trivial⟩⟩

theorem lookups_hop_ne (dialable : NodeId → Bool) (hne : other ≠ address) (h : Hops Addr)
    (contact : PeerContact Addr) :
    (hop dialable address h contact).lookups.get? other = h.lookups.get? other := by
  unfold hop
  split
  · dsimp only
    split
    · rfl
    · split
      · exact (BTreeMap.get?_insert ..).trans (if_neg hne)
      · exact (BTreeMap.get?_insert ..).trans (if_neg hne)
  · rfl

theorem lookups_foldl_hop_ne (dialable : NodeId → Bool) (hne : other ≠ address)
    (contacts : List (PeerContact Addr)) (h : Hops Addr) :
    (contacts.foldl (hop dialable address) h).lookups.get? other = h.lookups.get? other := by
  induction contacts generalizing h with
  | nil => rfl
  | cons contact contacts ih =>
    rw [List.foldl_cons, ih, lookups_hop_ne dialable hne]

theorem lookups_hopsOf_ne (dialable : NodeId → Bool) (hne : other ≠ address) (h : Hops Addr) :
    (hopsOf dialable h address).lookups.get? other = h.lookups.get? other := by
  unfold hopsOf
  split
  · rfl
  · dsimp only
    rw [lookups_foldl_hop_ne dialable hne]
    exact (BTreeMap.get?_insert ..).trans (if_neg hne)

theorem lookups_foldl_hopsOf_ne (dialable : NodeId → Bool) (hout : other ∉ addresses)
    (h : Hops Addr) :
    (addresses.foldl (hopsOf dialable) h).lookups.get? other = h.lookups.get? other := by
  induction addresses generalizing h with
  | nil => rfl
  | cons address addresses ih =>
    rw [List.mem_cons, not_or] at hout
    rw [List.foldl_cons, ih hout.2, lookups_hopsOf_ne dialable hout.1]

/-! ## What is booked -/

/-- Whoever is in flight is awaited or chosen and owes the lookup an answer, but
for those still to be booked; and those chosen are among the named, each once. -/
structure Booked (awaiting named : Finset NodeId) (unbooked : String → NodeId → Prop)
    (h : Hops Addr) : Prop where
  live : ∀ address l, h.lookups.get? address = some l → l.Live
  booked : ∀ address l, h.lookups.get? address = some l → ∀ id ∈ l.inFlight,
    unbooked address id ∨ (id ∈ awaiting ∨ id ∈ h.seen) ∧ Owes h.outstanding id address
  seen : ∀ id ∈ h.seen, ∃ c ∈ h.chosen, c.id = id
  chosen : ∀ c ∈ h.chosen, c.id ∈ h.seen ∧ c.id ∈ named
  nodup : (h.chosen.map PeerContact.id).Nodup

/-- Whoever owes still does when one more is booked. -/
theorem owes_insert {outstanding : BTreeMap NodeId Addresses} {id : NodeId}
    (h : Owes outstanding id address) (peer : NodeId) (other : String) :
    Owes (outstanding.insert peer (((outstanding.get? peer).getD .empty).insert other ()))
      id address := by
  unfold Owes at h ⊢
  rw [BTreeMap.get?_insert]
  by_cases hid : id = peer
  · subst hid
    rw [if_pos rfl, Option.getD_some]
    unfold BTreeMap.containsKey at h ⊢
    rw [BTreeMap.get?_insert]
    split
    · rfl
    · exact h
  · rw [if_neg hid]
    exact h

theorem owes_insert_self (outstanding : BTreeMap NodeId Addresses) (peer : NodeId)
    (address : String) :
    Owes (outstanding.insert peer (((outstanding.get? peer).getD .empty).insert address ()))
      peer address := by
  unfold Owes BTreeMap.containsKey
  rw [BTreeMap.get?_insert, if_pos rfl, Option.getD_some, BTreeMap.get?_insert, if_pos rfl]
  rfl

variable {contact : PeerContact Addr}

/-- A contact of a lookup that is booked or passed over is not left to be booked. -/
theorem Booked.hop {awaiting named : Finset NodeId} {unbooked unbooked' : String → NodeId → Prop}
    {h : Hops Addr} (hbooked : Booked awaiting named unbooked h) {dialable : NodeId → Bool}
    {address : String} {l : Lookup (PeerContact Addr) (Holder Addr)}
    (hl : h.lookups.get? address = some l)
    (hnamed : dialable contact.id = true → contact.id ∈ named)
    (hrest : ∀ other id, unbooked other id →
      unbooked' other id ∨ other = address ∧ id = contact.id) :
    Booked awaiting named unbooked' (hop dialable address h contact) := by
  rcases hop_cases dialable hl contact with
    ⟨hdial, hlookups, howed, -, hseen, hchosen⟩ | ⟨hdial, howed, -, hseen, hchosen, hlookups⟩
  · refine ⟨?_, ?_, ?_, ?_, ?_⟩
    · rw [hlookups]
      exact hbooked.live
    · intro other l' hl' id hid
      rw [hlookups] at hl'
      rw [howed, hseen]
      rcases hbooked.booked other l' hl' id hid with hopen | ⟨hknown, howes⟩
      · rcases hrest other id hopen with hstill | ⟨rfl, rfl⟩
        · exact .inl hstill
        · exact .inr ⟨.inr (Finset.mem_insert_self _ _), owes_insert_self _ _ _⟩
      · refine .inr ⟨?_, owes_insert howes _ _⟩
        exact hknown.imp_right fun hin => Finset.mem_insert_of_mem hin
    · intro id hid
      rw [hseen] at hid
      rw [hchosen]
      split_ifs with hin
      · rcases Finset.mem_insert.mp hid with rfl | hold
        · exact hbooked.seen _ hin
        · exact hbooked.seen id hold
      · rcases Finset.mem_insert.mp hid with rfl | hold
        · exact ⟨contact, List.mem_append_right _ (List.mem_singleton.mpr rfl), rfl⟩
        · rcases hbooked.seen id hold with ⟨c, hc, hcid⟩
          exact ⟨c, List.mem_append_left _ hc, hcid⟩
    · intro c hc
      rw [hchosen] at hc
      rw [hseen]
      have hold : c ∈ h.chosen → c.id ∈ insert contact.id h.seen ∧ c.id ∈ named := by
        intro hin
        rcases hbooked.chosen c hin with ⟨hcseen, hcnamed⟩
        exact ⟨Finset.mem_insert_of_mem hcseen, hcnamed⟩
      split_ifs at hc
      · exact hold hc
      · rcases List.mem_append.mp hc with hin | hnew
        · exact hold hin
        · rw [List.mem_singleton.mp hnew]
          exact ⟨Finset.mem_insert_self _ _, hnamed hdial⟩
    · rw [hchosen]
      split_ifs with hin
      · exact hbooked.nodup
      · rw [List.map_append, List.map_singleton, List.nodup_append]
        refine ⟨hbooked.nodup, List.nodup_singleton _, ?_⟩
        intro id hid other hother heq
        rcases List.mem_map.mp hid with ⟨c, hc, rfl⟩
        rw [List.mem_singleton.mp hother] at heq
        exact hin (heq ▸ (hbooked.chosen c hc).1)
  · -- either way the contact is not in flight any longer
    have hpassed : ∃ l', (Directory.hop dialable address h contact).lookups = h.lookups.insert address l' ∧
        l'.inFlight = l.inFlight.erase contact.id ∧ l.Same l' := by
      rcases hlookups with hlookups | ⟨-, hlookups⟩
      · exact ⟨_, hlookups, rfl, ⟨rfl, rfl, rfl⟩⟩
      · exact ⟨_, hlookups, rfl, ⟨rfl, rfl, rfl⟩⟩
    rcases hpassed with ⟨passed, hlookups, hflight, hsame⟩
    refine ⟨?_, ?_, ?_, ?_, ?_⟩
    · intro other l' hl'
      rw [hlookups, BTreeMap.get?_insert] at hl'
      split at hl'
      · rw [← Option.some.inj hl']
        exact hsame.live (hbooked.live address l hl)
      · exact hbooked.live other l' hl'
    · intro other l' hl' id hid
      rw [hlookups, BTreeMap.get?_insert] at hl'
      rw [howed, hseen]
      have hbefore : unbooked other id ∨ (id ∈ awaiting ∨ id ∈ h.seen) ∧
          Owes h.outstanding id other := by
        split at hl'
        · rename_i heq
          rw [← Option.some.inj hl', hflight] at hid
          rw [heq]
          exact hbooked.booked address l hl id (Finset.mem_of_mem_erase hid)
        · exact hbooked.booked other l' hl' id hid
      rcases hbefore with hopen | hdone
      · rcases hrest other id hopen with hstill | ⟨rfl, rfl⟩
        · exact .inl hstill
        · rw [if_pos rfl] at hl'
          rw [← Option.some.inj hl', hflight] at hid
          exact absurd rfl (Finset.ne_of_mem_erase hid)
      · exact .inr hdone
    · rw [hseen, hchosen]
      exact hbooked.seen
    · rw [hseen, hchosen]
      exact hbooked.chosen
    · rw [hchosen]
      exact hbooked.nodup

/-- Whom a hop leaves in its lookup. -/
theorem lookups_hop (dialable : NodeId → Bool) (hl : h.lookups.get? address = some l)
    (contact : PeerContact Addr) : ∃ l', (hop dialable address h contact).lookups.get? address =
      some l' ∧ l.Same l' ∧ l.queried ⊆ l'.queried ∧ l'.inFlight ⊆ l.inFlight ∧
      (∀ id ∈ l.inFlight, dialable id = true ∨ id ≠ contact.id → id ∈ l'.inFlight) ∧
      Counted h.deferrals (hop dialable address h contact).deferrals := by
  rcases hop_cases dialable hl contact with
    ⟨hdial, hlookups, -, hdeferrals, -, -⟩ | ⟨hdial, -, hdeferrals, -, -, hlookups⟩
  · refine ⟨l, hlookups ▸ hl, ⟨rfl, rfl, rfl⟩, Finset.Subset.refl _, Finset.Subset.refl _,
      fun id hid _ => hid, ?_⟩
    rw [hdeferrals]
    exact fun _ => Nat.le_refl _
  · have hcounted : Counted h.deferrals (hop dialable address h contact).deferrals := by
      intro id
      rw [hdeferrals, BTreeMap.get?_insert]
      split
      · rename_i heq
        rw [heq, Option.getD_some]
        omega
      · exact Nat.le_refl _
    have hstay : ∀ id ∈ l.inFlight, dialable id = true ∨ id ≠ contact.id →
        id ∈ l.inFlight.erase contact.id := by
      intro id hid hor
      refine Finset.mem_erase.mpr ⟨?_, hid⟩
      rcases hor with hother | hne
      · rintro rfl
        rw [hdial] at hother
        cases hother
      · exact hne
    rcases hlookups with hlookups | ⟨-, hlookups⟩
    · refine ⟨l.onTimeout contact.id, ?_, ⟨rfl, rfl, rfl⟩, Finset.subset_insert _ _,
        Finset.erase_subset _ _, hstay, hcounted⟩
      rw [hlookups, BTreeMap.get?_insert, if_pos rfl]
    · refine ⟨l.defer contact.id, ?_, ⟨rfl, rfl, rfl⟩, Finset.Subset.refl _,
        Finset.erase_subset _ _, hstay, hcounted⟩
      rw [hlookups, BTreeMap.get?_insert, if_pos rfl]

/-- All that is left of a lookup's list is booked or passed over. -/
theorem Booked.foldl_hop {named : Finset NodeId} (contacts : List (PeerContact Addr))
    (hnamed : ∀ c ∈ contacts, dialable c.id = true → c.id ∈ named) (hbooked : Booked awaiting named
      (fun other id => other = address ∧ ∃ c ∈ contacts, c.id = id) h)
    (hl : h.lookups.get? address = some l) :
    Booked awaiting named (fun _ _ => False) (contacts.foldl (Directory.hop dialable address) h) := by
  induction contacts generalizing h l with
  | nil =>
    refine { hbooked with booked := fun other l' hl' id hid => ?_ }
    rcases hbooked.booked other l' hl' id hid with ⟨-, c, hc, -⟩ | hdone
    · cases hc
    · exact .inr hdone
  | cons contact contacts ih =>
    rcases lookups_hop dialable hl contact with ⟨l', hl', -⟩
    refine ih (fun c hc => hnamed c (List.mem_cons_of_mem _ hc)) (hbooked.hop hl
      (hnamed contact List.mem_cons_self) ?_) hl'
    rintro other id ⟨hother, c, hc, rfl⟩
    rcases List.mem_cons.mp hc with rfl | hc
    · exact .inr ⟨hother, rfl⟩
    · exact .inl ⟨hother, c, hc, rfl⟩

theorem Booked.hopsOf {awaiting named : Finset NodeId} {dialable : NodeId → Bool} {h : Hops Addr}
    (hbooked : Booked awaiting named (fun _ _ => False) h) {address : String}
    (hnamed : ∀ l, h.lookups.get? address = some l →
      ∀ c ∈ l.frontier, dialable c.id = true → c.id ∈ named) :
    Booked awaiting named (fun _ _ => False) (hopsOf dialable h address) := by
  unfold Directory.hopsOf
  cases hl : h.lookups.get? address with
  | none => exact hbooked
  | some l =>
    have hasking : ∀ other l', (h.lookups.insert address l.nextQueries.1).get? other = some l' →
        other = address ∧ l' = l.nextQueries.1 ∨ h.lookups.get? other = some l' := by
      intro other l' hl'
      rw [BTreeMap.get?_insert] at hl'
      split at hl'
      · rename_i heq
        exact .inl ⟨heq, (Option.some.inj hl').symm⟩
      · exact .inr hl'
    have hinsert : (h.lookups.insert address l.nextQueries.1).get? address =
        some l.nextQueries.1 := by
      rw [BTreeMap.get?_insert, if_pos rfl]
    refine Booked.foldl_hop l.frontier (hnamed l hl) ?_ hinsert
    refine ⟨?_, ?_, hbooked.seen, hbooked.chosen, hbooked.nodup⟩
    · intro other l' hl'
      rcases hasking other l' hl' with ⟨-, rfl⟩ | hold
      · exact ⟨(hbooked.live address l hl).alpha, (hbooked.live address l hl).k⟩
      · exact hbooked.live other l' hold
    · intro other l' hl' id hid
      rcases hasking other l' hl' with ⟨rfl, rfl⟩ | hold
      · rcases Finset.mem_union.mp hid with hflight | hfresh
        · exact .inr ((hbooked.booked other l hl id hflight).resolve_left not_false)
        · rcases List.mem_map.mp (List.mem_toFinset.mp hfresh) with ⟨c, hc, hcid⟩
          exact .inl ⟨rfl, c, hc, hcid⟩
      · exact .inr ((hbooked.booked other l' hold id hid).resolve_left not_false)

/-- Whom the lookups want asked and can be: the contacts `next_hops` has to
return. -/
def wanted (d : Directory Addr) (dialable : NodeId → Bool) : Finset NodeId :=
  (d.lookups.values.flatMap fun l =>
    (l.frontier.map PeerContact.id).filter dialable).toFinset

theorem mem_wanted (hl : d.lookups.get? address = some l) {c : PeerContact Addr}
    (hc : c ∈ l.frontier) (hdial : dialable c.id = true) : c.id ∈ d.wanted dialable := by
  unfold wanted
  rw [List.mem_toFinset, List.mem_flatMap]
  refine ⟨l, List.mem_map.mpr ⟨(address, l), BTreeMap.get?_eq_some_iff.mp hl, rfl⟩, ?_⟩
  exact List.mem_filter.mpr ⟨List.mem_map_of_mem hc, hdial⟩

theorem Booked.foldl_hopsOf (hnodup : addresses.Nodup)
    (hbooked : Booked awaiting (d.wanted dialable) (fun _ _ => False) h)
    (huntouched : ∀ address ∈ addresses, h.lookups.get? address = d.lookups.get? address) :
    Booked awaiting (d.wanted dialable) (fun _ _ => False)
      (addresses.foldl (Directory.hopsOf dialable) h) := by
  induction addresses generalizing h with
  | nil => exact hbooked
  | cons address addresses ih =>
    rw [List.nodup_cons] at hnodup
    refine ih hnodup.2 (hbooked.hopsOf fun l hl c hc hdial => ?_) fun other hother => ?_
    · rw [huntouched address List.mem_cons_self] at hl
      exact mem_wanted hl hc hdial
    · have hne : other ≠ address := by
        rintro rfl
        exact hnodup.1 hother
      rw [lookups_hopsOf_ne dialable hne]
      exact huntouched other (List.mem_cons_of_mem _ hother)

/-! ## What an answer does to the lookups -/

/-- The lookups and what is owed to them are what they were. -/
structure Undisturbed (d d' : Directory Addr) : Prop where
  lookups : d'.lookups = d.lookups
  outstanding : d'.outstanding = d.outstanding
  deferrals : d'.deferrals = d.deferrals

theorem Undisturbed.refl (d : Directory Addr) : d.Undisturbed d := ⟨rfl, rfl, rfl⟩

theorem Undisturbed.trans {d'' : Directory Addr} (h : d.Undisturbed d') (h' : d'.Undisturbed d'') :
    d.Undisturbed d'' :=
  ⟨h'.lookups.trans h.lookups, h'.outstanding.trans h.outstanding,
    h'.deferrals.trans h.deferrals⟩

theorem undisturbed_foldl {α : Type} {f : Directory Addr → α → Directory Addr}
    (hf : ∀ (d : Directory Addr) x, d.Undisturbed (f d x)) (l : List α) (d : Directory Addr) :
    d.Undisturbed (l.foldl f d) := by
  induction l generalizing d with
  | nil => exact .refl d
  | cons x l ih => exact (hf d x).trans (ih (f d x))

theorem undisturbed_wantsKey (d : Directory Addr) (peer : NodeId) :
    d.Undisturbed (d.wantsKey peer) := by
  unfold wantsKey
  split <;> exact ⟨rfl, rfl, rfl⟩

theorem undisturbed_hear (d : Directory Addr) (contact : PeerContact Addr) :
    d.Undisturbed (d.hear contact) := by
  have hlearn : d.Undisturbed (d.learn contact) := by
    unfold learn
    split <;> exact ⟨rfl, rfl, rfl⟩
  unfold hear
  dsimp only
  split
  · exact hlearn
  · exact hlearn.trans ⟨rfl, rfl, rfl⟩

theorem undisturbed_failed (d : Directory Addr) (peer : NodeId) :
    d.Undisturbed (d.failed peer) := by
  unfold failed
  dsimp only
  split
  · exact ⟨rfl, rfl, rfl⟩
  · split <;> exact ⟨rfl, rfl, rfl⟩

/-- What becomes of the lookup of an address when a peer has answered; it does
not wait for the peer any longer where that is called for. -/
def Turned (heard : List (PeerContact Addr)) (sender : NodeId) (address : String) (due : Prop)
    (d d' : Directory Addr) : Prop :=
  Option.Rel (fun l l' => Lookup.Advances heard l l' ∧ (due → sender ∉ l'.inFlight))
    (d.lookups.get? address) (d'.lookups.get? address)

theorem Turned.refl (heard : List (PeerContact Addr)) (sender : NodeId) (address : String)
    (hdue : ¬due) (hlookups : d'.lookups = d.lookups) : Turned heard sender address due d d' := by
  unfold Turned
  rw [hlookups]
  cases d.lookups.get? address with
  | none => exact .none
  | some l => exact .some ⟨.refl heard l, fun h => absurd h hdue⟩

theorem Turned.trans {heard heard' : List (PeerContact Addr)} {sender : NodeId} {due' : Prop}
    {d'' : Directory Addr} (h : Turned heard sender address due d d')
    (h' : Turned heard' sender address due' d' d'') :
    Turned (heard ++ heard') sender address (due ∨ due') d d'' := by
  unfold Turned at *
  generalize d.lookups.get? address = o at *
  generalize d'.lookups.get? address = o' at *
  generalize d''.lookups.get? address = o'' at *
  cases h with
  | none =>
    cases h' with
    | none => exact .none
  | some hl =>
    cases h' with
    | some hl' =>
      refine .some ⟨hl.1.trans hl'.1, fun hdue => ?_⟩
      rcases hdue with hdue | hdue
      · exact fun hin => hl.2 hdue (hl'.1.inFlight hin)
      · exact hl'.2 hdue

theorem turned_answered (sender : NodeId) (owed : Addresses) (d : Directory Addr)
    (answer : ProviderAnswer Addr) (address : String) :
    Turned answer.closer sender address
      (owed.containsKey address = true ∧ answer.address = address) d
      (answered sender owed d answer) ∧
    (answered sender owed d answer).outstanding = d.outstanding ∧
    (answered sender owed d answer).deferrals = d.deferrals := by
  have hheard := undisturbed_foldl undisturbed_hear answer.closer d
  unfold answered
  cases hasked : owed.containsKey answer.address with
  | false =>
    refine ⟨Turned.refl _ _ _ ?_ rfl, rfl, rfl⟩
    rintro ⟨howed, rfl⟩
    rw [hasked] at howed
    cases howed
  | true =>
    simp only [Bool.not_true, Bool.false_eq_true, if_false]
    cases hl : (answer.closer.foldl hear d).lookups.get? answer.address with
    | none =>
      refine ⟨?_, hheard.outstanding, hheard.deferrals⟩
      unfold Turned
      dsimp only
      rw [hheard.lookups] at hl ⊢
      by_cases heq : answer.address = address
      · rw [← heq, hl]
        exact .none
      · exact Turned.refl _ _ _ (fun h => heq h.2) rfl
    | some l =>
      refine ⟨?_, hheard.outstanding, hheard.deferrals⟩
      unfold Turned
      dsimp only
      rw [BTreeMap.get?_insert]
      rw [hheard.lookups] at hl ⊢
      by_cases heq : address = answer.address
      · rw [heq, hl, if_pos rfl]
        refine .some ⟨l.advances_onResponse _ _ _, fun _ => ?_⟩
        rw [(l.onResponse_spec _ _ _).1]
        exact Finset.notMem_erase _ _
      · rw [if_neg heq]
        exact Turned.refl _ _ _ (fun h => heq h.2.symm) rfl

theorem Turned.imp {heard : List (PeerContact Addr)} {sender : NodeId} {due' : Prop}
    (h : Turned heard sender address due d d') (himp : due' → due) :
    Turned heard sender address due' d d' := by
  unfold Turned at *
  generalize d.lookups.get? address = o at *
  generalize d'.lookups.get? address = o' at *
  cases h with
  | none => exact .none
  | some hl => exact .some ⟨hl.1, fun hdue => hl.2 (himp hdue)⟩

theorem turned_foldl_answered (sender : NodeId) (owed : Addresses)
    (answers : List (ProviderAnswer Addr)) (d : Directory Addr) (address : String) :
    Turned (answers.flatMap ProviderAnswer.closer) sender address
      (owed.containsKey address = true ∧ ∃ answer ∈ answers, answer.address = address) d
      (answers.foldl (answered sender owed) d) ∧
    (answers.foldl (answered sender owed) d).outstanding = d.outstanding ∧
    (answers.foldl (answered sender owed) d).deferrals = d.deferrals := by
  induction answers generalizing d with
  | nil =>
    refine ⟨Turned.refl _ _ _ ?_ rfl, rfl, rfl⟩
    rintro ⟨-, answer, hin, -⟩
    cases hin
  | cons answer answers ih =>
    rcases turned_answered sender owed d answer address with ⟨hfirst, howed, hdeferrals⟩
    rcases ih (answered sender owed d answer) with ⟨hrest, howed', hdeferrals'⟩
    refine ⟨(hfirst.trans hrest).imp ?_, howed'.trans howed, hdeferrals'.trans hdeferrals⟩
    rintro ⟨hasked, other, hin, heq⟩
    rcases List.mem_cons.mp hin with rfl | hin
    · exact .inl ⟨hasked, heq⟩
    · exact .inr ⟨hasked, other, hin, heq⟩

theorem turned_timedOut (sender : NodeId) (d : Directory Addr) (other address : String) :
    Turned [] sender address (address = other) d (timedOut sender d other) ∧
      (timedOut sender d other).outstanding = d.outstanding ∧
      (timedOut sender d other).deferrals = d.deferrals := by
  unfold timedOut
  cases hl : d.lookups.get? other with
  | none =>
    refine ⟨?_, rfl, rfl⟩
    unfold Turned
    dsimp only
    by_cases heq : address = other
    · rw [heq, hl]
      exact .none
    · exact Turned.refl _ _ _ heq rfl
  | some l =>
    refine ⟨?_, rfl, rfl⟩
    unfold Turned
    dsimp only
    rw [BTreeMap.get?_insert]
    by_cases heq : address = other
    · rw [heq, hl, if_pos rfl]
      exact .some ⟨l.advances_onTimeout sender, fun _ => Finset.notMem_erase _ _⟩
    · rw [if_neg heq]
      exact Turned.refl _ _ _ heq rfl

theorem turned_foldl_timedOut (sender : NodeId) (addresses : List String) (d : Directory Addr)
    (address : String) :
    Turned [] sender address (address ∈ addresses) d (addresses.foldl (timedOut sender) d) ∧
      (addresses.foldl (timedOut sender) d).outstanding = d.outstanding ∧
      (addresses.foldl (timedOut sender) d).deferrals = d.deferrals := by
  induction addresses generalizing d with
  | nil => exact ⟨Turned.refl _ _ _ List.not_mem_nil rfl, rfl, rfl⟩
  | cons other addresses ih =>
    rcases turned_timedOut sender d other address with ⟨hfirst, howed, hdeferrals⟩
    rcases ih (timedOut sender d other) with ⟨hrest, howed', hdeferrals'⟩
    refine ⟨(hfirst.trans hrest).imp ?_, howed'.trans howed, hdeferrals'.trans hdeferrals⟩
    exact fun hin => List.mem_cons.mp hin

/-- A peer that answers is waited for by no lookup that it owed an answer. -/
theorem turned_onProviders (d : Directory Addr) (sender : NodeId)
    (answers : List (ProviderAnswer Addr)) (address : String) :
    Turned (answers.flatMap ProviderAnswer.closer) sender address
      (Owes d.outstanding sender address) d (d.onProviders sender answers) ∧
    (d.onProviders sender answers).outstanding = d.outstanding.remove sender ∧
    (d.onProviders sender answers).deferrals = d.deferrals := by
  rcases turned_foldl_answered sender (d.owedBy sender) answers
    ((d.alive sender).release sender) address with ⟨hheard, howed, hdeferrals⟩
  rcases turned_foldl_timedOut sender (silent (d.owedBy sender) answers)
    (answers.foldl (answered sender (d.owedBy sender)) ((d.alive sender).release sender))
    address with ⟨hsilent, howed', hdeferrals'⟩
  have hturned := hheard.trans hsilent
  rw [List.append_nil] at hturned
  refine ⟨Turned.imp hturned ?_, howed'.trans howed, hdeferrals'.trans hdeferrals⟩
  intro howes
  by_cases hany : ∃ answer ∈ answers, answer.address = address
  · exact .inl ⟨howes, hany⟩
  · refine .inr (List.mem_filter.mpr ⟨howes.mem_keys, ?_⟩)
    simpa using hany

/-- Nor by any when it could not be reached. -/
theorem turned_onUnreachable (d : Directory Addr) (peer : NodeId) (address : String) :
    Turned [] peer address (Owes d.outstanding peer address) d (d.onUnreachable peer) ∧
    (d.onUnreachable peer).outstanding = d.outstanding.remove peer ∧
    (d.onUnreachable peer).deferrals = d.deferrals := by
  rcases turned_foldl_timedOut peer (d.owedBy peer).keys (d.release peer) address with
    ⟨hturned, howed, hdeferrals⟩
  have hfailed := undisturbed_failed ((d.owedBy peer).keys.foldl (timedOut peer) (d.release peer))
    peer
  refine ⟨?_, hfailed.outstanding.trans howed, hfailed.deferrals.trans hdeferrals⟩
  unfold Turned onUnreachable
  rw [hfailed.lookups]
  exact hturned.imp fun howes => howes.mem_keys

/-! ## What a round does to a lookup -/

theorem counted_trans {a b c : BTreeMap NodeId Nat} (h : Counted a b) (h' : Counted b c) :
    Counted a c := fun id => (h id).trans (h' id)

/-- What a lookup's list leaves of the lookup. -/
theorem lookups_foldl_hop (dialable : NodeId → Bool) (contacts : List (PeerContact Addr))
    (hl : h.lookups.get? address = some l) :
    ∃ l', (contacts.foldl (hop dialable address) h).lookups.get? address = some l' ∧ l.Same l' ∧
      l.queried ⊆ l'.queried ∧ l'.inFlight ⊆ l.inFlight ∧
      (∀ id ∈ l.inFlight, dialable id = true ∨ (∀ c ∈ contacts, id ≠ c.id) → id ∈ l'.inFlight) ∧
      Counted h.deferrals (contacts.foldl (hop dialable address) h).deferrals := by
  induction contacts generalizing h l with
  | nil =>
    exact ⟨l, hl, ⟨rfl, rfl, rfl⟩, Finset.Subset.refl _, Finset.Subset.refl _,
      fun id hid _ => hid, fun _ => Nat.le_refl _⟩
  | cons contact contacts ih =>
    rcases lookups_hop dialable hl contact with
      ⟨l₁, hl₁, hsame₁, hqueried₁, hflight₁, hstay₁, hcounted₁⟩
    rcases ih hl₁ with ⟨l', hl', hsame, hqueried, hflight, hstay, hcounted⟩
    refine ⟨l', hl', hsame₁.trans hsame, hqueried₁.trans hqueried, hflight.trans hflight₁,
      fun id hid hor => ?_, counted_trans hcounted₁ hcounted⟩
    rcases hor with hdial | hne
    · exact hstay id (hstay₁ id hid (.inl hdial)) (.inl hdial)
    · exact hstay id (hstay₁ id hid (.inr (hne contact List.mem_cons_self)))
        (.inr fun c hc => hne c (List.mem_cons_of_mem _ hc))

theorem seen_hop (dialable : NodeId → Bool) (address : String) (h : Hops Addr)
    (contact : PeerContact Addr) : h.seen ⊆ (hop dialable address h contact).seen := by
  unfold hop
  split
  · dsimp only
    split
    · exact Finset.Subset.refl _
    · split <;> exact Finset.Subset.refl _
  · exact Finset.subset_insert _ _

theorem seen_foldl_hop (dialable : NodeId → Bool) (address : String)
    (contacts : List (PeerContact Addr)) (h : Hops Addr) :
    h.seen ⊆ (contacts.foldl (hop dialable address) h).seen := by
  induction contacts generalizing h with
  | nil => exact Finset.Subset.refl _
  | cons contact contacts ih => exact (seen_hop dialable address h contact).trans (ih _)

/-- What becomes of one contact of a lookup's list: it is to be asked, or it has
been passed over once more and has had its turn where that was once too often. -/
theorem foldl_hop_mem {contacts : List (PeerContact Addr)}
    {l' : Lookup (PeerContact Addr) (Holder Addr)} (hl : h.lookups.get? address = some l)
    (hl' : (contacts.foldl (hop dialable address) h).lookups.get? address = some l')
    {c : PeerContact Addr} (hc : c ∈ contacts) :
    (dialable c.id = true → c.id ∈ (contacts.foldl (hop dialable address) h).seen) ∧
      (dialable c.id = false →
        (h.deferrals.get? c.id).getD 0 <
            ((contacts.foldl (hop dialable address) h).deferrals.get? c.id).getD 0 ∧
          ((h.deferrals.get? c.id).getD 0 < MAX_DEFERRALS ∨ c.id ∈ l'.queried)) := by
  induction contacts generalizing h l with
  | nil => cases hc
  | cons contact contacts ih =>
    rcases lookups_hop dialable hl contact with
      ⟨l₁, hl₁, -, -, -, -, hcounted₁⟩
    rcases lookups_foldl_hop dialable contacts hl₁ with
      ⟨l₂, hl₂, -, hqueried, -, -, hcounted⟩
    rw [List.foldl_cons] at hl' ⊢
    rw [hl₂] at hl'
    have hlast := Option.some.inj hl'
    subst hlast
    rcases List.mem_cons.mp hc with rfl | hc
    · rcases hop_cases dialable hl c with
        ⟨hdial, -, -, -, hseen, -⟩ | ⟨hdial, -, hdeferrals, -, -, hlookups⟩
      · refine ⟨fun _ => ?_, fun hnot => absurd (hdial.symm.trans hnot) Bool.noConfusion⟩
        apply seen_foldl_hop
        rw [hseen]
        exact Finset.mem_insert_self _ _
      · refine ⟨fun hyes => absurd (hyes.symm.trans hdial) Bool.noConfusion, fun _ => ⟨?_, ?_⟩⟩
        · have hle := hcounted c.id
          rw [hdeferrals, BTreeMap.get?_insert, if_pos rfl, Option.getD_some] at hle
          omega
        · rcases hlookups with hlookups | ⟨hfew, -⟩
          · refine .inr (hqueried ?_)
            rw [hlookups, BTreeMap.get?_insert, if_pos rfl] at hl₁
            rw [← Option.some.inj hl₁]
            exact Finset.mem_insert_self _ _
          · exact .inl hfew
    · rcases ih hl₁ hl₂ hc with ⟨hasked, hpassed⟩
      refine ⟨hasked, fun hdial => ?_⟩
      rcases hpassed hdial with ⟨hmore, hturn⟩
      have hle := hcounted₁ c.id
      refine ⟨lt_of_le_of_lt hle hmore, ?_⟩
      exact hturn.imp_left fun hfew => lt_of_le_of_lt hle hfew

/-- A lookup after `next_hops` has come by: whom it wanted asked is in flight, or
has been passed over once more. -/
structure Rounded (dialable : NodeId → Bool) (h h' : Hops Addr)
    (l l' : Lookup (PeerContact Addr) (Holder Addr)) : Prop where
  same : l.Same l'
  spent : l.spent ⊆ l'.spent
  asked : ∀ c ∈ l.frontier, dialable c.id = true → c.id ∈ l'.spent ∧ c.id ∈ h'.seen
  passed : ∀ c ∈ l.frontier, dialable c.id = false →
    (h.deferrals.get? c.id).getD 0 < (h'.deferrals.get? c.id).getD 0 ∧
      ((h.deferrals.get? c.id).getD 0 < MAX_DEFERRALS ∨ c.id ∈ l'.spent)

/-- The state a lookup's list is gone through from. -/
def asking (h : Hops Addr) (address : String) (l : Lookup (PeerContact Addr) (Holder Addr)) :
    Hops Addr := { h with lookups := h.lookups.insert address l.nextQueries.1 }

theorem hopsOf_of_get? (hl : h.lookups.get? address = some l) (dialable : NodeId → Bool) :
    hopsOf dialable h address = l.frontier.foldl (hop dialable address) (asking h address l) := by
  unfold hopsOf
  rw [hl]
  rfl

theorem get?_asking (h : Hops Addr) (address : String)
    (l : Lookup (PeerContact Addr) (Holder Addr)) :
    (asking h address l).lookups.get? address = some l.nextQueries.1 :=
  (BTreeMap.get?_insert ..).trans (if_pos rfl)

theorem counted_hopsOf (dialable : NodeId → Bool) (h : Hops Addr) (address : String) :
    Counted h.deferrals (hopsOf dialable h address).deferrals := by
  cases hl : h.lookups.get? address with
  | none =>
    unfold hopsOf
    rw [hl]
    exact fun _ => Nat.le_refl _
  | some l =>
    rw [hopsOf_of_get? hl]
    rcases lookups_foldl_hop dialable l.frontier (get?_asking h address l) with
      ⟨-, -, -, -, -, -, hcounted⟩
    exact hcounted

theorem seen_hopsOf (dialable : NodeId → Bool) (h : Hops Addr) (address : String) :
    h.seen ⊆ (hopsOf dialable h address).seen := by
  cases hl : h.lookups.get? address with
  | none =>
    unfold hopsOf
    rw [hl]
  | some l =>
    rw [hopsOf_of_get? hl]
    exact seen_foldl_hop dialable address l.frontier (asking h address l)

theorem rounded_hopsOf (dialable : NodeId → Bool) (hl : h.lookups.get? address = some l) :
    ∃ l', (hopsOf dialable h address).lookups.get? address = some l' ∧
      Rounded dialable h (hopsOf dialable h address) l l' := by
  rw [hopsOf_of_get? hl]
  rcases lookups_foldl_hop dialable l.frontier (get?_asking h address l) with
    ⟨l', hl', hsame, hqueried, hflight, hstay, hcounted⟩
  have hnamed : ∀ c ∈ l.frontier, c.id ∈ l.nextQueries.1.inFlight := fun c hc =>
    Finset.mem_union_right _ (List.mem_toFinset.mpr (List.mem_map_of_mem hc))
  refine ⟨l', hl', ⟨hsame.shortlist, hsame.alpha, hsame.k⟩, ?_, fun c hc hdial => ?_,
    fun c hc hdial => ?_⟩
  · -- whoever was in flight before is not in the list
    intro id hid
    rcases Finset.mem_union.mp hid with hasked | hwaited
    · exact Finset.mem_union_left _ (hqueried hasked)
    · refine Finset.mem_union_right _ (hstay id (Finset.mem_union_left _ hwaited) (.inr ?_))
      rintro c hc rfl
      exact (Lookup.mem_frontier hc).2.2 hwaited
  · exact ⟨Finset.mem_union_right _ (hstay c.id (hnamed c hc) (.inl hdial)),
      (foldl_hop_mem (get?_asking h address l) hl' hc).1 hdial⟩
  · rcases (foldl_hop_mem (get?_asking h address l) hl' hc).2 hdial with ⟨hmore, hturn⟩
    exact ⟨hmore, hturn.imp_right fun hin => Finset.mem_union_left _ hin⟩

theorem counted_foldl_hopsOf (dialable : NodeId → Bool) (addresses : List String) (h : Hops Addr) :
    Counted h.deferrals (addresses.foldl (hopsOf dialable) h).deferrals := by
  induction addresses generalizing h with
  | nil => exact fun _ => Nat.le_refl _
  | cons address addresses ih => exact counted_trans (counted_hopsOf dialable h address) (ih _)

theorem seen_foldl_hopsOf (dialable : NodeId → Bool) (addresses : List String) (h : Hops Addr) :
    h.seen ⊆ (addresses.foldl (hopsOf dialable) h).seen := by
  induction addresses generalizing h with
  | nil => exact Finset.Subset.refl _
  | cons address addresses ih => exact (seen_hopsOf dialable h address).trans (ih _)

theorem rounded_foldl_hopsOf (dialable : NodeId → Bool) (hnodup : addresses.Nodup)
    (hin : address ∈ addresses) (hl : h.lookups.get? address = some l) :
    ∃ l', (addresses.foldl (hopsOf dialable) h).lookups.get? address = some l' ∧
      Rounded dialable h (addresses.foldl (hopsOf dialable) h) l l' := by
  induction addresses generalizing h with
  | nil => cases hin
  | cons other addresses ih =>
    rw [List.nodup_cons] at hnodup
    rw [List.foldl_cons]
    by_cases heq : address = other
    · subst heq
      rcases rounded_hopsOf dialable hl with ⟨l', hl', hrounded⟩
      have hcounted := counted_foldl_hopsOf dialable addresses (hopsOf dialable h address)
      refine ⟨l', ?_, hrounded.same, hrounded.spent, fun c hc hdial => ?_,
        fun c hc hdial => ?_⟩
      · rw [lookups_foldl_hopsOf_ne dialable hnodup.1]
        exact hl'
      · rcases hrounded.asked c hc hdial with ⟨hspent, hseen⟩
        exact ⟨hspent, seen_foldl_hopsOf dialable addresses _ hseen⟩
      · rcases hrounded.passed c hc hdial with ⟨hmore, hturn⟩
        exact ⟨lt_of_lt_of_le hmore (hcounted c.id), hturn⟩
    · have hin' := (List.mem_cons.mp hin).resolve_left heq
      have hcounted := counted_hopsOf dialable h other
      have hl₁ := (lookups_hopsOf_ne dialable heq h).trans hl
      rcases ih hnodup.2 hin' hl₁ with ⟨l', hl', hrounded⟩
      refine ⟨l', hl', hrounded.same, hrounded.spent, hrounded.asked, fun c hc hdial => ?_⟩
      rcases hrounded.passed c hc hdial with ⟨hmore, hturn⟩
      exact ⟨lt_of_le_of_lt (hcounted c.id) hmore,
        hturn.imp_left fun hfew => lt_of_le_of_lt (hcounted c.id) hfew⟩

/-! ## What `next_hops` returns -/

theorem nextHops_fields (d : Directory Addr) (limit : Nat) (dialable : NodeId → Bool) :
    (d.nextHops limit dialable).1.lookups = (d.hops dialable).lookups ∧
      (d.nextHops limit dialable).1.outstanding = (d.hops dialable).outstanding ∧
      (d.nextHops limit dialable).1.deferrals = (d.hops dialable).deferrals := by
  have hwants := undisturbed_foldl undisturbed_wantsKey (d.hops dialable).deferred
    { d with
      lookups := (d.hops dialable).lookups
      outstanding := (d.hops dialable).outstanding
      deferrals := (d.hops dialable).deferrals }
  exact ⟨hwants.lookups, hwants.outstanding, hwants.deferrals⟩

/-- Nothing is cut from a list that is no longer than the limit. -/
theorem mem_nextHops {limit : Nat}
    (hbooked : Booked awaiting (d.wanted dialable) (fun _ _ => False) (d.hops dialable))
    (hfits : (d.wanted dialable).card ≤ limit) {id : NodeId} (hid : id ∈ (d.hops dialable).seen) :
    id ∈ ((d.nextHops limit dialable).2.map PeerContact.id).toFinset := by
  have hlength : (d.hops dialable).chosen.length ≤ limit := by
    rw [← List.length_map PeerContact.id, ← List.toFinset_card_of_nodup hbooked.nodup]
    refine (Finset.card_le_card fun id hin => ?_).trans hfits
    rcases List.mem_map.mp (List.mem_toFinset.mp hin) with ⟨c, hc, rfl⟩
    exact (hbooked.chosen c hc).2
  rcases hbooked.seen id hid with ⟨c, hc, rfl⟩
  have hperm := List.perm_insertionSort (fun a b =>
    questions (d.hops dialable).outstanding b ≤ questions (d.hops dialable).outstanding a)
    (d.hops dialable).chosen
  refine List.mem_toFinset.mpr (List.mem_map_of_mem ?_)
  unfold nextHops
  dsimp only
  rw [List.take_of_length_le (hperm.length_eq.trans_le hlength)]
  exact hperm.mem_iff.mpr hc

/-- A search that is begun is one from the table; else nothing changes. -/
theorem seek_cases (d : Directory Addr) (address : String) :
    (d.seek address).1 = d ∨ d.lookups.get? address = none ∧
      ∃ key, (d.seek address).1 = { d with
        lookups := d.lookups.insert address (Lookup.new key (d.routing.closest key K)) } := by
  unfold seek
  split
  · exact .inl rfl
  · rename_i habsent
    cases hlookup : d.lookup address with
    | none => exact .inl rfl
    | some l =>
      dsimp only
      split
      · exact .inl rfl
      · rcases Option.map_eq_some_iff.mp hlookup with ⟨key, -, rfl⟩
        refine .inr ⟨?_, key, rfl⟩
        simpa [BTreeMap.containsKey] using habsent

/-! ## Contacts of a finite set -/

/-- Whoever is in the table, waits for a slot or is on a lookup's list is known. -/
structure Knows (known : Finset NodeId) (d : Directory Addr) : Prop where
  table : ∀ c ∈ d.routing.contacts, c.id ∈ known
  parked : ∀ probe newcomer, d.pending.get? probe = some newcomer → newcomer.id ∈ known
  lookups : ∀ address l, d.lookups.get? address = some l → l.Within known

theorem knows_new (known : Finset NodeId) (localId : NodeId) :
    Knows known (new localId : Directory Addr) where
  table := fun c hc => by
    rcases RoutingTable.mem_contacts.mp hc with ⟨index, hin⟩
    cases hin
  parked := fun _ _ h => by cases h
  lookups := fun _ _ h => by cases h

theorem Knows.congr (h : Knows known d) (hrouting : d'.routing = d.routing)
    (hpending : d'.pending = d.pending) (hlookups : d'.lookups = d.lookups) : Knows known d' := by
  constructor
  · rw [hrouting]
    exact h.table
  · rw [hpending]
    exact h.parked
  · rw [hlookups]
    exact h.lookups

theorem Knows.saw (h : Knows known d) (hin : contact.id ∈ known) :
    Knows known (d.saw contact).1 := by
  refine ⟨fun c hc => ?_, fun probe newcomer hget => ?_, h.lookups⟩
  · rcases RoutingTable.mem_contacts_insert hc with hold | rfl
    · exact h.table c hold
    · exact hin
  · unfold Directory.saw at hget
    dsimp only at hget
    cases hdecision : (d.routing.insert contact).2 with
    | pending oldest =>
      rw [hdecision] at hget
      dsimp only at hget
      rw [BTreeMap.get?_insert] at hget
      split at hget
      · rw [← Option.some.inj hget]
        exact hin
      · exact h.parked probe newcomer hget
    | added | refreshed | ignored =>
      rw [hdecision] at hget
      exact h.parked probe newcomer hget

theorem Knows.hear (h : Knows known d) (hin : contact.id ∈ known) :
    Knows known (d.hear contact) := by
  have hlearn : Knows known (d.learn contact) := by
    unfold learn
    split
    · exact h
    · exact Knows.saw h hin
  unfold Directory.hear
  dsimp only
  split
  · exact hlearn
  · exact hlearn.congr rfl rfl rfl

theorem Knows.insert (h : Knows known d) (hl : l.Within known) (address : String) :
    Knows known { d with lookups := d.lookups.insert address l } := by
  refine ⟨h.table, h.parked, fun other l' hl' => ?_⟩
  dsimp only at hl'
  rw [BTreeMap.get?_insert] at hl'
  split at hl'
  · rw [← Option.some.inj hl']
    exact hl
  · exact h.lookups other l' hl'

theorem Knows.foldl {α : Type} {f : Directory Addr → α → Directory Addr} {l : List α}
    (hf : ∀ x ∈ l, ∀ d, Knows known d → Knows known (f d x)) (h : Knows known d) :
    Knows known (l.foldl f d) := by
  induction l generalizing d with
  | nil => exact h
  | cons x l ih =>
    exact ih (fun y hy => hf y (List.mem_cons_of_mem _ hy)) (hf x List.mem_cons_self d h)

theorem Knows.timedOut {known : Finset NodeId} {d : Directory Addr} (h : Knows known d)
    (sender : NodeId) (address : String) : Knows known (timedOut sender d address) := by
  unfold Directory.timedOut
  split
  · exact h
  · rename_i l hl
    exact h.insert ((l.advances_onTimeout sender).within known (fun _ hc => by cases hc)
      (h.lookups address l hl)) address

theorem Knows.answered {known : Finset NodeId} {d : Directory Addr} (h : Knows known d)
    (sender : NodeId) (owed : Addresses) {answer : ProviderAnswer Addr}
    (hin : ∀ c ∈ answer.closer, c.id ∈ known) : Knows known (answered sender owed d answer) := by
  have hheard : Knows known (answer.closer.foldl Directory.hear d) :=
    h.foldl fun c hc _ hd => hd.hear (hin c hc)
  unfold Directory.answered
  split
  · exact h
  · dsimp only
    split
    · exact hheard
    · rename_i l hl
      exact hheard.insert ((l.advances_onResponse sender _ answer.holders).within known hin
        (hheard.lookups _ l hl)) _

theorem Knows.onProviders (h : Knows known d) (sender : NodeId)
    {answers : List (ProviderAnswer Addr)}
    (hin : ∀ answer ∈ answers, ∀ c ∈ answer.closer, c.id ∈ known) :
    Knows known (d.onProviders sender answers) := by
  have hreleased : Knows known ((d.alive sender).release sender) := h.congr rfl rfl rfl
  have hheard : Knows known (answers.foldl (Directory.answered sender (d.owedBy sender))
      ((d.alive sender).release sender)) :=
    hreleased.foldl fun answer ha _ hd => hd.answered sender _ (hin answer ha)
  exact hheard.foldl fun address _ _ hd => hd.timedOut sender address

theorem Knows.onUnreachable (h : Knows known d) (peer : NodeId) :
    Knows known (d.onUnreachable peer) := by
  have hreleased : Knows known (d.release peer) := h.congr rfl rfl rfl
  have hsilent : Knows known ((d.owedBy peer).keys.foldl (Directory.timedOut peer)
      (d.release peer)) := hreleased.foldl fun address _ _ hd => hd.timedOut peer address
  have hlookups : ∀ address l, (d.onUnreachable peer).lookups.get? address = some l →
      l.Within known := by
    unfold Directory.onUnreachable
    rw [(undisturbed_failed _ peer).lookups]
    exact hsilent.lookups
  rcases d.onUnreachable_cases peer with ⟨hrouting, hpending, -⟩ | ⟨hrouting, hpending, -⟩ |
    ⟨newcomer, -, hget, hrouting, hpending⟩
  · refine ⟨?_, ?_, hlookups⟩
    · rw [hrouting]
      exact h.table
    · rw [hpending]
      exact h.parked
  · refine ⟨?_, ?_, hlookups⟩
    · rw [hrouting]
      exact fun c hc => h.table c (RoutingTable.mem_contacts_remove hc)
    · rw [hpending]
      exact h.parked
  · refine ⟨?_, ?_, hlookups⟩
    · rw [hrouting]
      intro c hc
      rcases RoutingTable.mem_contacts_replace hc with hold | rfl
      · exact h.table c hold
      · exact h.parked peer _ hget
    · rw [hpending]
      exact fun probe waiting hw => h.parked probe waiting (BTreeMap.get?_retain.mp hw).1

theorem mem_contacts_of_closest {C : Type} [Contact C] {t : RoutingTable C} {target : NodeId}
    {count : Nat} {c : C} (hc : c ∈ t.closest target count) : c ∈ t.contacts :=
  (List.perm_insertionSort _ _).mem_iff.mp (List.mem_of_mem_take hc)

theorem counted_hops (d : Directory Addr) (dialable : NodeId → Bool) :
    Counted d.deferrals (d.hops dialable).deferrals :=
  counted_foldl_hopsOf dialable d.lookups.keys
    { lookups := d.lookups, outstanding := d.outstanding, deferrals := d.deferrals,
      chosen := [], seen := ∅, deferred := [] }

/-- The lookups `next_hops` leaves are those it found, gone round once. -/
theorem rounded_nextHops (d : Directory Addr) (limit : Nat) (dialable : NodeId → Bool)
    (hl : d.lookups.get? address = some l) :
    ∃ l', (d.nextHops limit dialable).1.lookups.get? address = some l' ∧
      Rounded dialable
        { lookups := d.lookups, outstanding := d.outstanding, deferrals := d.deferrals,
          chosen := [], seen := ∅, deferred := [] } (d.hops dialable) l l' := by
  rcases d.nextHops_fields limit dialable with ⟨hlookups, -, -⟩
  rw [hlookups]
  refine rounded_foldl_hopsOf dialable (BTreeMap.nodup_keys _) ?_ hl
  exact BTreeMap.mem_keys.mpr ⟨l, hl⟩

theorem get?_nextHops_none (d : Directory Addr) (limit : Nat) (dialable : NodeId → Bool)
    (hl : d.lookups.get? address = none) :
    (d.nextHops limit dialable).1.lookups.get? address = none := by
  rcases d.nextHops_fields limit dialable with ⟨hlookups, -, -⟩
  rw [hlookups]
  refine (lookups_foldl_hopsOf_ne dialable ?_ _).trans hl
  intro hin
  rcases BTreeMap.mem_keys.mp hin with ⟨l, hsome⟩
  rw [hl] at hsome
  cases hsome

theorem Knows.nextHops (h : Knows known d) (limit : Nat) (dialable : NodeId → Bool) :
    Knows known (d.nextHops limit dialable).1 := by
  rcases d.routing_nextHops limit dialable with ⟨hrouting, hpending⟩
  refine ⟨?_, ?_, fun address l' hl' => ?_⟩
  · rw [hrouting]
    exact h.table
  · rw [hpending]
    exact h.parked
  · cases hl : d.lookups.get? address with
    | none =>
      rw [d.get?_nextHops_none limit dialable hl] at hl'
      cases hl'
    | some l =>
      rcases d.rounded_nextHops limit dialable hl with ⟨l₁, hl₁, hrounded⟩
      rw [hl₁] at hl'
      rw [← Option.some.inj hl']
      exact hrounded.same.within (h.lookups address l hl)

end Directory

/-- The contacts a call tells of. -/
def Op.contacts : Op Addr → List (PeerContact Addr)
  | .saw contact => [contact]
  | .onProviders _ answers => answers.flatMap ProviderAnswer.closer
  | _ => []

namespace Directory

theorem Knows.step {known : Finset NodeId} {d : Directory Addr} (h : Knows known d) {op : Op Addr}
    (hin : ∀ c ∈ op.contacts, c.id ∈ known) : Knows known (d.step op) := by
  cases op with
  | saw contact => exact h.saw (hin contact List.mem_cons_self)
  | forget id =>
    exact ⟨fun c hc => h.table c (RoutingTable.mem_contacts_remove hc), h.parked, h.lookups⟩
  | recordTell sender addr asked addresses now => exact h.congr rfl rfl rfl
  | expire now => exact h.congr rfl rfl rfl
  | seek address =>
    show Knows known (d.seek address).1
    rcases d.seek_cases address with hsame | ⟨-, key, hseek⟩
    · rw [hsame]
      exact h
    · rw [hseek]
      exact h.insert (Lookup.within_new key fun c hc => h.table c (mem_contacts_of_closest hc)) _
  | nextHops limit dialable => exact h.nextHops limit dialable
  | onProviders sender answers =>
    exact h.onProviders sender fun answer ha c hc =>
      hin c (List.mem_flatMap.mpr ⟨answer, ha, hc⟩)
  | onUnreachable peer => exact h.onUnreachable peer
  | takeFinished =>
    exact ⟨h.table, h.parked, fun address l hl =>
      h.lookups address l (BTreeMap.get?_retain.mp hl).1⟩

end Directory

/-! ## Whom a run waits for -/

/-- A directory, and the contacts it has returned that are not answered for. -/
structure Watched (Addr : Type) where
  dir : Directory Addr
  awaiting : Finset NodeId

namespace Watched

def start (localId : NodeId) : Watched Addr := ⟨.new localId, ∅⟩

def step (w : Watched Addr) (op : Op Addr) : Watched Addr where
  dir := w.dir.step op
  awaiting :=
    match op with
    | .nextHops limit dialable =>
      w.awaiting ∪ ((w.dir.nextHops limit dialable).2.map PeerContact.id).toFinset
    | .onProviders sender _ => w.awaiting.erase sender
    | .onUnreachable peer => w.awaiting.erase peer
    | _ => w.awaiting

def run (w : Watched Addr) (ops : List (Op Addr)) : Watched Addr := ops.foldl step w

/-- Whoever is in flight is awaited, and owes the lookup an answer. -/
structure Tended (w : Watched Addr) : Prop where
  live : ∀ address l, w.dir.lookups.get? address = some l → l.Live
  handed : ∀ address l, w.dir.lookups.get? address = some l → ∀ id ∈ l.inFlight,
    id ∈ w.awaiting ∧ Owes w.dir.outstanding id address

/-- The call cuts nobody off. -/
def Fits (w : Watched Addr) : Op Addr → Prop
  | .nextHops limit dialable => (w.dir.wanted dialable).card ≤ limit
  | _ => True

theorem tended_start (localId : NodeId) : (start localId : Watched Addr).Tended where
  live := fun _ _ h => by cases h
  handed := fun _ _ h => by cases h

variable {w : Watched Addr} {known : Finset NodeId} {ops : List (Op Addr)}
  {l : Lookup (PeerContact Addr) (Holder Addr)} {address : String}

theorem Tended.booked (h : w.Tended) (dialable : NodeId → Bool) :
    Directory.Booked w.awaiting (w.dir.wanted dialable) (fun _ _ => False)
      (w.dir.hops dialable) := by
  refine Directory.Booked.foldl_hopsOf (BTreeMap.nodup_keys _) ?_ fun _ _ => rfl
  refine ⟨h.live, fun address l hl id hid => ?_, ?_, ?_, List.nodup_nil⟩
  · rcases h.handed address l hl id hid with ⟨hawaited, howes⟩
    exact .inr ⟨.inl hawaited, howes⟩
  · intro id hid
    exact absurd hid (Finset.notMem_empty id)
  · intro c hc
    cases hc

theorem Tended.nextHops (h : w.Tended) {limit : Nat} {dialable : NodeId → Bool}
    (hfits : w.Fits (.nextHops limit dialable)) : (w.step (.nextHops limit dialable)).Tended := by
  have hbooked := h.booked dialable
  rcases w.dir.nextHops_fields limit dialable with ⟨hlookups, howed, -⟩
  constructor
  · intro address l hl
    exact hbooked.live address l (hlookups ▸ hl)
  · intro address l hl id hid
    rcases (hbooked.booked address l (hlookups ▸ hl) id hid).resolve_left not_false with
      ⟨hknown, howes⟩
    refine ⟨?_, howed ▸ howes⟩
    rcases hknown with hold | hnew
    · exact Finset.mem_union_left _ hold
    · exact Finset.mem_union_right _ (Directory.mem_nextHops hbooked hfits hnew)

/-- A peer that has answered, or will not, is in flight nowhere. -/
theorem Tended.turned (h : w.Tended) {d' : Directory Addr} {heard : List (PeerContact Addr)}
    {sender : NodeId} (hturned : ∀ address, Directory.Turned heard sender address
      (Owes w.dir.outstanding sender address) w.dir d')
    (howed : d'.outstanding = w.dir.outstanding.remove sender) :
    Tended ⟨d', w.awaiting.erase sender⟩ := by
  constructor
  · intro address l' hl'
    have hrel := hturned address
    unfold Directory.Turned at hrel
    dsimp only at hl'
    rw [hl'] at hrel
    generalize hl : w.dir.lookups.get? address = before at hrel
    cases hrel with
    | some hadvances => exact hadvances.1.live (h.live address _ hl)
  · intro address l' hl' id hid
    have hrel := hturned address
    unfold Directory.Turned at hrel
    dsimp only at hl' ⊢
    rw [hl'] at hrel
    generalize hl : w.dir.lookups.get? address = before at hrel
    cases hrel with
    | some hadvances =>
      rcases h.handed address _ hl id (hadvances.1.inFlight hid) with ⟨hawaited, howes⟩
      have hne : id ≠ sender := by
        rintro rfl
        exact hadvances.2 howes hid
      rw [howed]
      exact ⟨Finset.mem_erase.mpr ⟨hne, hawaited⟩, howes.of_ne hne⟩

/-- What becomes of the lookups when one is added or some are taken out. -/
theorem Tended.of_lookups {w' : Watched Addr} (h : w.Tended)
    (hlookups : ∀ address l, w'.dir.lookups.get? address = some l →
      w.dir.lookups.get? address = some l ∨ l.Live ∧ l.inFlight = ∅)
    (howed : w'.dir.outstanding = w.dir.outstanding) (hawaiting : w'.awaiting = w.awaiting) :
    w'.Tended := by
  constructor
  · intro address l hl
    rcases hlookups address l hl with hold | ⟨hlive, -⟩
    · exact h.live address l hold
    · exact hlive
  · intro address l hl id hid
    rw [howed, hawaiting]
    rcases hlookups address l hl with hold | ⟨-, hempty⟩
    · exact h.handed address l hold id hid
    · rw [hempty] at hid
      exact absurd hid (Finset.notMem_empty id)

theorem Tended.step {w : Watched Addr} (h : w.Tended) {op : Op Addr} (hfits : w.Fits op) :
    (w.step op).Tended := by
  cases op with
  | nextHops limit dialable => exact h.nextHops hfits
  | onProviders sender answers =>
    exact h.turned (fun address => (w.dir.turned_onProviders sender answers address).1)
      (w.dir.turned_onProviders sender answers "").2.1
  | onUnreachable peer =>
    exact h.turned (fun address => (w.dir.turned_onUnreachable peer address).1)
      (w.dir.turned_onUnreachable peer "").2.1
  | saw contact => exact h.of_lookups (fun _ _ hl => .inl hl) rfl rfl
  | forget id => exact h.of_lookups (fun _ _ hl => .inl hl) rfl rfl
  | recordTell sender addr asked addresses now =>
    exact h.of_lookups (fun _ _ hl => .inl hl) rfl rfl
  | expire now => exact h.of_lookups (fun _ _ hl => .inl hl) rfl rfl
  | seek address =>
    have hstep : w.step (.seek address) = ⟨(w.dir.seek address).1, w.awaiting⟩ := rfl
    rw [hstep]
    rcases w.dir.seek_cases address with hsame | ⟨-, key, hseek⟩
    · rw [hsame]
      exact h
    · rw [hseek]
      refine h.of_lookups (fun other l hl => ?_) rfl rfl
      dsimp only at hl
      rw [BTreeMap.get?_insert] at hl
      split at hl
      · rw [← Option.some.inj hl]
        exact .inr (Lookup.live_new key _)
      · exact .inl hl
  | takeFinished =>
    exact h.of_lookups (fun _ _ hl => .inl (BTreeMap.get?_retain.mp hl).1) rfl rfl

theorem run_concat (w : Watched Addr) (ops : List (Op Addr)) (op : Op Addr) :
    w.run (ops ++ [op]) = (w.run ops).step op := by
  rw [run, List.foldl_concat]
  rfl

theorem Tended.run {w : Watched Addr} (h : w.Tended) {ops : List (Op Addr)}
    (hfits : ∀ done op, done ++ [op] <+: ops → (w.run done).Fits op) : (w.run ops).Tended := by
  induction ops using List.reverseRecOn with
  | nil => exact h
  | append_singleton ops op ih =>
    rw [run_concat]
    have hbefore := ih fun done o hdone => hfits done o (hdone.trans (List.prefix_append _ _))
    exact hbefore.step (hfits ops op (List.prefix_refl _))

theorem knows_run (h : Directory.Knows known w.dir)
    (hin : ∀ op ∈ ops, ∀ c ∈ op.contacts, c.id ∈ known) :
    Directory.Knows known (w.run ops).dir := by
  induction ops generalizing w with
  | nil => exact h
  | cons op ops ih =>
    exact ih (h.step (hin op List.mem_cons_self)) fun o ho => hin o (List.mem_cons_of_mem _ ho)

/-! ## What runs out -/

/-- The turns that are left: contacts that have not had theirs, and how often a
contact may still be passed over. -/
def budget (known : Finset NodeId) (l : Lookup (PeerContact Addr) (Holder Addr))
    (deferrals : BTreeMap NodeId Nat) : Nat :=
  (known \ l.spent).card + ∑ id ∈ known, (MAX_DEFERRALS - (deferrals.get? id).getD 0)

theorem budget_bound (known : Finset NodeId) (l : Lookup (PeerContact Addr) (Holder Addr))
    (deferrals : BTreeMap NodeId Nat) :
    budget known l deferrals ≤ known.card * (1 + MAX_DEFERRALS) := by
  have hcard : (known \ l.spent).card ≤ known.card := Finset.card_le_card Finset.sdiff_subset
  have hsum : ∑ id ∈ known, (MAX_DEFERRALS - (deferrals.get? id).getD 0) ≤
      known.card * MAX_DEFERRALS :=
    Finset.sum_le_card_nsmul known _ MAX_DEFERRALS fun id _ => Nat.sub_le _ _
  unfold budget
  calc
    _ ≤ known.card + known.card * MAX_DEFERRALS := Nat.add_le_add hcard hsum
    _ = known.card * (1 + MAX_DEFERRALS) := by rw [Nat.mul_add, Nat.mul_one]

theorem budget_le {l' : Lookup (PeerContact Addr) (Holder Addr)}
    {deferrals deferrals' : BTreeMap NodeId Nat} (hspent : l.spent ⊆ l'.spent)
    (hcounted : Counted deferrals deferrals') :
    budget known l' deferrals' ≤ budget known l deferrals := by
  unfold budget
  apply Nat.add_le_add
  · exact Finset.card_le_card (Finset.sdiff_subset_sdiff (Finset.Subset.refl _) hspent)
  · exact Finset.sum_le_sum fun id _ => Nat.sub_le_sub_left (hcounted id) _

/-- A contact that has its turn, or is passed over once more, is one turn less. -/
theorem budget_lt {l' : Lookup (PeerContact Addr) (Holder Addr)}
    {deferrals deferrals' : BTreeMap NodeId Nat} (hspent : l.spent ⊆ l'.spent)
    (hcounted : Counted deferrals deferrals') {id : NodeId} (hknown : id ∈ known)
    (hfresh : id ∉ l.spent) (hturn : id ∈ l'.spent ∨
      (deferrals.get? id).getD 0 < (deferrals'.get? id).getD 0 ∧
        (deferrals.get? id).getD 0 < MAX_DEFERRALS) :
    budget known l' deferrals' < budget known l deferrals := by
  have hsub : known \ l'.spent ⊆ known \ l.spent :=
    Finset.sdiff_subset_sdiff (Finset.Subset.refl _) hspent
  have hsum : ∀ other ∈ known, MAX_DEFERRALS - (deferrals'.get? other).getD 0 ≤
      MAX_DEFERRALS - (deferrals.get? other).getD 0 :=
    fun other _ => Nat.sub_le_sub_left (hcounted other) _
  unfold budget
  rcases hturn with hin | ⟨hmore, hfew⟩
  · apply Nat.add_lt_add_of_lt_of_le _ (Finset.sum_le_sum hsum)
    apply Finset.card_lt_card
    refine Finset.ssubset_iff_subset_ne.mpr ⟨hsub, fun heq => ?_⟩
    have hbefore : id ∈ known \ l.spent := Finset.mem_sdiff.mpr ⟨hknown, hfresh⟩
    rw [← heq] at hbefore
    exact (Finset.mem_sdiff.mp hbefore).2 hin
  · apply Nat.add_lt_add_of_le_of_lt (Finset.card_le_card hsub)
    apply Finset.sum_lt_sum hsum
    exact ⟨id, hknown, by omega⟩

/-- The calls of a run fit one after the other. -/
theorem fits_cons {op : Op Addr} (hfirst : w.Fits op)
    (hrest : ∀ done o, done ++ [o] <+: ops → ((w.step op).run done).Fits o) :
    ∀ done o, done ++ [o] <+: op :: ops → (w.run done).Fits o := by
  intro done o hprefix
  cases done with
  | nil =>
    rcases List.cons_prefix_cons.mp hprefix with ⟨rfl, -⟩
    exact hfirst
  | cons first done =>
    rcases List.cons_prefix_cons.mp hprefix with ⟨rfl, hlater⟩
    exact hrest done o hlater

theorem fits_nil (w : Watched Addr) :
    ∀ done o, done ++ [o] <+: ([] : List (Op Addr)) → (w.run done).Fits o := by
  intro done o hprefix
  have hlength := hprefix.length_le
  simp at hlength

/-- A round: `next_hops` is called while nobody is awaited. -/
def isRound (w : Watched Addr) : Op Addr → Bool
  | .nextHops _ _ => decide (w.awaiting = ∅)
  | _ => false

def rounds (w : Watched Addr) : List (Op Addr) → Nat
  | [] => 0
  | op :: ops => (if w.isRound op then 1 else 0) + (w.step op).rounds ops

theorem Tended.idle (h : w.Tended) (hquiet : w.awaiting = ∅)
    (hl : w.dir.lookups.get? address = some l) : l.inFlight = ∅ := by
  refine Finset.eq_empty_of_forall_notMem fun id hid => ?_
  have hawaited := (h.handed address l hl id hid).1
  rw [hquiet] at hawaited
  exact Finset.notMem_empty id hawaited

/-- A lookup that is not done is still there after a call, with no more turns
than before, and with fewer where the call was a round. -/
theorem Tended.budget_step (h : w.Tended) (hknows : Directory.Knows known w.dir) (op : Op Addr)
    (hl : w.dir.lookups.get? address = some l) (hopen : l.isDone = false) :
    ∃ l', (w.step op).dir.lookups.get? address = some l' ∧
      budget known l' (w.step op).dir.deferrals + (if w.isRound op then 1 else 0) ≤
        budget known l w.dir.deferrals := by
  have hstill : ∀ {d' : Directory Addr} {heard : List (PeerContact Addr)} {sender : NodeId}
      {due : Prop}, Directory.Turned heard sender address due w.dir d' →
      d'.deferrals = w.dir.deferrals → ∃ l', d'.lookups.get? address = some l' ∧
        budget known l' d'.deferrals + 0 ≤ budget known l w.dir.deferrals := by
    intro d' heard sender due hturned hdeferrals
    unfold Directory.Turned at hturned
    rw [hl] at hturned
    generalize d'.lookups.get? address = after at hturned
    cases hturned with
    | some hadvances =>
      refine ⟨_, rfl, ?_⟩
      rw [hdeferrals]
      exact budget_le hadvances.1.spent fun _ => Nat.le_refl _
  cases op with
  | saw contact => exact ⟨l, hl, Nat.le_refl _⟩
  | forget id => exact ⟨l, hl, Nat.le_refl _⟩
  | recordTell sender addr asked addresses now => exact ⟨l, hl, Nat.le_refl _⟩
  | expire now => exact ⟨l, hl, Nat.le_refl _⟩
  | seek other =>
    have hstep : w.step (.seek other) = ⟨(w.dir.seek other).1, w.awaiting⟩ := rfl
    rw [hstep]
    rcases w.dir.seek_cases other with hsame | ⟨habsent, key, hseek⟩
    · rw [hsame]
      exact ⟨l, hl, Nat.le_refl _⟩
    · rw [hseek]
      refine ⟨l, ?_, Nat.le_refl _⟩
      have hne : address ≠ other := by
        rintro rfl
        rw [hl] at habsent
        cases habsent
      exact (BTreeMap.get?_insert ..).trans ((if_neg hne).trans hl)
  | onProviders sender answers =>
    rcases w.dir.turned_onProviders sender answers address with ⟨hturned, -, hdeferrals⟩
    exact hstill hturned hdeferrals
  | onUnreachable peer =>
    rcases w.dir.turned_onUnreachable peer address with ⟨hturned, -, hdeferrals⟩
    exact hstill hturned hdeferrals
  | takeFinished =>
    refine ⟨l, BTreeMap.get?_retain.mpr ⟨hl, ?_⟩, Nat.le_refl _⟩
    rw [hopen]
    rfl
  | nextHops limit dialable =>
    rcases w.dir.rounded_nextHops limit dialable hl with ⟨l', hl', hrounded⟩
    rcases w.dir.nextHops_fields limit dialable with ⟨-, -, hdeferrals⟩
    have hcounted : Counted w.dir.deferrals (w.dir.hops dialable).deferrals :=
      w.dir.counted_hops dialable
    refine ⟨l', hl', ?_⟩
    have hstep : (w.step (.nextHops limit dialable)).dir.deferrals =
        (w.dir.hops dialable).deferrals := hdeferrals
    rw [hstep]
    by_cases hquiet : w.awaiting = ∅
    · have hround : w.isRound (.nextHops limit dialable) = true := decide_eq_true hquiet
      rw [if_pos hround, Nat.add_one_le_iff]
      -- somebody of the list has a turn, or is passed over once more
      have hidle := h.idle hquiet hl
      rcases List.exists_mem_of_ne_nil _ (Lookup.frontier_ne_nil (h.live address l hl) hidle hopen)
        with ⟨c, hc⟩
      rcases Lookup.mem_frontier hc with ⟨hclosest, hqueried, hflight⟩
      have hfresh : c.id ∉ l.spent := by
        rw [Lookup.spent, Finset.mem_union, not_or]
        exact ⟨hqueried, hflight⟩
      refine budget_lt hrounded.spent hcounted
        ((hknows.lookups address l hl).closest hclosest) hfresh ?_
      cases hdial : dialable c.id with
      | true => exact .inl (hrounded.asked c hc hdial).1
      | false =>
        rcases hrounded.passed c hc hdial with ⟨hmore, hfew | hin⟩
        · exact .inr ⟨hmore, hfew⟩
        · exact .inl hin
    · have hround : ¬w.isRound (.nextHops limit dialable) = true := by
        simpa [isRound] using hquiet
      rw [if_neg hround, Nat.add_zero]
      exact budget_le hrounded.spent hcounted

/-- A lookup is done before a run has had more rounds than it has turns. -/
theorem Tended.done_of_rounds (h : w.Tended) (hknows : Directory.Knows known w.dir)
    (hfits : ∀ done op, done ++ [op] <+: ops → (w.run done).Fits op)
    (hin : ∀ op ∈ ops, ∀ c ∈ op.contacts, c.id ∈ known) (hl : w.dir.lookups.get? address = some l)
    (hmany : budget known l w.dir.deferrals < w.rounds ops) :
    ∃ done, done <+: ops ∧ ∃ l', (w.run done).dir.lookups.get? address = some l' ∧
      l'.isDone = true := by
  induction ops generalizing w l with
  | nil => exact absurd hmany (Nat.not_lt_zero _)
  | cons op ops ih =>
    cases hdone : l.isDone with
    | true => exact ⟨[], List.nil_prefix, l, hl, hdone⟩
    | false =>
      rcases h.budget_step hknows op hl hdone with ⟨l', hl', hbudget⟩
      have hfirst : w.Fits op := hfits [] op ⟨ops, rfl⟩
      have hrest : budget known l' (w.step op).dir.deferrals < (w.step op).rounds ops := by
        unfold rounds at hmany
        omega
      rcases ih (h.step hfirst) (hknows.step (hin op List.mem_cons_self))
        (fun done o hprefix => hfits (op :: done) o (List.cons_prefix_cons.mpr ⟨rfl, hprefix⟩))
        (fun o ho => hin o (List.mem_cons_of_mem _ ho)) hl' hrest with
        ⟨done, hprefix, l'', hl'', hfinished⟩
      exact ⟨op :: done, List.cons_prefix_cons.mpr ⟨rfl, hprefix⟩, l'', hl'', hfinished⟩

/-- The next round asks the contact, or passes it over once more. -/
def HasTurn (w : Watched Addr) (c : PeerContact Addr) : Prop :=
  ∀ limit dialable, w.Fits (.nextHops limit dialable) →
    (dialable c.id = true → ∃ asked ∈ (w.dir.nextHops limit dialable).2, asked.id = c.id) ∧
    (dialable c.id = false → (w.dir.deferrals.get? c.id).getD 0 <
      ((w.dir.nextHops limit dialable).1.deferrals.get? c.id).getD 0)

theorem Tended.hasTurn (h : w.Tended) (hquiet : w.awaiting = ∅)
    (hl : w.dir.lookups.get? address = some l) (hopen : l.isDone = false) :
    ∃ c ∈ l.closest, c.id ∉ l.queried ∧ w.HasTurn c := by
  rcases List.exists_mem_of_ne_nil _
    (Lookup.frontier_ne_nil (h.live address l hl) (h.idle hquiet hl) hopen) with ⟨c, hc⟩
  rcases Lookup.mem_frontier hc with ⟨hclosest, hqueried, -⟩
  refine ⟨c, hclosest, hqueried, fun limit dialable hfits => ?_⟩
  rcases w.dir.rounded_nextHops limit dialable hl with ⟨l', -, hrounded⟩
  constructor
  · intro hdial
    have hreturned := Directory.mem_nextHops (h.booked dialable) hfits
      (hrounded.asked c hc hdial).2
    exact List.mem_map.mp (List.mem_toFinset.mp hreturned)
  · intro hdial
    rw [(w.dir.nextHops_fields limit dialable).2.2]
    exact (hrounded.passed c hc hdial).1

/-- In a run in which no call of `next_hops` cuts its list, a lookup waits for
nobody but those awaited; with nobody awaited it is done or has somebody for the
next round; and over finitely many contacts it is done after finitely many
rounds. -/
theorem lookups_finish (localId : NodeId) (ops : List (Op Addr))
    (hfits : ∀ done op, done ++ [op] <+: ops → ((start localId).run done).Fits op) :
    (∀ done, done <+: ops → ∀ address l,
      ((start localId).run done).dir.lookups.get? address = some l →
        (∀ id ∈ l.inFlight, id ∈ ((start localId).run done).awaiting) ∧
        (((start localId).run done).awaiting = ∅ → l.isDone = true ∨
          ∃ c ∈ l.closest, c.id ∉ l.queried ∧ ((start localId).run done).HasTurn c)) ∧
    ∀ known : Finset NodeId, (∀ op ∈ ops, ∀ c ∈ op.contacts, c.id ∈ known) →
      ∀ done rest, ops = done ++ rest → ∀ address l,
        ((start localId).run done).dir.lookups.get? address = some l →
        known.card * (1 + MAX_DEFERRALS) < ((start localId).run done).rounds rest →
        ∃ more, more <+: rest ∧ ∃ l',
          (((start localId).run done).run more).dir.lookups.get? address = some l' ∧
            l'.isDone = true := by
  have htended : ∀ done, done <+: ops → ((start localId).run done).Tended := fun done hdone =>
    (tended_start localId).run fun earlier op hearlier => hfits earlier op (hearlier.trans hdone)
  constructor
  · intro done hdone address l hl
    refine ⟨fun id hid => ((htended done hdone).handed address l hl id hid).1, fun hquiet => ?_⟩
    cases hopen : l.isDone with
    | true => exact .inl rfl
    | false => exact .inr ((htended done hdone).hasTurn hquiet hl hopen)
  · rintro known hin done rest rfl address l hl hmany
    refine (htended done (List.prefix_append _ _)).done_of_rounds
      (knows_run (Directory.knows_new known localId) fun op hop => hin op (List.mem_append_left _ hop)) ?_
      (fun op hop => hin op (List.mem_append_right _ hop)) hl
      (lt_of_le_of_lt (budget_bound known l _) hmany)
    intro earlier op hearlier
    have hrun : ((start localId).run done).run earlier = (start localId).run (done ++ earlier) := by
      unfold run
      rw [List.foldl_append]
    rw [hrun]
    refine hfits (done ++ earlier) op ?_
    rw [List.append_assoc]
    exact (List.prefix_append_right_inj done).mpr hearlier

section Sample

/-- An address, as the hexadecimal of its digest. -/
def soughtAddress : String := String.ofList (List.replicate 64 '0')

/-- Two contacts are booked and one is returned, which cannot be reached. -/
def cutSample : List (Op Unit) :=
  [.saw (Directory.farContact 0), .saw (Directory.farContact 1), .seek soughtAddress,
    .nextHops 1 fun _ => true, .onUnreachable (Directory.farContact 0).id]

/-- The same with room for both, and both answered for. -/
def roomySample : List (Op Unit) :=
  [.saw (Directory.farContact 0), .saw (Directory.farContact 1), .seek soughtAddress,
    .nextHops 2 fun _ => true, .onUnreachable (Directory.farContact 0).id,
    .onProviders (Directory.farContact 1).id []]

theorem lookups_finish_sample :
    ((start 0#256).run roomySample).awaiting = ∅ ∧
    ∀ address l, ((start 0#256).run roomySample).dir.lookups.get? address = some l →
      ∀ id ∈ l.inFlight, id ∈ ((start 0#256).run roomySample).awaiting := by
  refine ⟨by decide +kernel, fun address l hl => ?_⟩
  refine ((lookups_finish 0#256 roomySample ?_).1 roomySample (List.prefix_refl _) address l hl).1
  refine fits_cons trivial (fits_cons trivial (fits_cons trivial (fits_cons ?_
    (fits_cons trivial (fits_cons trivial (fits_nil _))))))
  show (Directory.wanted _ _).card ≤ 2
  decide +kernel

theorem not_lookups_finish : ¬∀ (localId : NodeId) (ops : List (Op Unit)) (address : String)
    (l : Lookup (PeerContact Unit) (Holder Unit)),
    ((start localId).run ops).dir.lookups.get? address = some l →
      ∀ id ∈ l.inFlight, id ∈ ((start localId).run ops).awaiting := by
  intro h
  have hawaiting : ((start 0#256).run cutSample).awaiting = ∅ := by decide +kernel
  have hflight : (((start 0#256).run cutSample).dir.lookups.get? soughtAddress).map
      Lookup.inFlight = some {(Directory.farContact 1).id} := by decide +kernel
  rcases Option.map_eq_some_iff.mp hflight with ⟨l, hl, hin⟩
  have hawaited := h 0#256 cutSample soughtAddress l hl (Directory.farContact 1).id
    (hin ▸ Finset.mem_singleton_self _)
  rw [hawaiting] at hawaited
  exact Finset.notMem_empty _ hawaited

end Sample

end Watched

end Cairn.Ports.Dht
