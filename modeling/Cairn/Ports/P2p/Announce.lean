import Cairn.Ports.P2p.ProviderStore
import Cairn.Verified.Leaders

/-!
# Who is kept whatever the order

The provider store of `src/dht.rs` under any sequence of announcements, for as
long as nothing lapses and there is room for every key. For each key it keeps the
providers that are announced for the longest, each until the latest moment it was
announced for.
-/

namespace Cairn.Ports.Dht

open Cairn.Verified
open Cairn.Verified.Leaders

namespace ProviderStore

variable {P : Type} [Provider P]

/-- One call of `announce`. -/
structure Announcement (P : Type) where
  key : NodeId
  record : P
  expiresAt : Nat

/-- The records of a key. -/
def entries (s : ProviderStore P) (key : NodeId) : List (P × Nat) := (s.keys.get? key).getD []

def apply (s : ProviderStore P) (call : Announcement P) : ProviderStore P :=
  (s.announce call.key call.record call.expiresAt).1

/-- The store after a sequence of announcements. -/
def run (calls : List (Announcement P)) : ProviderStore P := calls.foldl apply new

/-- A record by its provider, as far as the store compares them. -/
def tag (held : P × Nat) : NodeId × Nat := (Provider.provider held.1, held.2)

/-- What came in for a key. -/
def came (calls : List (Announcement P)) (key : NodeId) : List (NodeId × Nat) :=
  (calls.filter fun call => call.key = key).map fun call =>
    (Provider.provider call.record, call.expiresAt)

/-- The list of a key after one more announcement for it. -/
def announceEntries (entries : List (P × Nat)) (record : P) (expiresAt : Nat) : List (P × Nat) :=
  if entries.any (isBy record) then
    entries.modify (entries.findIdx (isBy record)) fun held => (record, max held.2 expiresAt)
  else if MAX_PROVIDERS ≤ entries.length then
    match (entries.map Prod.snd).min? with
    | some soonest =>
      if expiresAt ≤ soonest then entries
      else entries.eraseP (fun held => decide (held.2 = soonest)) ++ [(record, expiresAt)]
    | none => entries ++ [(record, expiresAt)]
  else entries ++ [(record, expiresAt)]

/-- With room for its key, an announcement changes the list of that key alone. -/
theorem announce_fst (s : ProviderStore P) {key : NodeId} {record : P} {expiresAt : Nat}
    (hroom : s.keys.containsKey key ∨ s.keys.size < MAX_KEYS) :
    (s.announce key record expiresAt).1 =
      ⟨s.keys.insert key (announceEntries (s.entries key) record expiresAt)⟩ := by
  have hopen : ¬(MAX_KEYS ≤ s.keys.size && !s.keys.containsKey key) = true := by
    rcases hroom with h | h
    · simp [h]
    · simp [Nat.not_le.mpr h]
  unfold announce announceEntries
  rw [if_neg hopen, show (s.keys.get? key).getD [] = s.entries key from rfl]
  generalize s.entries key = held
  dsimp only
  by_cases hby : held.any (isBy record)
  · rw [if_pos hby, if_pos hby]
  · rw [if_neg hby, if_neg hby]
    by_cases hfull : MAX_PROVIDERS ≤ held.length
    · rw [if_pos hfull, if_pos hfull]
      cases (held.map Prod.snd).min? with
      | none => rfl
      | some soonest =>
        dsimp only
        split
        · rfl
        · rfl
    · rw [if_neg hfull, if_neg hfull]

theorem tag_mem {entries : List (P × Nat)} {record : P} :
    entries.any (isBy record) = true ↔
      Provider.provider record ∈ (entries.map tag).map Prod.fst := by
  rw [List.any_eq_true, List.map_map, List.mem_map]
  constructor
  · rintro ⟨held, hheld, hby⟩
    exact ⟨held, hheld, of_decide_eq_true hby⟩
  · rintro ⟨held, hheld, hby⟩
    exact ⟨held, hheld, decide_eq_true hby⟩

theorem isBy_findIdx {entries : List (P × Nat)} {record : P} {i : Nat}
    (hi : i < entries.length) (hfind : entries.findIdx (isBy record) = i) :
    Provider.provider entries[i].1 = Provider.provider record := by
  subst hfind
  exact of_decide_eq_true (List.findIdx_getElem (w := hi))

/-- The record that is brought up to date keeps its place and its provider. -/
theorem names_modify (entries : List (P × Nat)) (record : P) (expiresAt : Nat) :
    ((entries.modify (entries.findIdx (isBy record)) fun held =>
      (record, max held.2 expiresAt)).map tag).map Prod.fst = (entries.map tag).map Prod.fst := by
  refine List.ext_getElem (by simp) fun i hi hi' => ?_
  simp only [List.getElem_map, List.getElem_modify]
  split
  · rename_i hfind
    exact (isBy_findIdx (by simpa using hi') hfind).symm
  · rfl

theorem mem_modify {entries : List (P × Nat)} (hnodup : ((entries.map tag).map Prod.fst).Nodup)
    (record : P) (expiresAt : Nat) :
    ∀ p ∈ (entries.modify (entries.findIdx (isBy record)) fun held =>
      (record, max held.2 expiresAt)).map tag,
      p ∈ entries.map tag ∧ p.1 ≠ Provider.provider record ∨
        ∃ old, (Provider.provider record, old) ∈ entries.map tag ∧
          p = (Provider.provider record, max old expiresAt) := by
  intro p hp
  obtain ⟨held, hheld, rfl⟩ := List.mem_map.mp hp
  obtain ⟨i, hi, rfl⟩ := List.getElem_of_mem hheld
  rw [List.length_modify] at hi
  rw [List.getElem_modify]
  split
  · rename_i hfind
    refine .inr ⟨entries[i].2, List.mem_map.mpr ⟨entries[i], List.getElem_mem hi, ?_⟩, rfl⟩
    exact Prod.ext (isBy_findIdx hi hfind) rfl
  · rename_i hfind
    refine .inl ⟨List.mem_map_of_mem (List.getElem_mem hi), fun heq => hfind ?_⟩
    have hby : isBy record entries[i] = true := decide_eq_true heq
    have hlt : entries.findIdx (isBy record) < entries.length :=
      List.findIdx_lt_length.mpr ⟨_, List.getElem_mem hi, hby⟩
    have hfirst := isBy_findIdx hlt rfl
    rw [List.map_map] at hnodup
    refine (@List.Nodup.getElem_inj_iff _ _ hnodup _ (by simpa using hlt) _
      (by simpa using hi)).mp ?_
    rw [List.getElem_map, List.getElem_map]
    exact hfirst.trans heq.symm

/-- One announcement keeps the leading records of its key. -/
theorem leading_announceEntries {earlier : List (NodeId × Nat)} {entries : List (P × Nat)}
    (h : Leading MAX_PROVIDERS earlier (entries.map tag)) (record : P) (expiresAt : Nat) :
    Leading MAX_PROVIDERS (earlier ++ [(Provider.provider record, expiresAt)])
      ((announceEntries entries record expiresAt).map tag) := by
  unfold announceEntries
  split
  · rename_i hby
    exact h.update (names_modify entries record expiresAt) (tag_mem.mp hby)
      (mem_modify h.nodup record expiresAt)
  · rename_i hby
    have hout := mt tag_mem.mpr hby
    split
    · rename_i hfull
      have hlength : (entries.map tag).length = MAX_PROVIDERS :=
        le_antisymm h.length (by rwa [List.length_map])
      cases hmin : (entries.map Prod.snd).min? with
      | none =>
        have hnil := List.map_eq_nil_iff.mp (List.min?_eq_none_iff.mp hmin)
        rw [hnil, List.length_nil] at hfull
        exact absurd hfull (Nat.not_le.mpr (by decide : 0 < MAX_PROVIDERS))
      | some soonest =>
        obtain ⟨hmem, hleast⟩ := List.min?_eq_some_iff.mp hmin
        have hle : ∀ p ∈ entries.map tag, soonest ≤ p.2 := by
          intro p hp
          obtain ⟨held, hheld, rfl⟩ := List.mem_map.mp hp
          exact hleast _ (List.mem_map_of_mem hheld)
        dsimp only
        split
        · rename_i hlow
          exact h.refuse hout hlength fun p hp => hlow.trans (hle p hp)
        · rename_i hlow
          obtain ⟨held, hheld, hsoonest⟩ := List.mem_map.mp hmem
          obtain ⟨least, before, after, -, hleast, heq, herase⟩ :=
            List.exists_of_eraseP hheld (p := fun held => decide (held.2 = soonest))
              (decide_eq_true hsoonest)
          have hsnd : (tag least).2 = soonest := of_decide_eq_true hleast
          rw [herase, List.map_append, List.map_append]
          rw [heq, List.map_append, List.map_cons] at h hout hlength hle
          exact h.replace hout hlength (fun p hp => hsnd ▸ hle p hp) (by rw [hsnd]; omega)
    · rename_i hroom
      rw [List.map_append]
      exact h.add hout (by rw [List.length_map]; omega)

/-! ## Sequences -/

/-- There is room for every key that is announced. -/
def Roomy (calls : List (Announcement P)) : Prop :=
  (calls.map Announcement.key).dedup.length ≤ MAX_KEYS

omit [Provider P] in
theorem length_dedup_le {keys keys' : List NodeId} (h : keys ⊆ keys') :
    keys.dedup.length ≤ keys'.dedup.length :=
  ((List.nodup_dedup keys).subperm fun _ hkey =>
    List.mem_dedup.mpr (h (List.mem_dedup.mp hkey))).length_le

variable {calls : List (Announcement P)} {s : ProviderStore P}

omit [Provider P] in
theorem Roomy.of_append {more : List (Announcement P)} (h : Roomy (calls ++ more)) :
    Roomy calls := by
  refine le_trans (length_dedup_le ?_) h
  rw [List.map_append]
  exact List.subset_append_left _ _

/-- What is known of the store after a sequence of announcements. -/
structure Ran (calls : List (Announcement P)) (s : ProviderStore P) : Prop where
  keys : ∀ key, s.keys.containsKey key ↔ key ∈ calls.map Announcement.key
  leading : ∀ key, Leading MAX_PROVIDERS (came calls key) ((s.entries key).map tag)

theorem Ran.size (h : Ran calls s) : s.keys.size = (calls.map Announcement.key).dedup.length := by
  have hperm : s.keys.keys.Perm (calls.map Announcement.key).dedup := by
    rw [List.perm_ext_iff_of_nodup s.keys.nodup_keys (List.nodup_dedup _)]
    intro key
    rw [List.mem_dedup, ← h.keys, BTreeMap.containsKey_iff, BTreeMap.mem_keys]
  rw [← hperm.length_eq, BTreeMap.size, BTreeMap.keys, List.length_map]

/-- A key that is announced for the first time finds room. -/
theorem Ran.room (h : Ran calls s) {call : Announcement P} (hroomy : Roomy (calls ++ [call])) :
    s.keys.containsKey call.key ∨ s.keys.size < MAX_KEYS := by
  by_cases hkey : s.keys.containsKey call.key
  · exact .inl hkey
  · refine .inr ?_
    rw [h.keys] at hkey
    have hnodup : (call.key :: (calls.map Announcement.key).dedup).Nodup :=
      List.nodup_cons.mpr ⟨mt List.mem_dedup.mp hkey, List.nodup_dedup _⟩
    have hsubset : call.key :: (calls.map Announcement.key).dedup ⊆
        ((calls ++ [call]).map Announcement.key).dedup := by
      intro key hmem
      rw [List.mem_dedup, List.map_append, List.mem_append]
      rcases List.mem_cons.mp hmem with rfl | hmem
      · exact .inr (List.mem_singleton_self _)
      · exact .inl (List.mem_dedup.mp hmem)
    rw [h.size]
    exact (hnodup.subperm hsubset).length_le.trans hroomy

theorem came_append (calls : List (Announcement P)) (call : Announcement P) (key : NodeId) :
    came (calls ++ [call]) key = came calls key ++
      if call.key = key then [(Provider.provider call.record, call.expiresAt)] else [] := by
  rw [came, List.filter_append, List.map_append]
  by_cases h : call.key = key
  · rw [if_pos h, List.filter_singleton, decide_eq_true h, cond_true]
    rfl
  · rw [if_neg h, List.filter_singleton, decide_eq_false h, cond_false]
    rfl

/-- One more announcement. -/
theorem Ran.apply (h : Ran calls s) {call : Announcement P} (hroomy : Roomy (calls ++ [call])) :
    Ran (calls ++ [call]) (s.apply call) := by
  have hstore := @announce_fst _ _ s _ call.record call.expiresAt (h.room hroomy)
  constructor
  · intro key
    rw [ProviderStore.apply, hstore, BTreeMap.containsKey_iff, List.map_append, List.mem_append,
      ← h.keys, BTreeMap.containsKey_iff]
    dsimp only
    rw [BTreeMap.get?_insert, List.map_singleton, List.mem_singleton]
    split
    · rename_i heq
      simp [heq]
    · rename_i hne
      simp [hne]
  · intro key
    rw [came_append, ProviderStore.apply, hstore, entries]
    dsimp only
    rw [BTreeMap.get?_insert]
    by_cases heq : call.key = key
    · subst heq
      rw [if_pos rfl, if_pos rfl]
      exact leading_announceEntries (h.leading call.key) call.record call.expiresAt
    · rw [if_neg heq, if_neg (Ne.symm heq), List.append_nil]
      exact h.leading key

theorem ran_run (h : Roomy calls) : Ran calls (run calls) := by
  induction calls using List.reverseRecOn with
  | nil =>
    refine ⟨fun key => ?_, fun key => leading_nil⟩
    rw [BTreeMap.containsKey_iff]
    simp [run, new]
  | append_singleton calls call ih =>
    rw [run, List.foldl_append]
    exact (ih h.of_append).apply h

/-- The providers of a key. -/
def names (s : ProviderStore P) (key : NodeId) : List NodeId :=
  (s.entries key).map fun held => Provider.provider held.1

/-- A provider is kept until some moment at least. -/
def Keeps (entries : List (P × Nat)) (provider : NodeId) (moment : Nat) : Prop :=
  ∃ held ∈ entries, Provider.provider held.1 = provider ∧ moment ≤ held.2

/-- What expires no later than a provider that is kept does not displace it. -/
theorem Keeps.announceEntries {entries : List (P × Nat)} {provider : NodeId} {expiry : Nat}
    (h : Keeps entries provider expiry) (record : P) {expiresAt : Nat} (hle : expiresAt ≤ expiry) :
    Keeps (announceEntries entries record expiresAt) provider expiry := by
  obtain ⟨held, hheld, hprovider, hexpiry⟩ := h
  have hback : ∀ more : List (P × Nat), Keeps (entries ++ more) provider expiry :=
    fun more => ⟨held, List.mem_append_left _ hheld, hprovider, hexpiry⟩
  unfold ProviderStore.announceEntries
  split
  · obtain ⟨i, hi, rfl⟩ := List.getElem_of_mem hheld
    refine ⟨_, List.getElem_mem (by rwa [List.length_modify]), ?_⟩
    rw [List.getElem_modify]
    split
    · rename_i hfind
      exact ⟨(isBy_findIdx hi hfind).symm.trans hprovider, hexpiry.trans (Nat.le_max_left _ _)⟩
    · exact ⟨hprovider, hexpiry⟩
  split
  · split
    · rename_i soonest _
      split
      · exact ⟨held, hheld, hprovider, hexpiry⟩
      · rename_i hlow
        have hstays : ¬decide (held.2 = soonest) = true := by
          rw [decide_eq_true_eq]
          omega
        have hheld' := (List.mem_eraseP_of_neg (p := fun held : P × Nat =>
          decide (held.2 = soonest)) hstays).mpr hheld
        exact ⟨held, List.mem_append_left _ hheld', hprovider, hexpiry⟩
    · exact hback _
  · exact hback _

theorem Keeps.run {calls : List (Announcement P)} {key provider : NodeId} {expiry : Nat}
    (h : Keeps ((run calls).entries key) provider expiry) (flood : List (Announcement P))
    (hroomy : Roomy (calls ++ flood))
    (hflood : ∀ call ∈ flood, call.key = key → call.expiresAt ≤ expiry) :
    Keeps ((ProviderStore.run (calls ++ flood)).entries key) provider expiry := by
  induction flood using List.reverseRecOn with
  | nil => rwa [List.append_nil]
  | append_singleton flood call ih =>
    rw [← List.append_assoc] at hroomy ⊢
    have hkept := ih hroomy.of_append fun call hcall => hflood call (List.mem_append_left _ hcall)
    have hran := ran_run hroomy.of_append
    have hstore := @announce_fst _ _ (ProviderStore.run (calls ++ flood)) _ call.record
      call.expiresAt (hran.room hroomy)
    rw [ProviderStore.run, List.foldl_append]
    show Keeps (((ProviderStore.run (calls ++ flood)).apply call).entries key) provider expiry
    rw [ProviderStore.apply, hstore, entries]
    dsimp only
    rw [BTreeMap.get?_insert]
    split
    · rename_i heq
      subst heq
      exact hkept.announceEntries call.record
        (hflood call (List.mem_append_right _ (List.mem_singleton_self _)) rfl)
    · exact hkept

/-- After any sequence of announcements, with room for every key and nothing
lapsing, a key has each provider once, and what it has of them expires when the
longest announced do. Where no two announcements of the key expire together, any
order of the sequence leaves the same providers; and what expires no later than a
provider that is kept does not displace it. -/
theorem announced_keeps_longest (calls : List (Announcement P)) (hroomy : Roomy calls)
    (key : NodeId) :
    ((run calls).names key).Nodup ∧
    (((run calls).entries key).map Prod.snd).Perm
      (largest MAX_PROVIDERS (maxima (came calls key))) ∧
    (((came calls key).map Prod.snd).Nodup → ∀ calls', calls.Perm calls' → ∀ provider,
      provider ∈ (run calls).names key ↔ provider ∈ (run calls').names key) ∧
    ∀ held ∈ (run calls).entries key, ∀ flood, Roomy (calls ++ flood) →
      (∀ call ∈ flood, call.key = key → call.expiresAt ≤ held.2) →
      Keeps ((run (calls ++ flood)).entries key) (Provider.provider held.1) held.2 := by
  have hleading := (ran_run hroomy).leading key
  have hnames : ∀ s : ProviderStore P, ((s.entries key).map tag).map Prod.fst = s.names key :=
    fun s => List.map_map
  refine ⟨?_, ?_, fun hnodup calls' hperm provider => ?_, fun held hheld flood hroomy' hflood => ?_⟩
  · rw [← hnames]
    exact hleading.nodup
  · have hvalues := hleading.perm_largest
    rwa [List.map_map] at hvalues
  · have hroomy' : Roomy calls' := by
      unfold Roomy
      rwa [← ((hperm.map Announcement.key).dedup).length_eq]
    have hleading' := (ran_run hroomy').leading key
    have hcame : (came calls key).Perm (came calls' key) := (hperm.filter _).map _
    rw [← hnames, ← hnames]
    constructor
    · exact hleading.mem_names_of_perm hleading' hcame hnodup
    · exact hleading'.mem_names_of_perm hleading hcame.symm
        ((hcame.map Prod.snd).nodup_iff.mp hnodup)
  · exact Keeps.run ⟨held, hheld, rfl, le_refl _⟩ flood hroomy' hflood

/-- Two announcements of one provider for one key. -/
theorem announced_keeps_longest_sample :
    (((@run NodeId ⟨id⟩ [⟨0, 1, 10⟩, ⟨0, 1, 7⟩]).entries 0).map Prod.snd).Perm
      (largest MAX_PROVIDERS (maxima (@came NodeId ⟨id⟩ [⟨0, 1, 10⟩, ⟨0, 1, 7⟩] 0))) :=
  (@announced_keeps_longest NodeId ⟨id⟩ [⟨0, 1, 10⟩, ⟨0, 1, 7⟩] (by unfold Roomy; decide) 0).2.1

end ProviderStore

end Cairn.Ports.Dht
