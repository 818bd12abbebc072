import Mathlib

/-!
# Ordered maps as strictly sorted association lists

A `BTreeMap κ ν` is its in-order listing: the entries in strictly
increasing key order. Nothing about the balancing of a real B-tree is
observable, so the listing *is* the map, and carrying the order as a field
makes two maps with the same lookups equal (`ext_get?`).

`insert` is a single pass that replaces the value on a key collision, which
is why `get?_insert` needs no well-formedness premise.
-/

namespace Cairn.Verified

universe u v

/-- An ordered map, listed in strictly increasing key order. -/
structure BTreeMap (κ : Type u) (ν : Type v) [LinearOrder κ] where
  entries : List (κ × ν)
  sorted : entries.Pairwise fun a b => a.1 < b.1

namespace BTreeMap

variable {κ : Type u} {ν : Type v} [LinearOrder κ]

/-- Insertion into a sorted listing, replacing the value of an equal key. -/
def insertEntry (k : κ) (x : ν) : List (κ × ν) → List (κ × ν)
  | [] => [(k, x)]
  | (k', x') :: rest =>
    if k < k' then (k, x) :: (k', x') :: rest
    else if k = k' then (k, x) :: rest
    else (k', x') :: insertEntry k x rest

/-- The value listed under `k`. -/
def lookupEntry (k : κ) : List (κ × ν) → Option ν
  | [] => none
  | (k', x') :: rest => if k = k' then some x' else lookupEntry k rest

variable {e : κ × ν} {k : κ} {l pairs : List (κ × ν)} {x : ν} {m : BTreeMap κ ν}

theorem mem_insertEntry (h : e ∈ insertEntry k x l) : e = (k, x) ∨ e ∈ l := by
  induction l with
  | nil => simpa [insertEntry] using h
  | cons hd tl ih =>
    obtain ⟨k', x'⟩ := hd
    rw [insertEntry] at h
    split_ifs at h with h1 h2
    · simpa using h
    · rcases List.mem_cons.mp h with h | h
      · exact .inl h
      · exact .inr (List.mem_cons_of_mem _ h)
    · rcases List.mem_cons.mp h with h | h
      · exact .inr (by simp [h])
      · exact (ih h).imp_right (List.mem_cons_of_mem _)

theorem insertEntry_sorted (k : κ) (x : ν) (h : l.Pairwise fun a b => a.1 < b.1) :
    (insertEntry k x l).Pairwise fun a b => a.1 < b.1 := by
  induction l with
  | nil => simp [insertEntry]
  | cons hd tl ih =>
    obtain ⟨k', x'⟩ := hd
    obtain ⟨hhd, htl⟩ := List.pairwise_cons.mp h
    rw [insertEntry]
    split_ifs with h1 h2
    · refine List.pairwise_cons.mpr ⟨?_, h⟩
      intro e he
      rcases List.mem_cons.mp he with rfl | he
      · exact h1
      · exact lt_trans h1 (hhd e he)
    · subst h2
      exact List.pairwise_cons.mpr ⟨hhd, htl⟩
    · refine List.pairwise_cons.mpr ⟨?_, ih htl⟩
      intro e he
      rcases mem_insertEntry he with rfl | he
      · exact lt_of_le_of_ne (not_lt.mp h1) (Ne.symm h2)
      · exact hhd e he

/-- An insertion leaves the other keys alone. -/
theorem filter_insertEntry_ne (k : κ) (x : ν) (l : List (κ × ν)) :
    ((insertEntry k x l).filter fun e => e.1 ≠ k) = l.filter fun e => e.1 ≠ k := by
  induction l with
  | nil => simp [insertEntry]
  | cons hd tl ih =>
    rw [insertEntry]
    split_ifs with hlt heq
    · simp
    · simp [heq]
    · rw [List.filter_cons, List.filter_cons, ih]

theorem lookupEntry_insertEntry (k k' : κ) (x : ν) (l : List (κ × ν)) :
    lookupEntry k' (insertEntry k x l) =
      if k' = k then some x else lookupEntry k' l := by
  induction l with
  | nil => simp [insertEntry, lookupEntry]
  | cons hd tl ih =>
    obtain ⟨c, y⟩ := hd
    rw [insertEntry]
    by_cases h1 : k < c
    · rw [if_pos h1]
      rfl
    · rw [if_neg h1]
      by_cases h2 : k = c
      · subst h2
        simp only [if_pos, lookupEntry]
        split_ifs <;> rfl
      · rw [if_neg h2, lookupEntry, ih, lookupEntry]
        by_cases h3 : k' = c
        · rw [if_pos h3, if_pos h3, if_neg fun h => h2 (h.symm.trans h3)]
        · rw [if_neg h3, if_neg h3]

theorem lookupEntry_eq_some (h : lookupEntry k l = some x) : (k, x) ∈ l := by
  induction l with
  | nil => simp [lookupEntry] at h
  | cons hd tl ih =>
    obtain ⟨c, y⟩ := hd
    rw [lookupEntry] at h
    split_ifs at h with hk
    · cases h
      simp [hk]
    · exact List.mem_cons_of_mem _ (ih h)

theorem lookupEntry_of_mem (hs : l.Pairwise fun a b => a.1 < b.1) (h : (k, x) ∈ l) :
    lookupEntry k l = some x := by
  induction l with
  | nil => simp at h
  | cons hd tl ih =>
    obtain ⟨c, y⟩ := hd
    obtain ⟨hhd, htl⟩ := List.pairwise_cons.mp hs
    rcases List.mem_cons.mp h with h | h
    · cases h
      simp [lookupEntry]
    · have hne : k ≠ c := fun he => absurd (hhd _ h) (by simp [he])
      rw [lookupEntry, if_neg hne]
      exact ih htl h

/-! ## The map operations -/

/-- The empty map. -/
def empty : BTreeMap κ ν := ⟨[], List.Pairwise.nil⟩

instance : Inhabited (BTreeMap κ ν) := ⟨empty⟩

def get? (m : BTreeMap κ ν) (k : κ) : Option ν := lookupEntry k m.entries

def insert (m : BTreeMap κ ν) (k : κ) (x : ν) : BTreeMap κ ν :=
  ⟨insertEntry k x m.entries, insertEntry_sorted k x m.sorted⟩

def containsKey (m : BTreeMap κ ν) (k : κ) : Bool := (m.get? k).isSome

def keys (m : BTreeMap κ ν) : List κ := m.entries.map Prod.fst

def values (m : BTreeMap κ ν) : List ν := m.entries.map Prod.snd

/-- Collect an iterator of pairs; a later pair wins over an earlier one. -/
def ofList (l : List (κ × ν)) : BTreeMap κ ν :=
  l.foldl (fun m e => m.insert e.1 e.2) empty

@[simp] theorem get?_empty (k : κ) : (empty : BTreeMap κ ν).get? k = none := rfl

@[simp] theorem get?_insert (m : BTreeMap κ ν) (k k' : κ) (x : ν) :
    (m.insert k x).get? k' = if k' = k then some x else m.get? k' :=
  lookupEntry_insertEntry k k' x m.entries

theorem get?_eq_some_iff : m.get? k = some x ↔ (k, x) ∈ m.entries :=
  ⟨lookupEntry_eq_some, lookupEntry_of_mem m.sorted⟩

/-- The last pair under a key is the one a collected map holds. -/
theorem get?_foldl_insert (pairs : List (κ × ν)) (m : BTreeMap κ ν) (k : κ) :
    (pairs.foldl (fun m e => m.insert e.1 e.2) m).get? k =
      (lookupEntry k pairs.reverse).or (m.get? k) := by
  induction pairs using List.reverseRecOn with
  | nil => simp [lookupEntry]
  | append_singleton pairs e ih =>
    obtain ⟨c, x⟩ := e
    simp only [List.foldl_append, List.foldl_cons, List.foldl_nil, get?_insert,
      List.reverse_append, List.reverse_cons, List.reverse_nil, List.nil_append,
      List.singleton_append, lookupEntry]
    split_ifs with h
    · rfl
    · exact ih

theorem get?_ofList (pairs : List (κ × ν)) (k : κ) :
    (ofList pairs).get? k = lookupEntry k pairs.reverse := by
  rw [ofList, get?_foldl_insert]
  simp

/-- A collected map holds only pairs it was given. -/
theorem mem_of_get?_ofList (h : (ofList pairs).get? k = some x) : (k, x) ∈ pairs := by
  rw [get?_ofList] at h
  exact List.mem_reverse.mp (lookupEntry_eq_some h)

theorem isSome_lookupEntry_of_mem (h : (k, x) ∈ l) : (lookupEntry k l).isSome := by
  induction l with
  | nil => simp at h
  | cons e l ih =>
    rw [lookupEntry]
    split_ifs with hk
    · rfl
    · rcases List.mem_cons.mp h with rfl | h
      · exact absurd rfl hk
      · exact ih h

/-- A collected map has every key it was given. -/
theorem isSome_get?_ofList_of_mem (h : (k, x) ∈ pairs) : ((ofList pairs).get? k).isSome := by
  rw [get?_ofList]
  exact isSome_lookupEntry_of_mem (List.mem_reverse.mpr h)

/-- A collected map holds a pair it was given, if its key was given no other
value. -/
theorem get?_ofList_of_unique (h : (k, x) ∈ pairs) (hunique : ∀ y, (k, y) ∈ pairs → y = x) :
    (ofList pairs).get? k = some x := by
  obtain ⟨y, hy⟩ := Option.isSome_iff_exists.mp (isSome_get?_ofList_of_mem h)
  rw [hy, hunique y (mem_of_get?_ofList hy)]

theorem get?_ofList_eq_some_iff (hnodup : (pairs.map Prod.fst).Nodup) :
    (ofList pairs).get? k = some x ↔ (k, x) ∈ pairs := by
  refine ⟨mem_of_get?_ofList, fun h => get?_ofList_of_unique h fun y hy => ?_⟩
  exact congrArg Prod.snd (List.inj_on_of_nodup_map hnodup hy h rfl)

/-! ## Filtering and mapping -/

/-- Keep the entries the predicate accepts. -/
def retain (m : BTreeMap κ ν) (keep : κ → ν → Bool) : BTreeMap κ ν :=
  ⟨m.entries.filter fun e => keep e.1 e.2, m.sorted.filter _⟩

/-- Change every value in place. -/
def mapValues (m : BTreeMap κ ν) (f : ν → ν) : BTreeMap κ ν :=
  ⟨m.entries.map fun e => (e.1, f e.2), m.sorted.map _ fun _ _ h => h⟩

def size (m : BTreeMap κ ν) : Nat := m.entries.length

theorem get?_retain {keep : κ → ν → Bool} :
    (m.retain keep).get? k = some x ↔ m.get? k = some x ∧ keep k x = true := by
  rw [get?_eq_some_iff, get?_eq_some_iff]
  exact List.mem_filter

theorem lookupEntry_map (f : ν → ν) (k : κ) (l : List (κ × ν)) :
    lookupEntry k (l.map fun e => (e.1, f e.2)) = (lookupEntry k l).map f := by
  induction l with
  | nil => rfl
  | cons e l ih =>
    simp only [List.map_cons, lookupEntry, ih]
    split_ifs <;> rfl

@[simp] theorem get?_mapValues (m : BTreeMap κ ν) (f : ν → ν) (k : κ) :
    (m.mapValues f).get? k = (m.get? k).map f := lookupEntry_map f k m.entries

theorem mem_keys : k ∈ m.keys ↔ ∃ x, m.get? k = some x := by
  simp [keys, get?_eq_some_iff]

theorem containsKey_iff :
    m.containsKey k = true ↔ ∃ x, m.get? k = some x := Option.isSome_iff_exists

theorem nodup_keys (m : BTreeMap κ ν) : m.keys.Nodup := by
  refine List.Pairwise.map Prod.fst (fun a b h => ?_) m.sorted
  exact ne_of_lt h

/-! ## Extensionality -/

theorem entries_injective {m' : BTreeMap κ ν} (h : m.entries = m'.entries) : m = m' := by
  obtain ⟨l, hl⟩ := m
  obtain ⟨l', hl'⟩ := m'
  cases h
  rfl

/-- Two strictly sorted listings with the same members are the same list. -/
theorem sorted_ext {l' : List (κ × ν)} (hs : l.Pairwise fun a b => a.1 < b.1)
    (hs' : l'.Pairwise fun a b => a.1 < b.1) (h : ∀ e, e ∈ l ↔ e ∈ l') : l = l' := by
  induction l generalizing l' with
  | nil =>
    cases l' with
    | nil => rfl
    | cons b bs => exact absurd ((h b).mpr (by simp)) (by simp)
  | cons a as ih =>
    cases l' with
    | nil => exact absurd ((h a).mp (by simp)) (by simp)
    | cons b bs =>
      obtain ⟨ha, has⟩ := List.pairwise_cons.mp hs
      obtain ⟨hb, hbs⟩ := List.pairwise_cons.mp hs'
      -- Each head is the least of its listing, so the heads agree.
      have hab : a = b := by
        rcases List.mem_cons.mp ((h a).mp (by simp)) with he | he
        · exact he
        · rcases List.mem_cons.mp ((h b).mpr (by simp)) with he' | he'
          · exact he'.symm
          · exact absurd (hb a he) (lt_asymm (ha b he'))
      subst hab
      congr 1
      refine ih has hbs fun e => ⟨fun he => ?_, fun he => ?_⟩
      · rcases List.mem_cons.mp ((h e).mp (List.mem_cons_of_mem _ he)) with hea | hea
        · exact absurd (ha e he) (by simp [hea])
        · exact hea
      · rcases List.mem_cons.mp ((h e).mpr (List.mem_cons_of_mem _ he)) with hea | hea
        · exact absurd (hb e he) (by simp [hea])
        · exact hea

theorem ext_get? {m' : BTreeMap κ ν} (h : ∀ k, m.get? k = m'.get? k) : m = m' := by
  refine entries_injective (sorted_ext m.sorted m'.sorted fun e => ?_)
  rw [← get?_eq_some_iff (x := e.2), ← get?_eq_some_iff (x := e.2), h]

/-- Pairs under different keys may be collected in any order. -/
theorem ofList_perm {pairs' : List (κ × ν)} (hnodup : (pairs.map Prod.fst).Nodup)
    (h : pairs.Perm pairs') : ofList pairs = ofList pairs' := by
  refine ext_get? fun k => Option.ext fun x => ?_
  have hnodup' : (pairs'.map Prod.fst).Nodup := (h.map Prod.fst).nodup_iff.mp hnodup
  rw [get?_ofList_eq_some_iff hnodup, get?_ofList_eq_some_iff hnodup', h.mem_iff]

/-! ## Removing a key -/

/-- The map without a key. -/
def remove (m : BTreeMap κ ν) (k : κ) : BTreeMap κ ν := m.retain fun k' _ => decide (k' ≠ k)

@[simp] theorem get?_remove (m : BTreeMap κ ν) (k k' : κ) :
    (m.remove k).get? k' = if k' = k then none else m.get? k' := by
  apply Option.ext
  intro x
  rw [remove, get?_retain, decide_eq_true_eq]
  split_ifs with h <;> simp [h]

/-- Without a key it lacks, a map is what it was. -/
theorem remove_of_get?_none (h : m.get? k = none) : m.remove k = m := by
  obtain ⟨l, hl⟩ := m
  unfold remove retain
  congr 1
  apply List.filter_eq_self.mpr
  intro e he
  rw [decide_eq_true_eq]
  rintro rfl
  have hfound := lookupEntry_of_mem hl he
  rw [show lookupEntry e.1 l = none from h] at hfound
  cases hfound

theorem nodup_entries (m : BTreeMap κ ν) : m.entries.Nodup :=
  m.sorted.imp fun h heq => absurd (congrArg Prod.fst heq) (ne_of_lt h)

/-- What an insertion lists: the new pair, and the pairs of the other keys. -/
theorem entries_insert_perm (m : BTreeMap κ ν) (k : κ) (x : ν) :
    (m.insert k x).entries.Perm ((k, x) :: (m.remove k).entries) := by
  have hfresh : (k, x) ∉ (m.remove k).entries := by
    rw [← get?_eq_some_iff, get?_remove, if_pos rfl]
    simp
  rw [List.perm_ext_iff_of_nodup (nodup_entries _)
    (List.nodup_cons.mpr ⟨hfresh, nodup_entries _⟩)]
  rintro ⟨c, y⟩
  rw [List.mem_cons, ← get?_eq_some_iff, ← get?_eq_some_iff, get?_insert, get?_remove,
    Prod.mk.injEq]
  split_ifs with h
  · simp [h, eq_comm]
  · simp [h]

/-- A map lists a pair it has, and the pairs of the other keys. -/
theorem entries_perm_remove (h : m.get? k = some x) :
    m.entries.Perm ((k, x) :: (m.remove k).entries) := by
  have hsame : m.insert k x = m := by
    apply ext_get?
    intro c
    rw [get?_insert]
    split_ifs with hc
    · rw [hc, h]
    · rfl
  have hperm := entries_insert_perm m k x
  rwa [hsame] at hperm

/-! ## Rebuilding a map from its listing -/

theorem insertEntry_of_lt (h : ∀ e ∈ l, e.1 < k) : insertEntry k x l = l ++ [(k, x)] := by
  induction l with
  | nil => rfl
  | cons hd tl ih =>
    obtain ⟨c, y⟩ := hd
    have hc : c < k := h (c, y) (by simp)
    rw [insertEntry, if_neg (lt_asymm hc), if_neg (ne_of_gt hc),
      ih fun e he => h e (List.mem_cons_of_mem _ he)]
    rfl

theorem entries_insert_of_lt (h : ∀ e ∈ m.entries, e.1 < k) :
    (m.insert k x).entries = m.entries ++ [(k, x)] :=
  insertEntry_of_lt h

/-- A listing that continues with `(k, x)` is what inserting `(k, x)` builds. -/
theorem entries_insert_of_append {map : BTreeMap κ ν} {es : List (κ × ν)}
    (h : map.entries = m.entries ++ e :: es) : (m.insert e.1 e.2).entries = m.entries ++ [e] := by
  have hs := map.sorted
  rw [h] at hs
  have hlt : ∀ f ∈ m.entries, f.1 < e.1 := fun f hf =>
    (List.pairwise_append.mp hs).2.2 f hf e (by simp)
  exact entries_insert_of_lt hlt

theorem insert_eq_of_entries {map : BTreeMap κ ν} (h : map.entries = m.entries ++ [e]) :
    m.insert e.1 e.2 = map :=
  entries_injective ((entries_insert_of_append h).trans h.symm)

end BTreeMap

end Cairn.Verified
