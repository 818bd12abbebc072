import Cairn.Ports.P2p.Lookup

/-!
# Who holds what

The provider store of `src/dht.rs`: for each key the records of those that claim
to hold it, each with its expiry. A key takes at most `MAX_PROVIDERS` records; a
further one displaces the soonest to expire, and only where it expires later.
-/

namespace Cairn.Ports.Dht

open Cairn.Verified

def MAX_PROVIDERS : Nat := 20

def MAX_KEYS : Nat := 4096

structure ProviderStore (P : Type) where
  keys : BTreeMap NodeId (List (P × Nat))

namespace ProviderStore

variable {P : Type} [Provider P]

def new : ProviderStore P := ⟨.empty⟩

/-- The record is of this provider. -/
def isBy (record : P) (held : P × Nat) : Bool :=
  decide (Provider.provider held.1 = Provider.provider record)

/-- Record that somebody holds a key, until it expires. A key that is named has
its list from there on, also where nothing goes into it. -/
def announce (s : ProviderStore P) (key : NodeId) (record : P) (expiresAt : Nat) :
    ProviderStore P × Bool :=
  if MAX_KEYS ≤ s.keys.size && !s.keys.containsKey key then (s, false)
  else
    let entries := (s.keys.get? key).getD []
    let put (entries : List (P × Nat)) : ProviderStore P := ⟨s.keys.insert key entries⟩
    if entries.any (isBy record) then
      (put (entries.modify (entries.findIdx (isBy record)) fun held =>
        (record, max held.2 expiresAt)), true)
    else if MAX_PROVIDERS ≤ entries.length then
      match (entries.map Prod.snd).min? with
      | some soonest =>
        if expiresAt ≤ soonest then (put entries, false)
        else (put (entries.eraseP (fun held => decide (held.2 = soonest)) ++
          [(record, expiresAt)]), true)
      | none => (put (entries ++ [(record, expiresAt)]), true)
    else (put (entries ++ [(record, expiresAt)]), true)

/-- Who holds a key, as of now. -/
def providers (s : ProviderStore P) (key : NodeId) (now : Nat) : List P :=
  (((s.keys.get? key).getD []).filter fun held => decide (now < held.2)).map Prod.fst

/-- Drop what has lapsed, and how many records that were. -/
def expire (s : ProviderStore P) (now : Nat) : ProviderStore P × Nat :=
  let kept := s.keys.mapValues fun entries => entries.filter fun held => decide (now < held.2)
  let count (m : BTreeMap NodeId (List (P × Nat))) : Nat := (m.values.map List.length).sum
  (⟨kept.retain fun _ entries => !entries.isEmpty⟩, count s.keys - count kept)

/-! ## The bounds -/

/-- No key has more records than it may. -/
def Stocked (s : ProviderStore P) : Prop :=
  ∀ key entries, s.keys.get? key = some entries → entries.length ≤ MAX_PROVIDERS

omit [Provider P] in
theorem stocked_new : Stocked (new : ProviderStore P) := by
  intro key entries h
  cases h

variable {s : ProviderStore P}

omit [Provider P] in
/-- What a store within its bounds has of one key. -/
theorem Stocked.entries (h : s.Stocked) (key : NodeId) :
    ((s.keys.get? key).getD []).length ≤ MAX_PROVIDERS := by
  cases hget : s.keys.get? key with
  | none => exact Nat.zero_le _
  | some entries => exact h key entries hget

omit [Provider P] in
theorem Stocked.put (h : s.Stocked) (key : NodeId)
    {entries : List (P × Nat)} (hlength : entries.length ≤ MAX_PROVIDERS) :
    Stocked ⟨s.keys.insert key entries⟩ := by
  intro other held hget
  dsimp only at hget
  rw [BTreeMap.get?_insert] at hget
  split at hget
  · rw [← Option.some.inj hget]
    exact hlength
  · exact h other held hget

theorem Stocked.announce (h : s.Stocked) (key : NodeId) (record : P)
    (expiresAt : Nat) : (s.announce key record expiresAt).1.Stocked := by
  unfold ProviderStore.announce
  have hentries := h.entries key
  generalize hheld : (s.keys.get? key).getD [] = entries at hentries ⊢
  dsimp only
  split
  · exact h
  split
  · apply h.put
    rw [List.length_modify]
    exact hentries
  split
  · rename_i hfull
    cases hmin : (entries.map Prod.snd).min? with
    | none =>
      have hnil := List.map_eq_nil_iff.mp (List.min?_eq_none_iff.mp hmin)
      rw [hnil] at hfull
      exact absurd hfull (Nat.not_le.mpr (by decide : 0 < MAX_PROVIDERS))
    | some soonest =>
      dsimp only
      split
      · exact h.put key hentries
      · apply h.put
        rcases List.mem_map.mp (List.min?_mem hmin) with ⟨held, hin, hsnd⟩
        have hany : entries.any (fun held => decide (held.2 = soonest)) = true :=
          List.any_eq_true.mpr ⟨held, hin, decide_eq_true hsnd⟩
        have hlength := RoutingTable.length_eraseP_succ hany
        rw [List.length_append, List.length_singleton, hlength]
        exact hentries
  · apply h.put
    rw [List.length_append, List.length_singleton]
    omega

omit [Provider P] in
theorem Stocked.expire (h : s.Stocked) (now : Nat) :
    (s.expire now).1.Stocked := by
  intro key entries hget
  have hkept := (BTreeMap.get?_retain.mp hget).1
  rw [BTreeMap.get?_mapValues, Option.map_eq_some_iff] at hkept
  rcases hkept with ⟨held, hheld, rfl⟩
  exact (List.length_filter_le _ _).trans (h key held hheld)

omit [Provider P] in
/-- An answer names at most as many as a key may have. -/
theorem length_providers_le (h : s.Stocked) (key : NodeId) (now : Nat) :
    (s.providers key now).length ≤ MAX_PROVIDERS := by
  rw [providers, List.length_map]
  exact (List.length_filter_le _ _).trans (h.entries key)

end ProviderStore

end Cairn.Ports.Dht
