import Cairn.Ports.P2p.Routing

/-!
# One lookup

The iterative search of `src/dht.rs` as a state machine: it names whom to ask
next, folds in what comes back, and is done when nothing is outstanding and the
`k` closest it knows have all been asked.

A contact that is named is in flight until it answers, times out or is deferred.
What has been asked or is in flight only grows otherwise, which is what a lookup
over finitely many contacts runs out of.
-/

namespace Cairn.Ports.Dht

open Cairn.Verified

/-- Queries in flight at once. -/
def ALPHA : Nat := 3

/-- Who claims to hold a key. -/
class Provider (P : Type) where
  provider : P → NodeId

structure Lookup (C P : Type) where
  target : NodeId
  /-- Everything heard of, the closest first. -/
  shortlist : BTreeMap Distance C
  queried : Finset NodeId
  inFlight : Finset NodeId
  providers : List P
  alpha : Nat
  k : Nat

namespace Lookup

variable {C P : Type} [Contact C] [Provider P]

def consider (l : Lookup C P) (contact : C) : Lookup C P :=
  let distance := NodeId.distance (Contact.id contact) l.target
  if l.shortlist.containsKey distance then l
  else { l with shortlist := l.shortlist.insert distance contact }

def withBounds (target : NodeId) (seeds : List C) (alpha k : Nat) : Lookup C P :=
  seeds.foldl consider
    { target, shortlist := .empty, queried := ∅, inFlight := ∅, providers := [],
      alpha := max alpha 1, k := max k 1 }

def new (target : NodeId) (seeds : List C) : Lookup C P := withBounds target seeds ALPHA K

/-- The `k` closest contacts found. -/
def closest (l : Lookup C P) : List C := l.shortlist.values.take l.k

/-- The contacts the next round may ask. -/
def frontier (l : Lookup C P) : List C :=
  (l.closest.filter fun contact =>
    decide (Contact.id contact ∉ l.queried) && decide (Contact.id contact ∉ l.inFlight)).take
      (l.alpha - l.inFlight.card)

/-- Name them; they are in flight from here on. -/
def nextQueries (l : Lookup C P) : Lookup C P × List C :=
  ({ l with inFlight := l.inFlight ∪ (l.frontier.map Contact.id).toFinset }, l.frontier)

/-- `on_response`: fold in an answer; the first record of a provider counts. -/
def onResponse (l : Lookup C P) (sender : NodeId) (closer : List C) (providers : List P) :
    Lookup C P :=
  let heard := closer.foldl consider
    { l with inFlight := l.inFlight.erase sender, queried := insert sender l.queried }
  { heard with
    providers := providers.foldl (fun held record =>
      if held.any fun p => decide (Provider.provider p = Provider.provider record) then held
      else held ++ [record]) heard.providers }

/-- `on_timeout`: it had its turn. -/
def onTimeout (l : Lookup C P) (sender : NodeId) : Lookup C P :=
  { l with inFlight := l.inFlight.erase sender, queried := insert sender l.queried }

/-- It has not had its turn, and is offered again. -/
def defer (l : Lookup C P) (sender : NodeId) : Lookup C P :=
  { l with inFlight := l.inFlight.erase sender }

def isDone (l : Lookup C P) : Bool :=
  decide (l.inFlight = ∅) && l.closest.all fun contact => decide (Contact.id contact ∈ l.queried)

/-! ## What is spent -/

/-- A lookup that may ask somebody. -/
structure Live (l : Lookup C P) : Prop where
  alpha : 0 < l.alpha
  k : 0 < l.k

/-- What has been asked or is being asked. -/
def spent (l : Lookup C P) : Finset NodeId := l.queried ∪ l.inFlight

/-- All a lookup has heard of is in this set. -/
def Within (l : Lookup C P) (known : Finset NodeId) : Prop :=
  ∀ contact ∈ l.shortlist.values, Contact.id contact ∈ known

omit [Provider P] in
theorem mem_frontier {l : Lookup C P} {contact : C} (h : contact ∈ l.frontier) :
    contact ∈ l.closest ∧ Contact.id contact ∉ l.queried ∧ Contact.id contact ∉ l.inFlight := by
  have hfilter := List.mem_filter.mp (List.mem_of_mem_take h)
  simpa using hfilter

omit [Provider P] in
/-- A lookup with nothing in flight that is not done has somebody to ask. -/
theorem frontier_ne_nil {l : Lookup C P} (hlive : l.Live) (hidle : l.inFlight = ∅)
    (hdone : l.isDone = false) : l.frontier ≠ [] := by
  have hopen : ∃ contact ∈ l.closest, Contact.id contact ∉ l.queried := by
    unfold isDone at hdone
    rw [decide_eq_true hidle, Bool.true_and, List.all_eq_false] at hdone
    simpa using hdone
  rcases hopen with ⟨contact, hin, hfresh⟩
  have hmem : contact ∈ l.closest.filter fun contact =>
      decide (Contact.id contact ∉ l.queried) && decide (Contact.id contact ∉ l.inFlight) := by
    rw [List.mem_filter]
    exact ⟨hin, by simp [hfresh, hidle]⟩
  have hlength := List.length_pos_of_mem hmem
  unfold frontier
  rw [hidle] at hmem hlength ⊢
  rw [Finset.card_empty, Nat.sub_zero]
  intro hnil
  have hzero := congrArg List.length hnil
  rw [List.length_take] at hzero
  have hpos := hlive.alpha
  simp only [List.length_nil] at hzero
  omega

omit [Provider P] in
/-- What is considered leaves everything but the shortlist as it is. -/
theorem consider_fields (l : Lookup C P) (contact : C) :
    (l.consider contact).target = l.target ∧ (l.consider contact).queried = l.queried ∧
      (l.consider contact).inFlight = l.inFlight ∧ (l.consider contact).alpha = l.alpha ∧
      (l.consider contact).k = l.k := by
  unfold consider
  dsimp only
  split <;> exact ⟨rfl, rfl, rfl, rfl, rfl⟩

omit [Provider P] in
theorem Within.consider {l : Lookup C P} {known : Finset NodeId} (h : l.Within known) {contact : C}
    (hin : Contact.id contact ∈ known) : (l.consider contact).Within known := by
  unfold Lookup.consider
  dsimp only
  split
  · exact h
  · intro c hc
    rcases List.mem_map.mp hc with ⟨⟨distance, held⟩, he, rfl⟩
    rcases BTreeMap.mem_insertEntry he with heq | hold
    · rw [heq]
      exact hin
    · exact h held (List.mem_map.mpr ⟨(distance, held), hold, rfl⟩)

omit [Provider P] in
/-- What a list that is heard of changes. -/
theorem foldl_consider (contacts : List C) (l : Lookup C P) :
    (contacts.foldl consider l).queried = l.queried ∧
      (contacts.foldl consider l).inFlight = l.inFlight ∧
      (contacts.foldl consider l).alpha = l.alpha ∧ (contacts.foldl consider l).k = l.k ∧
      ∀ known : Finset NodeId, l.Within known → (∀ c ∈ contacts, Contact.id c ∈ known) →
        (contacts.foldl consider l).Within known := by
  induction contacts generalizing l with
  | nil => exact ⟨rfl, rfl, rfl, rfl, fun _ h _ => h⟩
  | cons contact contacts ih =>
    rcases ih (l.consider contact) with ⟨hqueried, hflight, halpha, hk, hwithin⟩
    rcases l.consider_fields contact with ⟨-, hqueried', hflight', halpha', hk'⟩
    refine ⟨hqueried.trans hqueried', hflight.trans hflight', halpha.trans halpha', hk.trans hk',
      fun known h hin => ?_⟩
    exact hwithin known (h.consider (hin contact List.mem_cons_self))
      fun c hc => hin c (List.mem_cons_of_mem _ hc)

omit [Provider P] in
theorem live_new (target : NodeId) (seeds : List C) :
    (new target seeds : Lookup C P).Live ∧ (new target seeds : Lookup C P).inFlight = ∅ := by
  unfold new withBounds
  rcases foldl_consider seeds
    { target, shortlist := .empty, queried := ∅, inFlight := ∅, providers := ([] : List P),
      alpha := max ALPHA 1, k := max K 1 } with ⟨-, hflight, halpha, hk, -⟩
  refine ⟨⟨?_, ?_⟩, hflight⟩
  · rw [halpha]
    exact show 0 < max ALPHA 1 by decide
  · rw [hk]
    exact show 0 < max K 1 by decide

omit [Provider P] in
theorem within_new (target : NodeId) {seeds : List C} {known : Finset NodeId}
    (h : ∀ c ∈ seeds, Contact.id c ∈ known) : (new target seeds : Lookup C P).Within known := by
  unfold new withBounds
  apply (foldl_consider seeds _).2.2.2.2 known _ h
  intro c hc
  cases hc

end Lookup

end Cairn.Ports.Dht
