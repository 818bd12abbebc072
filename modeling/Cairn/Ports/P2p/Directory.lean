import Cairn.Ports.P2p.ProviderStore
import Cairn.Ports.Records.Fields
import Cairn.Ports.Sync.Peer

/-!
# The directory

`src/p2p/dht.rs`: a node's routing table, the lookups it has in flight and who
owes it an answer for which of them.

A newcomer turned away from a full bucket is parked behind the bucket's oldest
contact and pushed in when that contact has failed often enough. Between the two
the newcomer may have come in by another way.

`next_hops` names the contacts every lookup wants asked, books them, and then
returns as many as it was told to. A contact that is booked and not returned is
never answered for.
-/

namespace Cairn.Ports.Dht

open Cairn.Verified
open Cairn.Ports.Canonical

def MAX_DEFERRALS : Nat := 3

def MAX_FAILURES : Nat := 3

/-- How long a claim of a holder is trusted, in seconds. -/
def PROVIDER_TTL_SECS : Nat := 1800

/-- Addresses of one question. -/
def MAX_LOOKUP_ADDRESSES : Nat := 8

/-- A peer of the table: who, and where. -/
structure PeerContact (Addr : Type) where
  id : NodeId
  addr : Addr
  seq : UInt64
deriving DecidableEq

instance {Addr : Type} : Contact (PeerContact Addr) := ⟨PeerContact.id, PeerContact.seq⟩

/-- A claim that a peer holds a blob. -/
structure Holder (Addr : Type) where
  id : NodeId
  addr : Addr
deriving DecidableEq

instance {Addr : Type} : Provider (Holder Addr) := ⟨Holder.id⟩

structure ProviderAnswer (Addr : Type) where
  address : String
  holders : List (Holder Addr)
  closer : List (PeerContact Addr)

/-- `NodeId::from_bytes`, the first byte the highest. -/
def NodeId.ofBytes (bytes : List UInt8) : NodeId :=
  BitVec.ofNat 256 (bytes.foldl (fun n byte => 256 * n + byte.toNat) 0)

/-- `NodeId::of_digest`: the point of a blob, from its digest. -/
def NodeId.ofDigest (digest : String) : Option NodeId :=
  (Sync.unhex ((stripDigestPrefix digest).getD digest)).map fun bytes =>
    NodeId.ofBytes bytes.toList

/-- A set of addresses, in order. -/
abbrev Addresses := BTreeMap String Unit

structure Directory (Addr : Type) where
  routing : RoutingTable (PeerContact Addr)
  providers : ProviderStore (Holder Addr)
  lookups : BTreeMap String (Lookup (PeerContact Addr) (Holder Addr))
  /-- The addresses a peer owes an answer for. -/
  outstanding : BTreeMap NodeId Addresses
  /-- Failed dials in a row. -/
  failures : BTreeMap NodeId Nat
  /-- Newcomers, by the contact they wait behind. -/
  pending : BTreeMap NodeId (PeerContact Addr)
  /-- How often a contact was passed over for want of a key. -/
  deferrals : BTreeMap NodeId Nat
  keyWants : Finset NodeId

/-- What `next_hops` has worked out so far. -/
structure Hops (Addr : Type) where
  lookups : BTreeMap String (Lookup (PeerContact Addr) (Holder Addr))
  outstanding : BTreeMap NodeId Addresses
  deferrals : BTreeMap NodeId Nat
  chosen : List (PeerContact Addr)
  seen : Finset NodeId
  deferred : List NodeId

namespace Directory

variable {Addr : Type}

def new (localId : NodeId) : Directory Addr where
  routing := .new localId
  providers := .new
  lookups := .empty
  outstanding := .empty
  failures := .empty
  pending := .empty
  deferrals := .empty
  keyWants := ∅

/-- Note that a peer is reachable. -/
def saw (d : Directory Addr) (contact : PeerContact Addr) :
    Directory Addr × Insertion (PeerContact Addr) :=
  let (routing, decision) := d.routing.insert contact
  let pending :=
    match decision with
    | .pending probe => d.pending.insert probe.id contact
    | _ => d.pending
  ({ d with routing, pending, failures := d.failures.remove contact.id }, decision)

/-- Drop a peer known to be gone. -/
def forget (d : Directory Addr) (id : NodeId) : Directory Addr × Bool :=
  let (routing, removed) := d.routing.remove id
  ({ d with routing }, removed)

/-- One address a peer tells of, if it was asked for. -/
def told (holder : Holder Addr) (asked : Addresses) (expiresAt : Nat)
    (store : ProviderStore (Holder Addr) × Nat) (address : String) :
    ProviderStore (Holder Addr) × Nat :=
  if !asked.containsKey address then store
  else
    match NodeId.ofDigest address with
    | none => store
    | some key =>
      let (providers, stored) := store.1.announce key holder expiresAt
      (providers, if stored then store.2 + 1 else store.2)

/-- A first-hand claim of what a peer holds; how many records it made. -/
def recordTell (d : Directory Addr) (sender : NodeId) (addr : Addr) (asked : Addresses)
    (addresses : List String) (now : Nat) : Directory Addr × Nat :=
  let (providers, stored) := addresses.foldl
    (told ⟨sender, addr⟩ asked (now + PROVIDER_TTL_SECS)) (d.providers, 0)
  ({ d with providers, failures := d.failures.remove sender }, stored)

/-- Who holds an address as far as this node knows, and who is nearest to it. -/
def lookupProviders (d : Directory Addr) (address : String) (now : Nat) :
    List (Holder Addr) × List (PeerContact Addr) :=
  match NodeId.ofDigest address with
  | none => ([], [])
  | some key => (d.providers.providers key now, d.routing.closest key K)

def answerGetProviders (d : Directory Addr) (addresses : List String) (now : Nat) :
    List (ProviderAnswer Addr) :=
  (addresses.take MAX_LOOKUP_ADDRESSES).map fun address =>
    let (holders, closer) := d.lookupProviders address now
    { address, holders, closer }

/-- Drop the records that have lapsed. -/
def expire (d : Directory Addr) (now : Nat) : Directory Addr × Nat :=
  let (providers, dropped) := d.providers.expire now
  ({ d with providers }, dropped)

def lookup (d : Directory Addr) (address : String) :
    Option (Lookup (PeerContact Addr) (Holder Addr)) :=
  (NodeId.ofDigest address).map fun key => Lookup.new key (d.routing.closest key K)

/-- Begin looking for the holders of an address. -/
def seek (d : Directory Addr) (address : String) : Directory Addr × Bool :=
  if d.lookups.containsKey address then (d, true)
  else
    match d.lookup address with
    | none => (d, false)
    | some lookup =>
      if lookup.closest.isEmpty then (d, false)
      else ({ d with lookups := d.lookups.insert address lookup }, true)

def wantsKey (d : Directory Addr) (peer : NodeId) : Directory Addr :=
  if peer = d.routing.localId then d else { d with keyWants := insert peer d.keyWants }

/-- One contact a lookup wants asked. -/
def hop (dialable : NodeId → Bool) (address : String) (h : Hops Addr)
    (contact : PeerContact Addr) : Hops Addr :=
  if !dialable contact.id then
    let attempts := (h.deferrals.get? contact.id).getD 0 + 1
    let deferrals := h.deferrals.insert contact.id attempts
    match h.lookups.get? address with
    | none => h
    | some lookup =>
      if MAX_DEFERRALS < attempts then
        { h with deferrals, lookups := h.lookups.insert address (lookup.onTimeout contact.id) }
      else
        { h with
          deferrals
          lookups := h.lookups.insert address (lookup.defer contact.id)
          deferred := h.deferred ++ [contact.id] }
  else
    let owed := (h.outstanding.get? contact.id).getD .empty
    { h with
      outstanding := h.outstanding.insert contact.id (owed.insert address ())
      seen := insert contact.id h.seen
      chosen := if contact.id ∈ h.seen then h.chosen else h.chosen ++ [contact] }

/-- One lookup, with what it wants asked. -/
def hopsOf (dialable : NodeId → Bool) (h : Hops Addr) (address : String) : Hops Addr :=
  match h.lookups.get? address with
  | none => h
  | some lookup =>
    let (asking, contacts) := lookup.nextQueries
    contacts.foldl (hop dialable address) { h with lookups := h.lookups.insert address asking }

/-- How many questions a contact is to answer. -/
def questions (outstanding : BTreeMap NodeId Addresses) (contact : PeerContact Addr) : Nat :=
  ((outstanding.get? contact.id).getD .empty).size

/-- All that the lookups want asked, booked. -/
def hops (d : Directory Addr) (dialable : NodeId → Bool) : Hops Addr :=
  d.lookups.keys.foldl (hopsOf dialable)
    { lookups := d.lookups, outstanding := d.outstanding, deferrals := d.deferrals,
      chosen := [], seen := ∅, deferred := [] }

/-- Advance every lookup and return the contacts to ask, those that answer the
most questions first. -/
def nextHops (d : Directory Addr) (limit : Nat) (dialable : NodeId → Bool) :
    Directory Addr × List (PeerContact Addr) :=
  let h := d.hops dialable
  let d := { d with lookups := h.lookups, outstanding := h.outstanding, deferrals := h.deferrals }
  let chosen := h.chosen.insertionSort fun a b =>
    questions h.outstanding b ≤ questions h.outstanding a
  (h.deferred.foldl wantsKey d, chosen.take limit)

def knows (d : Directory Addr) (id : NodeId) : Bool :=
  d.routing.contacts.any fun held => decide (held.id = id)

/-- A contact out of an answer is a hint, unless the table knows it. -/
def learn (d : Directory Addr) (contact : PeerContact Addr) : Directory Addr :=
  if d.knows contact.id then d else (d.saw { contact with seq := 0 }).1

/-- Heard of and not admitted is still worth a key. -/
def hear (d : Directory Addr) (contact : PeerContact Addr) : Directory Addr :=
  let d := d.learn contact
  if d.knows contact.id then d else { d with keyWants := insert contact.id d.keyWants }

/-- One answer, if it was asked for. -/
def answered (sender : NodeId) (owed : Addresses) (d : Directory Addr)
    (answer : ProviderAnswer Addr) : Directory Addr :=
  if !owed.containsKey answer.address then d
  else
    let d := answer.closer.foldl hear d
    match d.lookups.get? answer.address with
    | none => d
    | some lookup =>
      let heard := lookup.onResponse sender answer.closer answer.holders
      { d with lookups := d.lookups.insert answer.address heard }

/-- The lookup of this address hears nothing from the peer. -/
def timedOut (sender : NodeId) (d : Directory Addr) (address : String) : Directory Addr :=
  match d.lookups.get? address with
  | none => d
  | some lookup => { d with lookups := d.lookups.insert address (lookup.onTimeout sender) }

/-- What a peer owes an answer for. -/
def owedBy (d : Directory Addr) (peer : NodeId) : Addresses :=
  (d.outstanding.get? peer).getD .empty

/-- The peer has answered. -/
def alive (d : Directory Addr) (peer : NodeId) : Directory Addr :=
  { d with failures := d.failures.remove peer }

/-- The peer owes nothing from here on. -/
def release (d : Directory Addr) (peer : NodeId) : Directory Addr :=
  { d with outstanding := d.outstanding.remove peer }

/-- What was owed and is not among the answers. -/
def silent (owed : Addresses) (answers : List (ProviderAnswer Addr)) : List String :=
  owed.keys.filter fun address => !answers.any fun answer => decide (answer.address = address)

/-- Fold a peer's answers into the lookups that were waiting on it. What it owed
and did not answer is a non-answer. -/
def onProviders (d : Directory Addr) (sender : NodeId) (answers : List (ProviderAnswer Addr)) :
    Directory Addr :=
  let owed := d.owedBy sender
  let heard := answers.foldl (answered sender owed) ((d.alive sender).release sender)
  (silent owed answers).foldl (timedOut sender) heard

/-- One more failed dial in a row. After enough of them the one who waits behind
the peer takes its place. -/
def failed (d : Directory Addr) (peer : NodeId) : Directory Addr :=
  let failures := (d.failures.get? peer).getD 0 + 1
  if failures < MAX_FAILURES then { d with failures := d.failures.insert peer failures }
  else
    match d.pending.get? peer with
    | some newcomer =>
      { d with
        failures := d.failures.remove peer
        pending := d.pending.remove peer
        routing := (d.routing.replace peer newcomer).1 }
    | none =>
      { d with
        failures := d.failures.remove peer
        routing := (d.routing.remove peer).1 }

/-- A peer that could not be reached: no lookup waits for it any longer. -/
def onUnreachable (d : Directory Addr) (peer : NodeId) : Directory Addr :=
  ((d.owedBy peer).keys.foldl (timedOut peer) (d.release peer)).failed peer

/-- Take the finished lookups out. -/
def takeFinished (d : Directory Addr) : Directory Addr × List (String × List (Holder Addr)) :=
  let done := d.lookups.entries.filter fun e => e.2.isDone
  ({ d with lookups := d.lookups.retain fun _ lookup => !lookup.isDone },
    done.map fun e => (e.1, e.2.providers))

end Directory

/-! ## Runs -/

inductive Op (Addr : Type) where
  | saw (contact : PeerContact Addr)
  | forget (id : NodeId)
  | recordTell (sender : NodeId) (addr : Addr) (asked : Addresses) (addresses : List String)
      (now : Nat)
  | expire (now : Nat)
  | seek (address : String)
  | nextHops (limit : Nat) (dialable : NodeId → Bool)
  | onProviders (sender : NodeId) (answers : List (ProviderAnswer Addr))
  | onUnreachable (peer : NodeId)
  | takeFinished

namespace Directory

variable {Addr : Type}

def step (d : Directory Addr) : Op Addr → Directory Addr
  | .saw contact => (d.saw contact).1
  | .forget id => (d.forget id).1
  | .recordTell sender addr asked addresses now =>
    (d.recordTell sender addr asked addresses now).1
  | .expire now => (d.expire now).1
  | .seek address => (d.seek address).1
  | .nextHops limit dialable => (d.nextHops limit dialable).1
  | .onProviders sender answers => d.onProviders sender answers
  | .onUnreachable peer => d.onUnreachable peer
  | .takeFinished => d.takeFinished.1

def run (d : Directory Addr) (ops : List (Op Addr)) : Directory Addr := ops.foldl step d

/-! ## What leaves the table alone -/

theorem routing_foldl_timedOut (sender : NodeId) (addresses : List String) (d : Directory Addr) :
    (addresses.foldl (timedOut sender) d).routing = d.routing ∧
      (addresses.foldl (timedOut sender) d).pending = d.pending ∧
      (addresses.foldl (timedOut sender) d).failures = d.failures := by
  induction addresses generalizing d with
  | nil => exact ⟨rfl, rfl, rfl⟩
  | cons address addresses ih =>
    rcases ih (timedOut sender d address) with ⟨hrouting, hpending, hfailures⟩
    rw [List.foldl_cons, hrouting, hpending, hfailures]
    unfold timedOut
    split <;> exact ⟨rfl, rfl, rfl⟩

theorem routing_foldl_wantsKey (peers : List NodeId) (d : Directory Addr) :
    (peers.foldl wantsKey d).routing = d.routing ∧
      (peers.foldl wantsKey d).pending = d.pending := by
  induction peers generalizing d with
  | nil => exact ⟨rfl, rfl⟩
  | cons peer peers ih =>
    rcases ih (wantsKey d peer) with ⟨hrouting, hpending⟩
    rw [List.foldl_cons, hrouting, hpending]
    unfold wantsKey
    split <;> exact ⟨rfl, rfl⟩

theorem routing_nextHops (d : Directory Addr) (limit : Nat) (dialable : NodeId → Bool) :
    (d.nextHops limit dialable).1.routing = d.routing ∧
      (d.nextHops limit dialable).1.pending = d.pending := by
  unfold nextHops
  exact routing_foldl_wantsKey _ _

theorem routing_seek (d : Directory Addr) (address : String) :
    (d.seek address).1.routing = d.routing ∧ (d.seek address).1.pending = d.pending := by
  unfold seek
  split
  · exact ⟨rfl, rfl⟩
  · split
    · exact ⟨rfl, rfl⟩
    · split <;> exact ⟨rfl, rfl⟩

/-! ## The table in order -/

/-- The table is in order, and whoever waits for a slot belongs to its bucket. -/
structure Ordered (d : Directory Addr) : Prop where
  routed : d.routing.Routed
  parked : ∀ probe newcomer, d.pending.get? probe = some newcomer →
    NodeId.bucket d.routing.localId newcomer.id = NodeId.bucket d.routing.localId probe ∧
      newcomer.id ≠ probe

/-- The directory is in order after a call that drops nobody. -/
structure Extends (d d' : Directory Addr) : Prop where
  ordered : d'.Ordered
  grows : d.routing.Grows d'.routing
  localId : d'.routing.localId = d.routing.localId

/-- The directory is in order after a call, and no record has got older. -/
structure Keeps (d d' : Directory Addr) : Prop where
  ordered : d'.Ordered
  seqKept : d.routing.SeqKept d'.routing
  localId : d'.routing.localId = d.routing.localId

variable {d d' : Directory Addr}

theorem Extends.keeps (h : d.Extends d') : d.Keeps d' :=
  ⟨h.ordered, h.grows.seqKept h.ordered.routed, h.localId⟩

theorem ordered_new (localId : NodeId) : (new localId : Directory Addr).Ordered where
  routed := RoutingTable.routed_new localId
  parked := fun _ _ h => by cases h

/-- What the order rests on. -/
theorem Ordered.congr (h : d.Ordered) (hrouting : d'.routing = d.routing)
    (hpending : d'.pending = d.pending) : d'.Ordered := by
  constructor
  · rw [hrouting]
    exact h.routed
  · rw [hrouting, hpending]
    exact h.parked

theorem Ordered.extends_of_eq (h : d.Ordered) (hrouting : d'.routing = d.routing)
    (hpending : d'.pending = d.pending) : d.Extends d' where
  ordered := h.congr hrouting hpending
  grows := hrouting ▸ RoutingTable.Grows.refl _
  localId := congrArg RoutingTable.localId hrouting

theorem Ordered.keeps_of_eq (h : d.Ordered) (hrouting : d'.routing = d.routing)
    (hpending : d'.pending = d.pending) : d.Keeps d' :=
  (h.extends_of_eq hrouting hpending).keeps

theorem Extends.trans {d'' : Directory Addr} (h : d.Extends d') (h' : d'.Extends d'') :
    d.Extends d'' := ⟨h'.ordered, h.grows.trans h'.grows, h'.localId.trans h.localId⟩

theorem Ordered.saw (h : d.Ordered) (contact : PeerContact Addr) : d.Extends (d.saw contact).1 := by
  have hlocal := d.routing.localId_insert contact
  refine ⟨⟨h.routed.insert contact, fun probe newcomer hget => ?_⟩,
    h.routed.grows_insert contact, hlocal⟩
  unfold Directory.saw at hget ⊢
  dsimp only at hget ⊢
  rw [hlocal]
  cases hdecision : (d.routing.insert contact).2 with
  | pending oldest =>
    rw [hdecision] at hget
    dsimp only at hget
    rw [BTreeMap.get?_insert] at hget
    split at hget
    · rename_i hprobe
      rw [← Option.some.inj hget, hprobe]
      exact h.routed.bucket_of_pending hdecision
    · exact h.parked probe newcomer hget
  | added | refreshed | ignored =>
    rw [hdecision] at hget
    exact h.parked probe newcomer hget

theorem Ordered.learn (h : d.Ordered) (contact : PeerContact Addr) :
    d.Extends (d.learn contact) := by
  unfold Directory.learn
  split
  · exact h.extends_of_eq rfl rfl
  · exact h.saw _

theorem Ordered.hear (h : d.Ordered) (contact : PeerContact Addr) : d.Extends (d.hear contact) := by
  have hlearn := h.learn contact
  unfold Directory.hear
  dsimp only
  split
  · exact hlearn
  · exact hlearn.trans (hlearn.ordered.extends_of_eq rfl rfl)

theorem Ordered.foldl {α : Type} {f : Directory Addr → α → Directory Addr}
    (hf : ∀ d x, Ordered d → d.Extends (f d x)) (h : d.Ordered) (l : List α) :
    d.Extends (l.foldl f d) := by
  induction l generalizing d with
  | nil => exact h.extends_of_eq rfl rfl
  | cons x l ih => exact (hf d x h).trans (ih (hf d x h).ordered)

theorem Ordered.answered {d : Directory Addr} (h : d.Ordered) (sender : NodeId) (owed : Addresses)
    (answer : ProviderAnswer Addr) : d.Extends (answered sender owed d answer) := by
  unfold Directory.answered
  split
  · exact h.extends_of_eq rfl rfl
  · have hheard : d.Extends (answer.closer.foldl Directory.hear d) :=
      h.foldl (fun d contact hd => hd.hear contact) answer.closer
    dsimp only
    split
    · exact hheard
    · exact hheard.trans (hheard.ordered.extends_of_eq rfl rfl)

theorem Ordered.onProviders (h : d.Ordered) (sender : NodeId) (answers : List (ProviderAnswer Addr)) :
    d.Extends (d.onProviders sender answers) := by
  have halive : d.Extends ((d.alive sender).release sender) := h.extends_of_eq rfl rfl
  have hheard := halive.trans (halive.ordered.foldl
    (fun held answer hheld => hheld.answered sender (d.owedBy sender) answer) answers)
  rcases routing_foldl_timedOut sender (silent (d.owedBy sender) answers)
    (answers.foldl (Directory.answered sender (d.owedBy sender))
      ((d.alive sender).release sender)) with ⟨hrouting, hpending, -⟩
  exact hheard.trans (hheard.ordered.extends_of_eq hrouting hpending)

/-- The newcomer an unreachable peer makes room for. -/
def promoted (d : Directory Addr) (peer : NodeId) : Option (PeerContact Addr) :=
  if MAX_FAILURES ≤ (d.failures.get? peer).getD 0 + 1 then d.pending.get? peer else none

/-- Whoever is pushed in is not there already. -/
def Safe (d : Directory Addr) : Op Addr → Prop
  | .onUnreachable peer => ∀ newcomer, d.promoted peer = some newcomer →
      d.knows peer = true → d.knows newcomer.id = false
  | _ => True

theorem knows_iff {id : NodeId} : d.knows id = true ↔ ∃ c ∈ d.routing.contacts, c.id = id := by
  simp [knows]

/-- What a failed dial does to the table and to those who wait. -/
theorem failed_cases (d : Directory Addr) (peer : NodeId) :
    ((d.failed peer).routing = d.routing ∧ (d.failed peer).pending = d.pending ∧
        d.promoted peer = none) ∨
      ((d.failed peer).routing = (d.routing.remove peer).1 ∧
        (d.failed peer).pending = d.pending ∧ d.promoted peer = none) ∨
      ∃ newcomer, d.promoted peer = some newcomer ∧ d.pending.get? peer = some newcomer ∧
        (d.failed peer).routing = (d.routing.replace peer newcomer).1 ∧
        (d.failed peer).pending = d.pending.remove peer := by
  unfold failed promoted
  dsimp only
  by_cases hfew : (d.failures.get? peer).getD 0 + 1 < MAX_FAILURES
  · rw [if_neg (Nat.not_le.mpr hfew), if_pos hfew]
    exact .inl ⟨rfl, rfl, rfl⟩
  · rw [if_pos (Nat.not_lt.mp hfew), if_neg hfew]
    cases hget : d.pending.get? peer with
    | none => exact .inr (.inl ⟨rfl, rfl, rfl⟩)
    | some newcomer => exact .inr (.inr ⟨newcomer, rfl, rfl, rfl, rfl⟩)

/-- What an unreachable peer does to the table and to those who wait. -/
theorem onUnreachable_cases (d : Directory Addr) (peer : NodeId) :
    ((d.onUnreachable peer).routing = d.routing ∧ (d.onUnreachable peer).pending = d.pending ∧
        d.promoted peer = none) ∨
      ((d.onUnreachable peer).routing = (d.routing.remove peer).1 ∧
        (d.onUnreachable peer).pending = d.pending ∧ d.promoted peer = none) ∨
      ∃ newcomer, d.promoted peer = some newcomer ∧ d.pending.get? peer = some newcomer ∧
        (d.onUnreachable peer).routing = (d.routing.replace peer newcomer).1 ∧
        (d.onUnreachable peer).pending = d.pending.remove peer := by
  rcases routing_foldl_timedOut peer (d.owedBy peer).keys (d.release peer) with
    ⟨hrouting, hpending, hfailures⟩
  have hcases := failed_cases ((d.owedBy peer).keys.foldl (timedOut peer) (d.release peer)) peer
  unfold promoted at hcases
  rw [hrouting, hpending, hfailures] at hcases
  exact hcases

/-- A safe call keeps the directory in order. -/
theorem Ordered.onUnreachable (h : d.Ordered) {peer : NodeId} (hsafe : d.Safe (.onUnreachable peer)) :
    d.Keeps (d.onUnreachable peer) := by
  rcases d.onUnreachable_cases peer with ⟨hrouting, hpending, -⟩ | ⟨hrouting, hpending, -⟩ |
    ⟨newcomer, hpromoted, hget, hrouting, hpending⟩
  · exact h.keeps_of_eq hrouting hpending
  · have hlocal := d.routing.localId_remove peer
    refine ⟨⟨?_, ?_⟩, ?_, ?_⟩
    · rw [hrouting]
      exact h.routed.remove peer
    · rw [hrouting, hpending, hlocal]
      exact h.parked
    · rw [hrouting]
      exact h.routed.seqKept_of_subset fun c hc => RoutingTable.mem_contacts_remove hc
    · rw [hrouting, hlocal]
  · have hlocal := d.routing.localId_replace peer newcomer
    rcases h.parked peer newcomer hget with ⟨hbucket, hne⟩
    have hparked : ∀ probe waiting, (d.onUnreachable peer).pending.get? probe = some waiting →
        NodeId.bucket (d.onUnreachable peer).routing.localId waiting.id =
          NodeId.bucket (d.onUnreachable peer).routing.localId probe ∧ waiting.id ≠ probe := by
      intro probe waiting hwaiting
      rw [hrouting, hlocal]
      rw [hpending] at hwaiting
      exact h.parked probe waiting (BTreeMap.get?_retain.mp hwaiting).1
    by_cases hknows : d.knows peer = true
    · have hnew : ∀ c ∈ d.routing.contacts, c.id ≠ newcomer.id := by
        intro c hc hid
        have hfresh := hsafe newcomer hpromoted hknows
        rw [knows_iff.mpr ⟨c, hc, hid⟩] at hfresh
        cases hfresh
      refine ⟨⟨?_, hparked⟩, ?_, ?_⟩
      · rw [hrouting]
        exact h.routed.replace hbucket hnew
      · rw [hrouting]
        intro c hc c' hc' hid
        rcases RoutingTable.mem_contacts_replace hc' with hold | rfl
        · rw [h.routed.unique hold hc hid]
          exact UInt64.le_refl _
        · exact absurd hid.symm (hnew c hc)
      · rw [hrouting, hlocal]
    · have hsame : (d.routing.replace peer newcomer).1 = d.routing := by
        apply RoutingTable.replace_of_absent
        intro c hc hid
        exact hknows (knows_iff.mpr ⟨c, hc, hid⟩)
      rw [hsame] at hrouting
      refine ⟨⟨?_, hparked⟩, ?_, ?_⟩
      · rw [hrouting]
        exact h.routed
      · rw [hrouting]
        exact (RoutingTable.Grows.refl _).seqKept h.routed
      · rw [hrouting]

/-- A call that pushes in who is there already leaves it there twice. -/
theorem Ordered.not_routed_onUnreachable (h : d.Ordered) {peer : NodeId}
    (hrisky : ¬d.Safe (.onUnreachable peer)) : ¬(d.onUnreachable peer).routing.Routed := by
  simp only [Safe, not_forall, Bool.not_eq_false] at hrisky
  rcases hrisky with ⟨newcomer, hpromoted, hpeer, hknown⟩
  rcases d.onUnreachable_cases peer with ⟨-, -, hnone⟩ | ⟨-, -, hnone⟩ |
    ⟨other, hother, hget, hrouting, -⟩
  · rw [hnone] at hpromoted
    cases hpromoted
  · rw [hnone] at hpromoted
    cases hpromoted
  · have hsame := Option.some.inj (hpromoted.symm.trans hother)
    subst hsame
    rcases h.parked peer newcomer hget with ⟨hbucket, hne⟩
    rcases knows_iff.mp hknown with ⟨c, hc, hid⟩
    rw [hrouting]
    exact RoutingTable.not_routed_replace h.routed hbucket hne (knows_iff.mp hpeer) hc hid

/-! ## Runs in order -/

/-- A safe call keeps the directory in order, whichever it is. -/
theorem Ordered.step {d : Directory Addr} (h : d.Ordered) {op : Op Addr} (hsafe : d.Safe op) :
    d.Keeps (d.step op) := by
  cases op with
  | saw contact => exact (h.saw contact).keeps
  | forget id =>
    have hlocal := d.routing.localId_remove id
    refine ⟨⟨h.routed.remove id, ?_⟩, h.routed.seqKept_of_subset fun c hc =>
      RoutingTable.mem_contacts_remove hc, hlocal⟩
    intro probe newcomer hget
    have hparked := h.parked probe newcomer hget
    rwa [← hlocal] at hparked
  | recordTell sender addr asked addresses now => exact h.keeps_of_eq rfl rfl
  | expire now => exact h.keeps_of_eq rfl rfl
  | seek address =>
    rcases d.routing_seek address with ⟨hrouting, hpending⟩
    exact h.keeps_of_eq hrouting hpending
  | nextHops limit dialable =>
    rcases d.routing_nextHops limit dialable with ⟨hrouting, hpending⟩
    exact h.keeps_of_eq hrouting hpending
  | onProviders sender answers => exact (h.onProviders sender answers).keeps
  | onUnreachable peer => exact h.onUnreachable hsafe
  | takeFinished => exact h.keeps_of_eq rfl rfl

/-- A call that is not safe ends with a table that is not in order. -/
theorem Ordered.not_routed_step (h : d.Ordered) {op : Op Addr} (hrisky : ¬d.Safe op) :
    ¬(d.step op).routing.Routed := by
  cases op with
  | onUnreachable peer => exact h.not_routed_onUnreachable hrisky
  | _ => exact absurd trivial hrisky

theorem run_concat (d : Directory Addr) (ops : List (Op Addr)) (op : Op Addr) :
    d.run (ops ++ [op]) = (d.run ops).step op := by
  rw [run, List.foldl_concat]
  rfl

/-- A run of safe calls. -/
theorem Ordered.run {d : Directory Addr} (h : d.Ordered) {ops : List (Op Addr)}
    (hsafe : ∀ done op, done ++ [op] <+: ops → (d.run done).Safe op) :
    (d.run ops).Ordered ∧ (d.run ops).routing.localId = d.routing.localId := by
  induction ops using List.reverseRecOn with
  | nil => exact ⟨h, rfl⟩
  | append_singleton ops op ih =>
    have hbefore := ih fun done o hdone => hsafe done o (hdone.trans (List.prefix_append _ _))
    have hkeeps := hbefore.1.step (hsafe ops op (List.prefix_refl _))
    rw [run_concat]
    exact ⟨hkeeps.ordered, hkeeps.localId.trans hbefore.2⟩

/-- In a run whose tables are all in order every call is safe. -/
theorem Ordered.safe_of_routed (h : d.Ordered) {ops : List (Op Addr)}
    (hrouted : ∀ done, done <+: ops → (d.run done).routing.Routed) :
    ∀ done op, done ++ [op] <+: ops → (d.run done).Safe op := by
  induction ops using List.reverseRecOn with
  | nil =>
    intro done op hdone
    have hlength := hdone.length_le
    simp at hlength
  | append_singleton ops op ih =>
    have hsafe := ih fun done hdone => hrouted done (hdone.trans (List.prefix_append _ _))
    have hbefore := (h.run hsafe).1
    intro done o hdone
    rcases List.prefix_concat_iff.mp hdone with heq | hearlier
    · rcases List.append_inj' heq rfl with ⟨rfl, hlast⟩
      rw [List.singleton_inj.mp hlast]
      by_contra hrisky
      apply hbefore.not_routed_step hrisky
      rw [← run_concat]
      exact hrouted (done ++ [op]) (List.prefix_refl _)
    · exact hsafe done o hearlier

/-- The table of every point of a run is sound and no record of it gets older as
long as it stays, exactly where no call pushes in a newcomer that is there
already. -/
theorem run_sound (localId : NodeId) (ops : List (Op Addr)) :
    ((∀ done, done <+: ops → ((new localId).run done).routing.localId = localId ∧
        ((new localId).run done).routing.Sound) ∧
      ∀ done op, done ++ [op] <+: ops →
        ((new localId).run done).routing.SeqKept ((new localId).run (done ++ [op])).routing) ↔
    ∀ done op, done ++ [op] <+: ops → ((new localId).run done).Safe op := by
  have hnew : (new localId : Directory Addr).Ordered := ordered_new localId
  constructor
  · rintro ⟨hsound, -⟩
    exact hnew.safe_of_routed fun done hdone =>
      RoutingTable.sound_iff.mp (hsound done hdone).2
  · intro hsafe
    have hordered : ∀ done, done <+: ops → ((new localId).run done).Ordered ∧
        ((new localId).run done).routing.localId = localId := fun done hdone =>
      hnew.run fun earlier op hearlier => hsafe earlier op (hearlier.trans hdone)
    constructor
    · intro done hdone
      exact ⟨(hordered done hdone).2, RoutingTable.sound_iff.mpr (hordered done hdone).1.routed⟩
    · intro done op hdone
      rw [run_concat]
      have hbefore := (hordered done ((List.prefix_append _ _).trans hdone)).1
      exact (hbefore.step (hsafe done op hdone)).seqKept

section Sample

/-- A contact of the farthest band. -/
def farContact (n : Nat) : PeerContact Unit := ⟨BitVec.ofNat 256 (2 ^ 255 + n), (), 0⟩

/-- A newcomer is parked behind the oldest of a full bucket, comes in where
another one leaves, and is pushed in again when the oldest fails. -/
def twiceSample : List (Op Unit) :=
  (List.range 20).map (fun n => .saw (farContact n)) ++
    .saw (farContact 20) :: List.replicate 3 (.onUnreachable (farContact 1).id) ++
    .saw (farContact 20) :: List.replicate 3 (.onUnreachable (farContact 0).id)

theorem not_run_sound : ¬∀ (localId : NodeId) (ops : List (Op Unit)),
    ((new localId).run ops).routing.Sound := by
  intro h
  have htwice : ¬(((new 0#256).run twiceSample).routing.contacts.map PeerContact.id).Nodup := by
    decide +kernel
  exact htwice (h 0#256 twiceSample).nodup

end Sample

end Directory

end Cairn.Ports.Dht
