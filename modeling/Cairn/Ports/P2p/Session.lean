import Cairn.Ports.P2p.Handshake
import Cairn.Verified.Numbered

/-!
# Two ends of a channel and the network between them

Either end seals what it likes and splits its channel when it likes. The
network hands either end whatever triple of counter, ciphertext and context it
likes: a frame dropped, repeated, out of order, cut, renumbered or made up. The
one thing it cannot do is what the AEAD forbids, to come up with a frame that
opens and that nobody sealed.

Each direction is then a numbered line: sealing puts a frame on it, the counter
is the frame's number, and an end takes a frame only above the highest number
it has taken.
-/

namespace Cairn.Ports.P2p

open Cairn.Verified
open Cairn.Ports.Canonical

/-- One of the two ends. -/
inductive Side where
  | initiator
  | responder
deriving DecidableEq, Repr

/-- The end across. -/
def Side.other : Side → Side
  | .initiator => .responder
  | .responder => .initiator

@[simp] theorem Side.other_other (side : Side) : side.other.other = side := by cases side <;> rfl

/-- A text under the context it was sealed or opened with. -/
structure Frame where
  context : List UInt8
  plaintext : List UInt8
deriving DecidableEq

/-- One use of the AEAD to encrypt. -/
structure Sealing where
  key : Key
  counter : UInt64
  frame : Frame
  ciphertext : List UInt8
deriving DecidableEq

/-- The key and the nonce a use of the AEAD runs under. -/
def Sealing.nonceUse (sealing : Sealing) : Key × List UInt8 :=
  (sealing.key, nonceFor sealing.counter)

/-- What the AEAD was given as associated data. -/
def Sealing.aad (sealing : Sealing) : List UInt8 :=
  P2p.aad sealing.counter sealing.frame.context

/-- An end of the session, what it has sealed and what it has opened. -/
structure Party where
  endpoint : Endpoint
  sealings : List Sealing
  opened : List Frame
deriving DecidableEq

structure Session where
  initiator : Party
  responder : Party
deriving DecidableEq

inductive Move where
  /-- An end seals a frame. -/
  | send (side : Side) (plaintext context : List UInt8)
  /-- The network offers an end some frame. -/
  | offer (side : Side) (counter : UInt64) (ciphertext context : List UInt8)
  /-- An end splits its channel. -/
  | split (side : Side)

namespace Session

def party (self : Session) : Side → Party
  | .initiator => self.initiator
  | .responder => self.responder

def setParty (self : Session) (party : Party) : Side → Session
  | .initiator => { self with initiator := party }
  | .responder => { self with responder := party }

/-- Two ends that have just completed a handshake. -/
def start (a b : Channel) : Session where
  initiator := { endpoint := .whole a, sealings := [], opened := [] }
  responder := { endpoint := .whole b, sealings := [], opened := [] }

/-- Every use of the AEAD to encrypt, by either end. -/
def sealings (self : Session) : List Sealing := self.initiator.sealings ++ self.responder.sealings

/-- The texts an end sealed under one context. -/
def sealedUnder (self : Session) (side : Side) (context : List UInt8) : List (List UInt8) :=
  (self.party side).sealings.filterMap fun sealing =>
    if sealing.frame.context = context then some sealing.frame.plaintext else none

/-- The texts an end opened under one context. -/
def openedUnder (self : Session) (side : Side) (context : List UInt8) : List (List UInt8) :=
  (self.party side).opened.filterMap fun frame =>
    if frame.context = context then some frame.plaintext else none

@[simp] theorem party_setParty (self : Session) (party : Party) (side : Side) :
    (self.setParty party side).party side = party := by cases side <;> rfl

@[simp] theorem party_setParty_other (self : Session) (party : Party) (side : Side) :
    (self.setParty party side).party side.other = self.party side.other := by cases side <;> rfl

@[simp] theorem party_other_setParty (self : Session) (party : Party) (side : Side) :
    (self.setParty party side.other).party side = self.party side := by cases side <;> rfl

@[simp] theorem setParty_party (self : Session) (side : Side) :
    self.setParty (self.party side) side = self := by cases side <;> rfl

theorem mem_sealings {self : Session} (side : Side) {sealing : Sealing} :
    sealing ∈ self.sealings ↔
      sealing ∈ (self.party side).sealings ∨ sealing ∈ (self.party side.other).sealings := by
  cases side <;> simp [sealings, party, Side.other, or_comm]

variable [Aead]

/-- One move of an end or of the network. -/
def step (self : Session) : Move → Session
  | .send side plaintext context =>
    let party := self.party side
    let (result, endpoint) := party.endpoint.seal plaintext context
    let sealings := match result with
      | .ok (counter, ciphertext) =>
        party.sealings ++ [
          { key := party.endpoint.view.sendKey
            counter := counter
            frame := { context := context, plaintext := plaintext }
            ciphertext := ciphertext }]
      | .error _ => party.sealings
    self.setParty { party with endpoint := endpoint, sealings := sealings } side
  | .offer side counter ciphertext context =>
    let party := self.party side
    let (result, endpoint) := party.endpoint.unseal counter ciphertext context
    let opened := match result with
      | .ok plaintext => party.opened ++ [{ context := context, plaintext := plaintext }]
      | .error _ => party.opened
    self.setParty { party with endpoint := endpoint, opened := opened } side
  | .split side =>
    let party := self.party side
    self.setParty { party with endpoint := party.endpoint.split } side

def run (self : Session) (moves : List Move) : Session := moves.foldl step self

/-- The ideal AEAD, at one move: a frame that opens was sealed under that key,
with that nonce and that associated data, and is what came out. -/
def Unforged (self : Session) : Move → Prop
  | .offer side counter ciphertext context =>
    let key := (self.party side).endpoint.view.recvKey
    ∀ plaintext,
      Aead.decrypt key (nonceFor counter) ciphertext (aad counter context) = some plaintext →
      ∃ sealing ∈ self.sealings, sealing.nonceUse = (key, nonceFor counter) ∧
        sealing.aad = aad counter context ∧ sealing.frame.plaintext = plaintext ∧
        sealing.ciphertext = ciphertext
  | .send .. => True
  | .split .. => True

/-- The ideal AEAD, over a run. -/
def RunUnforged (self : Session) : List Move → Prop
  | [] => True
  | move :: moves => self.Unforged move ∧ (self.step move).RunUnforged moves

instance (self : Session) : DecidablePred self.Unforged
  | .offer side counter ciphertext context =>
    decidable_of_iff
      (∀ plaintext ∈ Aead.decrypt (self.party side).endpoint.view.recvKey (nonceFor counter)
          ciphertext (aad counter context),
        ∃ sealing ∈ self.sealings,
          sealing.nonceUse = ((self.party side).endpoint.view.recvKey, nonceFor counter) ∧
          sealing.aad = aad counter context ∧ sealing.frame.plaintext = plaintext ∧
          sealing.ciphertext = ciphertext)
      Iff.rfl
  | .send .. => isTrue trivial
  | .split .. => isTrue trivial

instance decidableRunUnforged : (self : Session) → DecidablePred self.RunUnforged
  | _, [] => isTrue trivial
  | self, move :: moves =>
    have := decidableRunUnforged (self.step move) moves
    inferInstanceAs (Decidable (self.Unforged move ∧ (self.step move).RunUnforged moves))

end Session

/-! ## One direction as a numbered line -/

/-- The first counter an end would still open. -/
def passed : Option UInt64 → Nat
  | none => 0
  | some high => high.toNat + 1

/-- What one end has sealed and the other has opened is a numbered line, and
the counters on both sides are the numbers. -/
structure Direction (source target : Party) : Prop where
  keys : source.endpoint.view.sendKey = target.endpoint.view.recvKey
  under : ∀ sealing ∈ source.sealings, sealing.key = source.endpoint.view.sendKey
  counters : source.sealings.map (fun sealing => sealing.counter.toNat) =
    List.range source.sealings.length
  counter : source.endpoint.view.sendCounter.toNat = source.sealings.length
  line : ∃ line : Numbered Frame, line.put = source.sealings.map Sealing.frame ∧
    line.taken = target.opened ∧ line.next = passed target.endpoint.view.recvHigh

namespace Direction

variable {source target source' target' : Party}

/-- A direction reads the sending half of one end and the receiving half of the
other. -/
theorem congr (h : Direction source target)
    (hkey : source'.endpoint.view.sendKey = source.endpoint.view.sendKey)
    (hcounter : source'.endpoint.view.sendCounter = source.endpoint.view.sendCounter)
    (hsealings : source'.sealings = source.sealings)
    (hrecv : target'.endpoint.view.recvKey = target.endpoint.view.recvKey)
    (hhigh : target'.endpoint.view.recvHigh = target.endpoint.view.recvHigh)
    (hopened : target'.opened = target.opened) : Direction source' target' where
  keys := by rw [hkey, hrecv, h.keys]
  under := by
    rw [hkey, hsealings]
    exact h.under
  counters := by
    rw [hsealings]
    exact h.counters
  counter := by
    rw [hcounter, hsealings]
    exact h.counter
  line := by
    rw [hsealings, hopened, hhigh]
    exact h.line

/-- The sealing with some number carries that number as its counter. -/
theorem getElem?_toNat (h : Direction source target) {sealing : Sealing}
    (hmem : sealing ∈ source.sealings) :
    source.sealings[sealing.counter.toNat]? = some sealing := by
  obtain ⟨i, hi, rfl⟩ := List.getElem_of_mem hmem
  have hcounter : (source.sealings.map fun sealing => sealing.counter.toNat)[i]? = some i := by
    rw [h.counters, List.getElem?_range hi]
  rw [List.getElem?_map, List.getElem?_eq_getElem hi] at hcounter
  have hi' : source.sealings[i].counter.toNat = i := Option.some.inj hcounter
  rw [hi', List.getElem?_eq_getElem hi]

/-- No nonce is used twice in one direction. -/
theorem nodup_nonceUse (h : Direction source target) :
    (source.sealings.map Sealing.nonceUse).Nodup := by
  have hcounters : (source.sealings.map Sealing.counter).Nodup := by
    refine List.Nodup.of_map UInt64.toNat ?_
    rw [List.map_map]
    exact h.counters ▸ List.nodup_range
  refine List.Nodup.of_map Prod.snd ?_
  rw [List.map_map]
  have hnonces := hcounters.map nonceFor_injective
  rwa [List.map_map] at hnonces

/-- Sealing one more frame puts it on the line under the next number. -/
theorem push (h : Direction source target) {endpoint : Endpoint} {frame : Frame}
    {ciphertext : List UInt8} (hmax : source.endpoint.view.sendCounter ≠ 18446744073709551615)
    (hview : endpoint.view = { source.endpoint.view with
      sendCounter := source.endpoint.view.sendCounter + 1 }) :
    Direction
      { source with
        endpoint := endpoint
        sealings := source.sealings ++ [
          { key := source.endpoint.view.sendKey
            counter := source.endpoint.view.sendCounter
            frame := frame
            ciphertext := ciphertext }] }
      target where
  keys := by
    simp only [hview]
    exact h.keys
  under := by
    intro sealing hmem
    simp only [hview]
    rcases List.mem_append.mp hmem with hmem | hmem
    · exact h.under sealing hmem
    · rw [List.mem_singleton.mp hmem]
  counters := by
    simp only [List.map_append, List.map_singleton, List.length_append, List.length_singleton,
      List.range_succ, h.counters, h.counter]
  counter := by
    have hlt : source.endpoint.view.sendCounter.toNat + 1 < 2 ^ 64 := by
      have hne : source.endpoint.view.sendCounter.toNat ≠ 18446744073709551615 := by
        intro heq
        exact hmax (UInt64.toNat_inj.mp heq)
      have := source.endpoint.view.sendCounter.toNat_lt
      omega
    simp only [hview, List.length_append, List.length_singleton, ← h.counter]
    rw [UInt64.toNat_add, show (1 : UInt64).toNat = 1 from rfl, Nat.mod_eq_of_lt hlt]
  line := by
    obtain ⟨line, hput, htaken, hnext⟩ := h.line
    refine ⟨line.push frame, ?_, htaken, hnext⟩
    simp only [Numbered.put_push, hput, List.map_append, List.map_singleton]

/-- Opening a frame takes it off the line under its counter. -/
theorem pull (h : Direction source target) {endpoint : Endpoint} {counter : UInt64}
    {sealing : Sealing} (hmem : sealing ∈ source.sealings) (hcounter : sealing.counter = counter)
    (habove : ∀ high ∈ target.endpoint.view.recvHigh, ¬ counter ≤ high)
    (hview : endpoint.view = { target.endpoint.view with recvHigh := some counter }) :
    Direction source
      { target with endpoint := endpoint, opened := target.opened ++ [sealing.frame] } where
  keys := by
    simp only [hview]
    exact h.keys
  under := h.under
  counters := h.counters
  counter := h.counter
  line := by
    obtain ⟨line, hput, htaken, hnext⟩ := h.line
    have hplace : line.put[counter.toNat]? = some sealing.frame := by
      rw [hput, List.getElem?_map, ← hcounter, h.getElem?_toNat hmem]
      rfl
    have hle : line.next ≤ counter.toNat := by
      rw [hnext]
      cases hhigh : target.endpoint.view.recvHigh with
      | none => exact Nat.zero_le _
      | some high =>
        have := habove high hhigh
        rw [UInt64.le_iff_toNat_le] at this
        simp only [passed]
        omega
    refine ⟨line.pull counter.toNat sealing.frame hle hplace, hput, ?_, ?_⟩
    · rw [Numbered.taken_pull, htaken]
    · simp only [Numbered.next_pull, hview, passed]

end Direction

/-! ## The session -/

namespace Session

/-- Both directions are numbered lines, under different keys. -/
structure Linked (session : Session) : Prop where
  direction : ∀ side, Direction (session.party side) (session.party side.other)
  apart : ∀ side, (session.party side).endpoint.view.sendKey ≠
    (session.party side.other).endpoint.view.sendKey

theorem forall_side (side : Side) {motive : Side → Prop} :
    (∀ s, motive s) ↔ motive side ∧ motive side.other := by
  constructor
  · exact fun h => ⟨h side, h side.other⟩
  · rintro ⟨hside, hother⟩ s
    cases side <;> cases s <;> assumption

/-- An end may be replaced where both directions through it stand. -/
theorem Linked.setParty {self : Session} {side : Side} {party : Party} (h : self.Linked)
    (hsend : party.endpoint.view.sendKey = (self.party side).endpoint.view.sendKey)
    (hout : Direction party (self.party side.other))
    (hin : Direction (self.party side.other) party) : (self.setParty party side).Linked where
  direction := by
    rw [forall_side side]
    simp only [party_setParty, party_setParty_other, Side.other_other]
    exact ⟨hout, hin⟩
  apart := by
    rw [forall_side side]
    simp only [party_setParty, party_setParty_other, Side.other_other, hsend]
    exact ⟨h.apart side, (h.apart side).symm⟩

section Run

variable [Aead]

variable {self : Session}

/-- One move keeps both lines, where the network forges nothing. -/
theorem Linked.step (h : self.Linked) (move : Move) (ideal : self.Unforged move) :
    (self.step move).Linked := by
  cases move with
  | send side plaintext context =>
    have hout := h.direction side
    have hin := h.direction side.other
    rw [Side.other_other] at hin
    rcases (self.party side).endpoint.seal_cases plaintext context with
      ⟨error, heq⟩ | ⟨ciphertext, next, hmax, heq, hview⟩
    · simp only [Session.step, heq]
      exact h.setParty rfl hout hin
    · simp only [Session.step, heq]
      refine h.setParty (by simp only [hview]) (hout.push hmax hview) ?_
      exact hin.congr rfl rfl rfl (by simp only [hview]) (by simp only [hview]) rfl
  | offer side counter ciphertext context =>
    have hout := h.direction side
    have hin := h.direction side.other
    rw [Side.other_other] at hin
    rcases (self.party side).endpoint.unseal_cases counter ciphertext context with
      ⟨error, heq⟩ | ⟨plaintext, next, habove, hdecrypt, heq, hview⟩
    · simp only [Session.step, heq]
      exact h.setParty rfl hout hin
    · obtain ⟨sealing, hmem, huse, haad, hplaintext, -⟩ := ideal plaintext hdecrypt
      obtain ⟨hkey, hnonce⟩ := Prod.mk.inj huse
      have hcounter : sealing.counter = counter := nonceFor_injective hnonce
      have hframe : sealing.frame = { context := context, plaintext := plaintext } := by
        cases hs : sealing.frame
        simp only [hs, Sealing.aad] at haad hplaintext
        rw [(aad_injective haad).2, hplaintext]
      -- The key tells the directions apart: this end's own frames do not open here.
      have hsource : sealing ∈ (self.party side.other).sealings := by
        rcases (mem_sealings side).mp hmem with hown | hother
        · have hsend := hout.under sealing hown
          rw [hkey, ← hin.keys] at hsend
          exact absurd hsend.symm (h.apart side)
        · exact hother
      have hpull := hin.pull hsource hcounter habove hview
      rw [hframe] at hpull
      simp only [Session.step, heq]
      refine h.setParty (by simp only [hview]) ?_ hpull
      exact hout.congr (by simp only [hview]) (by simp only [hview]) rfl rfl rfl rfl
  | split side =>
    have hout := h.direction side
    have hin := h.direction side.other
    rw [Side.other_other] at hin
    refine h.setParty (by simp) ?_ ?_
    · exact hout.congr (by simp) (by simp) rfl rfl rfl rfl
    · exact hin.congr rfl rfl rfl (by simp) (by simp) rfl

theorem Linked.run (h : self.Linked) (moves : List Move)
    (ideal : self.RunUnforged moves) : (self.run moves).Linked := by
  induction moves generalizing self with
  | nil => exact h
  | cons move moves ih => exact ih (h.step move ideal.1) ideal.2

omit [Aead] in
/-- Two fresh ends whose keys pair up and differ by direction. -/
theorem linked_start {a b : Channel} (hab : a.sendKey = b.recvKey) (hba : b.sendKey = a.recvKey)
    (hne : a.sendKey ≠ a.recvKey) (ha : a.sendCounter = 0 ∧ a.recvHigh = none)
    (hb : b.sendCounter = 0 ∧ b.recvHigh = none) : (start a b).Linked where
  direction := by
    have hfresh : ∀ {source target : Channel}, source.sendKey = target.recvKey →
        source.sendCounter = 0 → target.recvHigh = none →
        Direction { endpoint := .whole source, sealings := [], opened := [] }
          { endpoint := .whole target, sealings := [], opened := [] } := by
      intro source target hkey hcounter hhigh
      refine ⟨hkey, by simp, rfl, ?_, Numbered.empty, rfl, rfl, ?_⟩
      · simp [Endpoint.view, hcounter]
      · simp [Endpoint.view, hhigh, passed, Numbered.empty]
    rw [forall_side .initiator]
    exact ⟨hfresh hab ha.1 hb.2, hfresh hba hb.1 ha.2⟩
  apart := by
    rw [forall_side .initiator]
    have hne' : a.sendKey ≠ b.sendKey := by rwa [hba]
    exact ⟨hne', hne'.symm⟩

omit [Aead] in
theorem sublist_openedUnder {side : Side}
    (h : Direction (self.party side) (self.party side.other)) (context : List UInt8) :
    (self.openedUnder side.other context).Sublist (self.sealedUnder side context) := by
  obtain ⟨line, hput, htaken, -⟩ := h.line
  have hsub := line.taken_filterMap_sublist fun frame =>
    if frame.context = context then some frame.plaintext else none
  rwa [hput, htaken, List.filterMap_map] at hsub

omit [Aead] in
/-- No nonce is used twice under one key, whichever end uses it. -/
theorem Linked.nodup_nonceUse (h : self.Linked) :
    (self.sealings.map Sealing.nonceUse).Nodup := by
  rw [sealings, List.map_append]
  refine (h.direction .initiator).nodup_nonceUse.append (h.direction .responder).nodup_nonceUse ?_
  intro use hinitiator hresponder
  obtain ⟨x, hx, rfl⟩ := List.mem_map.mp hinitiator
  obtain ⟨y, hy, huse⟩ := List.mem_map.mp hresponder
  have hkey : y.key = x.key := (Prod.mk.inj huse).1
  rw [(h.direction .initiator).under x hx, (h.direction .responder).under y hy] at hkey
  exact h.apart .responder hkey

/-- A refused frame changes nothing. -/
theorem step_refused (self : Session) {side : Side} {counter : UInt64}
    {ciphertext context : List UInt8} {error : HandshakeError}
    (h : ((self.party side).endpoint.unseal counter ciphertext context).1 = .error error) :
    self.step (.offer side counter ciphertext context) = self := by
  rcases (self.party side).endpoint.unseal_cases counter ciphertext context with
    ⟨error', heq⟩ | ⟨plaintext, next, -, -, heq, -⟩
  · simp only [step, heq]
    exact setParty_party self side
  · rw [heq] at h
    cases h

section Delivery

variable [Sha256] [kem : Kem] {initiator responder : PeerIdentity} {coins coins' : kem.Coins}
variable {hello reverse : List UInt8} {a b : Channel}

/-- Two ends that completed a handshake, and any run of sealing, splitting and
frames offered by a network that forges nothing. -/
theorem delivers
    (hI : connectThrough initiator responder.toPublic coins reverse = (hello, .ok a))
    (hR : complete responder hello coins' = .ok (reverse, b))
    (agree : LegsAgree initiator responder coins coins')
    (apart : RanksApart sha256 (hashedBy initiator responder coins coins'))
    (moves : List Move) (ideal : (start a b).RunUnforged moves) :
    let session := (start a b).run moves
    (∀ side, (session.party side).endpoint.view.sendKey =
        (session.party side.other).endpoint.view.recvKey) ∧
      (∀ side context,
        (session.openedUnder side.other context).Sublist (session.sealedUnder side context)) ∧
      (session.sealings.map Sealing.nonceUse).Nodup ∧
      ∀ side counter ciphertext context error,
        ((session.party side).endpoint.unseal counter ciphertext context).1 = .error error →
        session.step (.offer side counter ciphertext context) = session := by
  obtain ⟨rfl, rfl⟩ := complete_eq hI hR agree
  obtain ⟨hab, hba⟩ := Channel.mix_pair (legKeys initiator responder coins)
    (legKeys responder initiator coins')
  have hstart := linked_start hab hba (keys_ne apart) ⟨rfl, rfl⟩ ⟨rfl, rfl⟩
  have hlinked := hstart.run moves ideal
  refine ⟨fun side => (hlinked.direction side).keys, fun side context => ?_,
    hlinked.nodup_nonceUse, fun side counter ciphertext context error => step_refused _⟩
  exact sublist_openedUnder (hlinked.direction side) context

end Delivery

end Run

/-! ### A session between two fixed peers -/

section Sample

/-- SHA-256 on the inputs of one handshake, told apart by a byte each. -/
@[reducible] def sampleHash : Sha256 where
  hash data := digestOfNat <|
    let bytes := data.data.toList
    if bytes[0]? = some 0 then
      if bytes[63]? = some 3 then
        if bytes[41]? = some 105 then
          0x077f93b31d77b50d5cbf7077a34f6b2c36e097dbad29183cdcb2b1d984558872
        else 0x39bea097ce24d0949509474881d00f4e434a94538b9d11bc14a03ce2802bc371
      else if bytes[41]? = some 105 then
        0x75a9ad78badd1bbf14410f0cfc80f18ee3e85cfcb85a6d1d6db5cf24cec1db60
      else 0xef8635b8d69a9c7068d33cea6aa637713242658b2a94871ee146ab9496c9f208
    else if bytes[14]? = some 109 then
      if bytes[32]? = some 7 then
        0x3d7e93ed11ab9b59ffaa70627ddade76afc9a118069a56bf3e72ed834ab5a7f1
      else 0x8b1e8b4b2e5323a8bff23a5ecc78278839675695d4328ad444d987537dfc14eb
    else if bytes[24]? = some 1 then
      0x3b8a48849f9c06ff96cddd4cd7407f7504b0a1df3b8a24776859e778eef18c17
    else 0xacc07a0bb716528c0b5b8714b3d7db2faa480164aeffff22b32befd7245e47eb

/-- A KEM whose coins fill the ciphertext and the secret. -/
@[reducible] def sampleKem : Kem where
  SecretKey := Unit
  Coins := UInt8
  encapsulate _ coins := (Vector.replicate CIPHERTEXT_BYTES coins, Vector.replicate 32 coins)
  decapsulate ciphertext _ := Vector.replicate 32 (ciphertext.toList.headD 0)

def sampleContext : List UInt8 := bytesOf "proofwork/p2p/transport/key-confirmation/v2"

def samplePlaintext : List UInt8 := bytesOf "proofwork responder confirmed"

def sampleCiphertext : List UInt8 :=
  [31, 247, 21, 130, 238, 146, 102, 244, 69, 243, 73, 164, 136, 74, 185, 171, 192, 49, 222, 214,
    98, 197, 103, 110, 36, 242, 130, 236, 6, 223, 81, 246, 156, 197, 188, 86, 146, 161, 194, 230,
    141, 235, 73, 67, 72]

/-- ChaCha20-Poly1305 on the responder's key confirmation. -/
@[reducible] def sampleAead : Aead where
  encrypt _ nonce plaintext associated :=
    if nonce = nonceFor 0 ∧ plaintext = samplePlaintext ∧ associated = aad 0 sampleContext then
      some sampleCiphertext
    else none
  decrypt _ nonce ciphertext associated :=
    if nonce = nonceFor 0 ∧ ciphertext = sampleCiphertext ∧ associated = aad 0 sampleContext then
      some samplePlaintext
    else none

/-- The key confirmation, delivered twice, with a split in between. -/
def sampleMoves : List Move :=
  [.send .responder samplePlaintext sampleContext,
    .offer .initiator 0 sampleCiphertext sampleContext,
    .split .initiator,
    .offer .initiator 0 sampleCiphertext sampleContext]

attribute [local instance] sampleHash sampleKem sampleAead

def sampleInitiator : PeerIdentity := { secret := (), publicKey := Vector.replicate _ 1 }

def sampleResponder : PeerIdentity := { secret := (), publicKey := Vector.replicate _ 2 }

theorem sample_agree : LegsAgree sampleInitiator sampleResponder (3 : UInt8) (4 : UInt8) where
  first := by decide
  second := by decide

theorem sample_apart :
    RanksApart sha256 (hashedBy sampleInitiator sampleResponder (3 : UInt8) (4 : UInt8)) := by
  have hnodup : ((hashedBy sampleInitiator sampleResponder (3 : UInt8) (4 : UInt8)).map
      sha256).Nodup := by decide +kernel
  exact fun x hx y hy h => List.inj_on_of_nodup_map hnodup hx hy h

/-- The two ends of the sample handshake. -/
def sampleStart : Session :=
  start
    ((Channel.new (legKeys sampleInitiator sampleResponder (3 : UInt8)) .initiator).mix
      (Channel.new (legKeys sampleResponder sampleInitiator (4 : UInt8)) .responder))
    ((Channel.new (legKeys sampleInitiator sampleResponder (3 : UInt8)) .responder).mix
      (Channel.new (legKeys sampleResponder sampleInitiator (4 : UInt8)) .initiator))

theorem delivers_sample :
    ((sampleStart.run sampleMoves).openedUnder .initiator sampleContext).Sublist
      ((sampleStart.run sampleMoves).sealedUnder .responder sampleContext) := by
  have hcomplete := complete_of_agree sample_agree (by decide +kernel)
  have hideal : sampleStart.RunUnforged sampleMoves := by decide +kernel
  exact (delivers hcomplete.1 hcomplete.2 sample_agree sample_apart sampleMoves hideal).2.1
    .responder sampleContext

/-- The frame is opened once. -/
example : (sampleStart.run sampleMoves).openedUnder .initiator sampleContext = [samplePlaintext] := by
  decide +kernel

end Sample

end Session

end Cairn.Ports.P2p
