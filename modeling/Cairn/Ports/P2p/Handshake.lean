import Cairn.Ports.Canonical.Merkle
import Cairn.Verified.Freshest

/-!
# The encrypted channel of `src/p2p/handshake.rs`

A handshake runs one KEM leg in each direction, derives two directional keys
from each and mixes them into the keys of one session. Frames are sealed under
a counter that is the nonce and is authenticated too, and opened only above the
highest counter accepted so far. `split` hands the two directions over to two
threads, each with a copy of the sealing or opening logic.

The KEM and the AEAD are the crates' own and stand as parameters; the key
schedule of `connect_through` and `Inbound::complete` in `src/p2p/transport.rs`
is here because it decides which leg each side runs in which role.
-/

namespace Cairn.Ports.P2p

open Cairn.Verified
open Cairn.Ports.Canonical

/-! ## Bytes -/

/-- `[u8; 32]`: a key, a shared secret or a peer id. -/
abbrev Key := Vector UInt8 32

/-- The low bytes of a number, least first. -/
def leBytes : Nat → Nat → List UInt8
  | 0, _ => []
  | count + 1, n => UInt8.ofNat n :: leBytes count (n / 256)

/-- `u64::to_le_bytes`. -/
def toLeBytes (n : UInt64) : List UInt8 := leBytes 8 n.toNat

/-- `u64::to_be_bytes`. -/
def toBeBytes (n : UInt64) : List UInt8 := (toLeBytes n).reverse

@[simp] theorem length_leBytes (count n : Nat) : (leBytes count n).length = count := by
  induction count generalizing n with
  | zero => rfl
  | succ count ih => simp only [leBytes, List.length_cons, ih]

/-- As many bytes as a number needs give it back. -/
theorem leBytes_inj {count n m : Nat} (hn : n < 256 ^ count) (hm : m < 256 ^ count)
    (h : leBytes count n = leBytes count m) : n = m := by
  induction count generalizing n m with
  | zero => omega
  | succ count ih =>
    rw [leBytes, leBytes, List.cons.injEq] at h
    have hlow : n % 256 = m % 256 := by
      have := congrArg UInt8.toNat h.1
      simpa using this
    have hhigh : n / 256 = m / 256 := by
      refine ih ?_ ?_ h.2
      · rw [Nat.div_lt_iff_lt_mul (by omega)]
        rwa [Nat.pow_succ] at hn
      · rw [Nat.div_lt_iff_lt_mul (by omega)]
        rwa [Nat.pow_succ] at hm
    omega

theorem toLeBytes_injective : Function.Injective toLeBytes := by
  intro n m h
  refine UInt64.toNat_inj.mp (@leBytes_inj 8 _ _ ?_ ?_ h)
  · exact n.toNat_lt
  · exact m.toNat_lt

@[simp] theorem length_toBeBytes (n : UInt64) : (toBeBytes n).length = 8 := by
  rw [toBeBytes, List.length_reverse, toLeBytes, length_leBytes]

/-- The counter as a 12-byte little-endian nonce, zero-padded. -/
def nonceFor (counter : UInt64) : List UInt8 := toLeBytes counter ++ List.replicate 4 0

/-- The counter is authenticated along with the context. -/
def aad (counter : UInt64) (context : List UInt8) : List UInt8 := toBeBytes counter ++ context

theorem nonceFor_injective : Function.Injective nonceFor :=
  fun _ _ h => toLeBytes_injective (List.append_cancel_right h)

theorem aad_injective {counter counter' : UInt64} {context context' : List UInt8}
    (h : aad counter context = aad counter' context') :
    counter = counter' ∧ context = context' := by
  have hlength : (toBeBytes counter).length = (toBeBytes counter').length := by simp
  obtain ⟨hcounter, hcontext⟩ := List.append_inj h hlength
  exact ⟨toLeBytes_injective (List.reverse_inj.mp hcounter), hcontext⟩

/-! ## What the crates provide -/

/-- The AEAD, ChaCha20-Poly1305: key, nonce, text, associated data. -/
class Aead where
  encrypt : Key → List UInt8 → List UInt8 → List UInt8 → Option (List UInt8)
  decrypt : Key → List UInt8 → List UInt8 → List UInt8 → Option (List UInt8)

/-- Wire size of a Classic McEliece public key. -/
def PUBLIC_KEY_BYTES : Nat := 261120

/-- Wire size of a Classic McEliece ciphertext. -/
def CIPHERTEXT_BYTES : Nat := 96

abbrev PublicKey := Vector UInt8 PUBLIC_KEY_BYTES

abbrev Ciphertext := Vector UInt8 CIPHERTEXT_BYTES

/-- The KEM, Classic McEliece. What the generator of randomness yields is an
argument of `encapsulate`. -/
class Kem where
  SecretKey : Type
  Coins : Type
  encapsulate : PublicKey → Coins → Ciphertext × Key
  decapsulate : Ciphertext → SecretKey → Key

/-! ## Keys -/

inductive HandshakeError where
  | badPublicKeyLength (got : Nat)
  | badCiphertextLength (got : Nat)
  | notAuthentic
  | replay (counter expectedAbove : UInt64)
  | counterExhausted
deriving DecidableEq, Repr

def KDF_DOMAIN : String := "proofwork/p2p/mceliece/v1"

def LABEL_I2R : String := "initiator-to-responder"

def LABEL_R2I : String := "responder-to-initiator"

def MIX_DOMAIN : String := "proofwork/p2p/mceliece/mutual/v2"

def PEER_ID_DOMAIN : String := "proofwork/p2p/peer-id/v1"

/-- The bytes of a text. -/
def bytesOf (text : String) : List UInt8 := text.toUTF8.toList

/-- The length of a text as eight bytes, then the text. -/
def lengthThenText (text : String) : List UInt8 :=
  toBeBytes (UInt64.ofNat (bytesOf text).length) ++ bytesOf text

/-- What `derive` hashes for one label. -/
def legInput (shared : Key) (initiator responder : Key) (ciphertext : Ciphertext)
    (label : String) : List UInt8 :=
  lengthThenText KDF_DOMAIN ++ (lengthThenText label ++
    (shared.toList ++ (initiator.toList ++ (responder.toList ++ ciphertext.toList))))

/-- What `mix` hashes for one direction. -/
def mixInput (first second : Key) : List UInt8 :=
  bytesOf MIX_DOMAIN ++ (first.toList ++ second.toList)

/-- Which end of the handshake this side is. Decides which derived key sends. -/
inductive Role where
  | initiator
  | responder
deriving DecidableEq, Repr

/-- The two directional keys a handshake produces. -/
structure SessionKeys where
  i2r : Key
  r2i : Key
deriving DecidableEq

/-- An authenticated, encrypted session. -/
structure Channel where
  sendKey : Key
  recvKey : Key
  sendCounter : UInt64
  recvHigh : Option UInt64
deriving DecidableEq

section Keys

variable [Sha256]

def sha256 (bytes : List UInt8) : Key := Sha256.hash bytes.toByteArray

/-- Derive directional keys, binding the whole transcript. -/
def derive (shared : Key) (initiator responder : Key) (ciphertext : Ciphertext) : SessionKeys :=
  let leg := fun label => sha256 (legInput shared initiator responder ciphertext label)
  { i2r := leg LABEL_I2R, r2i := leg LABEL_R2I }

/-- A peer's id from its public key. -/
def peerIdOf (publicKey : List UInt8) : Key := sha256 (bytesOf PEER_ID_DOMAIN ++ publicKey)

/-- `Channel::new`. -/
def Channel.new (keys : SessionKeys) : Role → Channel
  | .initiator => { sendKey := keys.i2r, recvKey := keys.r2i, sendCounter := 0, recvHigh := none }
  | .responder => { sendKey := keys.r2i, recvKey := keys.i2r, sendCounter := 0, recvHigh := none }

/-- Combine two independently generated, opposite-direction KEM legs. -/
def Channel.mix (self other : Channel) : Channel where
  sendKey := sha256 (mixInput self.sendKey other.sendKey)
  recvKey := sha256 (mixInput self.recvKey other.recvKey)
  sendCounter := 0
  recvHigh := none

/-- The two ends of a session run each leg in opposite roles, so the key one
sends under is the key the other receives under. -/
theorem Channel.mix_pair (first second : SessionKeys) :
    ((Channel.new first .initiator).mix (Channel.new second .responder)).sendKey =
        ((Channel.new first .responder).mix (Channel.new second .initiator)).recvKey ∧
      ((Channel.new first .responder).mix (Channel.new second .initiator)).sendKey =
        ((Channel.new first .initiator).mix (Channel.new second .responder)).recvKey :=
  ⟨rfl, rfl⟩

end Keys

/-! ## Sealing and opening -/

section Frames

variable [Aead]

/-- Seal one frame under `key` at `counter`. -/
def sealFrame (key : Key) (counter : UInt64) (plaintext context : List UInt8) :
    Except HandshakeError (List UInt8) :=
  if counter = 18446744073709551615 then .error .counterExhausted
  else
    match Aead.encrypt key (nonceFor counter) plaintext (aad counter context) with
    | some ciphertext => .ok ciphertext
    | none => .error .notAuthentic

/-- Open one frame under `key` at `counter`. Replay is the caller's business. -/
def openFrame (key : Key) (counter : UInt64) (ciphertext context : List UInt8) :
    Except HandshakeError (List UInt8) :=
  match Aead.decrypt key (nonceFor counter) ciphertext (aad counter context) with
  | some plaintext => .ok plaintext
  | none => .error .notAuthentic

/-- `Channel::seal`: what it returns, and the channel after it. -/
def Channel.seal (self : Channel) (plaintext context : List UInt8) :
    Except HandshakeError (UInt64 × List UInt8) × Channel :=
  let counter := self.sendCounter
  match sealFrame self.sendKey counter plaintext context with
  | .error error => (.error error, self)
  | .ok ciphertext =>
    (.ok (counter, ciphertext), { self with sendCounter := self.sendCounter + 1 })

/-- `Channel::open`: what it returns, and the channel after it. -/
def Channel.unseal (self : Channel) (counter : UInt64) (ciphertext context : List UInt8) :
    Except HandshakeError (List UInt8) × Channel :=
  -- The highest counter so far, where this frame is not above it.
  match self.recvHigh.filter fun high => counter ≤ high with
  | some high => (.error (.replay counter high), self)
  | none =>
    match openFrame self.recvKey counter ciphertext context with
    | .error error => (.error error, self)
    -- Only advance on success: a forged frame cannot burn counter space.
    | .ok plaintext => (.ok plaintext, { self with recvHigh := some counter })

/-- The sending half of a split channel. -/
structure Sealer where
  key : Key
  counter : UInt64
deriving DecidableEq

/-- The receiving half of a split channel. -/
structure Opener where
  key : Key
  high : Option UInt64
deriving DecidableEq

/-- `Channel::split`. -/
def Channel.split (self : Channel) : Sealer × Opener :=
  ({ key := self.sendKey, counter := self.sendCounter },
    { key := self.recvKey, high := self.recvHigh })

/-- As `Channel.seal`. -/
def Sealer.seal (self : Sealer) (plaintext context : List UInt8) :
    Except HandshakeError (UInt64 × List UInt8) × Sealer :=
  let counter := self.counter
  match sealFrame self.key counter plaintext context with
  | .error error => (.error error, self)
  | .ok ciphertext => (.ok (counter, ciphertext), { self with counter := self.counter + 1 })

/-- As `Channel.unseal`, the refusal of replays and reordering included. -/
def Opener.unseal (self : Opener) (counter : UInt64) (ciphertext context : List UInt8) :
    Except HandshakeError (List UInt8) × Opener :=
  match self.high.filter fun high => counter ≤ high with
  | some high => (.error (.replay counter high), self)
  | none =>
    match openFrame self.key counter ciphertext context with
    | .error error => (.error error, self)
    | .ok plaintext => (.ok plaintext, { self with high := some counter })

/-- One end of a session: its channel, whole or split. -/
inductive Endpoint where
  | whole (channel : Channel)
  | halves (sealer : Sealer) (opener : Opener)
deriving DecidableEq

/-- The two keys and two counters an end holds, in either form. -/
def Endpoint.view : Endpoint → Channel
  | .whole channel => channel
  | .halves sealer opener =>
    { sendKey := sealer.key, recvKey := opener.key, sendCounter := sealer.counter,
      recvHigh := opener.high }

/-- Seal with the channel or with its sending half. -/
def Endpoint.seal (plaintext context : List UInt8) :
    Endpoint → Except HandshakeError (UInt64 × List UInt8) × Endpoint
  | .whole channel => (channel.seal plaintext context).map id .whole
  | .halves sealer opener => (sealer.seal plaintext context).map id (.halves · opener)

/-- Open with the channel or with its receiving half. -/
def Endpoint.unseal (counter : UInt64) (ciphertext context : List UInt8) :
    Endpoint → Except HandshakeError (List UInt8) × Endpoint
  | .whole channel => (channel.unseal counter ciphertext context).map id .whole
  | .halves sealer opener =>
    (opener.unseal counter ciphertext context).map id (.halves sealer ·)

/-- `split` consumes the channel: there is nothing left to split again. -/
def Endpoint.split : Endpoint → Endpoint
  | .whole channel => .halves channel.split.1 channel.split.2
  | .halves sealer opener => .halves sealer opener

omit [Aead] in
@[simp] theorem Endpoint.view_split (self : Endpoint) : self.split.view = self.view := by
  cases self <;> rfl

/-- A half seals what the whole would have sealed. -/
theorem Endpoint.view_seal (self : Endpoint) (plaintext context : List UInt8) :
    (self.seal plaintext context).map id Endpoint.view = self.view.seal plaintext context := by
  cases self with
  | whole channel => rfl
  | halves sealer opener =>
    simp only [Endpoint.seal, Endpoint.view, Sealer.seal, Channel.seal]
    split <;> rfl

/-- A half opens what the whole would have opened. -/
theorem Endpoint.view_unseal (self : Endpoint) (counter : UInt64) (ciphertext context : List UInt8) :
    (self.unseal counter ciphertext context).map id Endpoint.view =
      self.view.unseal counter ciphertext context := by
  cases self with
  | whole channel => rfl
  | halves sealer opener =>
    simp only [Endpoint.unseal, Endpoint.view, Opener.unseal, Channel.unseal]
    split
    · rfl
    · split <;> rfl

/-- A seal either fails and changes nothing, or uses the send counter and
moves it on by one. -/
theorem Endpoint.seal_cases (self : Endpoint) (plaintext context : List UInt8) :
    (∃ error, self.seal plaintext context = (.error error, self)) ∨
      ∃ ciphertext next, self.view.sendCounter ≠ 18446744073709551615 ∧
        self.seal plaintext context = (.ok (self.view.sendCounter, ciphertext), next) ∧
        next.view = { self.view with sendCounter := self.view.sendCounter + 1 } := by
  cases self with
  | whole channel =>
    simp only [Endpoint.seal, Endpoint.view, Channel.seal, sealFrame]
    split
    · exact .inl ⟨_, rfl⟩
    · rename_i ciphertext hseal
      refine .inr ⟨ciphertext, .whole _, ?_, rfl, rfl⟩
      intro hmax
      rw [if_pos hmax] at hseal
      cases hseal
  | halves sealer opener =>
    simp only [Endpoint.seal, Endpoint.view, Sealer.seal, sealFrame]
    split
    · exact .inl ⟨_, rfl⟩
    · rename_i ciphertext hseal
      refine .inr ⟨ciphertext, .halves _ opener, ?_, rfl, rfl⟩
      intro hmax
      rw [if_pos hmax] at hseal
      cases hseal

/-- An open either fails and changes nothing, or the frame is above the highest
counter so far, decrypts, and becomes the highest. -/
theorem Endpoint.unseal_cases (self : Endpoint) (counter : UInt64)
    (ciphertext context : List UInt8) :
    (∃ error, self.unseal counter ciphertext context = (.error error, self)) ∨
      ∃ plaintext next, (∀ high ∈ self.view.recvHigh, ¬ counter ≤ high) ∧
        Aead.decrypt self.view.recvKey (nonceFor counter) ciphertext (aad counter context) =
          some plaintext ∧
        self.unseal counter ciphertext context = (.ok plaintext, next) ∧
        next.view = { self.view with recvHigh := some counter } := by
  have hopen : ∀ {key plaintext}, openFrame key counter ciphertext context = .ok plaintext →
      Aead.decrypt key (nonceFor counter) ciphertext (aad counter context) = some plaintext := by
    intro key plaintext h
    unfold openFrame at h
    split at h
    · rename_i heq
      rw [heq]
      exact congrArg some (Except.ok.inj h)
    · cases h
  have hfilter : ∀ {high : Option UInt64}, (high.filter fun high => counter ≤ high) = none →
      ∀ n ∈ high, ¬ counter ≤ n := by
    intro high h n hn
    simpa using Option.filter_eq_none_iff.mp h n hn
  cases self with
  | whole channel =>
    simp only [Endpoint.unseal, Endpoint.view, Channel.unseal]
    split
    · exact .inl ⟨_, rfl⟩
    · rename_i hnone
      split
      · exact .inl ⟨_, rfl⟩
      · rename_i plaintext hok
        exact .inr ⟨plaintext, .whole _, hfilter hnone, hopen hok, rfl, rfl⟩
  | halves sealer opener =>
    simp only [Endpoint.unseal, Endpoint.view, Opener.unseal]
    split
    · exact .inl ⟨_, rfl⟩
    · rename_i hnone
      split
      · exact .inl ⟨_, rfl⟩
      · rename_i plaintext hok
        exact .inr ⟨plaintext, .halves sealer _, hfilter hnone, hopen hok, rfl, rfl⟩

end Frames

/-! ## The handshake -/

section Handshake

variable [Sha256] [kem : Kem]

/-- A peer's long-term keypair. The id is computed from the public key. -/
structure PeerIdentity where
  secret : kem.SecretKey
  publicKey : PublicKey

def PeerIdentity.id (self : PeerIdentity) : Key := peerIdOf self.publicKey.toList

/-- What a peer caches about another peer. -/
structure PeerPublic where
  publicKey : PublicKey

omit kem in
def PeerPublic.id (self : PeerPublic) : Key := peerIdOf self.publicKey.toList

omit [Sha256] in
/-- What other peers hold about this one. -/
def PeerIdentity.toPublic (self : PeerIdentity) : PeerPublic := { publicKey := self.publicKey }

/-- `boxed_array`: a slice of exactly this length. -/
def boxedArray (length : Nat) (bytes : List UInt8) : Option (Vector UInt8 length) :=
  if h : bytes.length = length then some ⟨bytes.toArray, by simpa using h⟩ else none

/-- `PeerPublic::from_bytes`. -/
def PeerPublic.fromBytes (bytes : List UInt8) : Except HandshakeError PeerPublic :=
  match boxedArray PUBLIC_KEY_BYTES bytes with
  | some publicKey => .ok { publicKey }
  | none => .error (.badPublicKeyLength bytes.length)

/-- Open a session to this peer. -/
def PeerPublic.initiate (self : PeerPublic) (initiator : Key) (coins : kem.Coins) :
    Ciphertext × Channel :=
  let (ciphertext, shared) := Kem.encapsulate self.publicKey coins
  (ciphertext, .new (derive shared initiator self.id ciphertext) .initiator)

/-- Accept an incoming handshake. A malformed ciphertext yields some shared
secret rather than an error, and no frame will open under it. -/
def PeerIdentity.accept (self : PeerIdentity) (initiator : Key) (ciphertext : List UInt8) :
    Except HandshakeError Channel :=
  match boxedArray CIPHERTEXT_BYTES ciphertext with
  | none => .error (.badCiphertextLength ciphertext.length)
  | some ciphertext =>
    let shared := Kem.decapsulate ciphertext self.secret
    .ok (.new (derive shared initiator self.id ciphertext) .responder)

/-- `TransportError`, as far as the handshake raises it. -/
inductive TransportError where
  | handshake (error : HandshakeError)
  | keyRefused
deriving DecidableEq, Repr

def KEY_REQUEST_MAGIC : List UInt8 := bytesOf "PWKEYRQ1"

/-- The initiator's side, `connect_through`, on the coins of its own leg: the
hello it writes, and the channel it ends with once it has read `reverse`. -/
def connectThrough (own : PeerIdentity) (endpoint : PeerPublic) (coins : kem.Coins)
    (reverse : List UInt8) : List UInt8 × Except TransportError Channel :=
  let (ciphertext, first) := endpoint.initiate own.id coins
  (own.publicKey.toList ++ ciphertext.toList,
    match own.accept endpoint.id reverse with
    | .error error => .error (.handshake error)
    | .ok second => .ok (first.mix second))

/-- The responder's side, `Inbound::complete`, on the coins of its own leg:
the leg it writes back, and the channel it ends with. -/
def complete (own : PeerIdentity) (hello : List UInt8) (coins : kem.Coins) :
    Except TransportError (List UInt8 × Channel) :=
  if hello.take KEY_REQUEST_MAGIC.length = KEY_REQUEST_MAGIC then .error .keyRefused
  else
    match PeerPublic.fromBytes (hello.take PUBLIC_KEY_BYTES) with
    | .error error => .error (.handshake error)
    | .ok remotePublic =>
      match own.accept remotePublic.id (hello.drop PUBLIC_KEY_BYTES) with
      | .error error => .error (.handshake error)
      | .ok first =>
        let (reverse, second) := remotePublic.initiate own.id coins
        .ok (reverse.toList, first.mix second)

omit [Sha256] kem in
@[simp] theorem boxedArray_toList {length : Nat} (bytes : Vector UInt8 length) :
    boxedArray length bytes.toList = some bytes := by
  unfold boxedArray
  rw [dif_pos (by simp)]
  congr 1

/-- Both legs decapsulate to the secret they were encapsulated with. -/
structure LegsAgree (initiator responder : PeerIdentity) (coins coins' : kem.Coins) : Prop where
  first : Kem.decapsulate (Kem.encapsulate responder.publicKey coins).1 responder.secret =
    (Kem.encapsulate responder.publicKey coins).2
  second : Kem.decapsulate (Kem.encapsulate initiator.publicKey coins').1 initiator.secret =
    (Kem.encapsulate initiator.publicKey coins').2

/-- The keys of one leg, from the encapsulating side's identity to the other's. -/
def legKeys (source target : PeerIdentity) (coins : kem.Coins) : SessionKeys :=
  let (ciphertext, shared) := Kem.encapsulate target.publicKey coins
  derive shared source.id target.id ciphertext

/-- What a handshake hashes once the peers' ids are known: four legs' keys and
the two directions they are mixed into. -/
def hashedBy (initiator responder : PeerIdentity) (coins coins' : kem.Coins) :
    List (List UInt8) :=
  let (ciphertext, shared) := Kem.encapsulate responder.publicKey coins
  let (ciphertext', shared') := Kem.encapsulate initiator.publicKey coins'
  let first := legKeys initiator responder coins
  let second := legKeys responder initiator coins'
  [legInput shared initiator.id responder.id ciphertext LABEL_I2R,
    legInput shared initiator.id responder.id ciphertext LABEL_R2I,
    legInput shared' responder.id initiator.id ciphertext' LABEL_I2R,
    legInput shared' responder.id initiator.id ciphertext' LABEL_R2I,
    mixInput first.i2r second.r2i,
    mixInput first.r2i second.i2r]

omit [Sha256] kem in
theorem legInput_label_inj {shared initiator responder : Key} {ciphertext : Ciphertext}
    (h : legInput shared initiator responder ciphertext LABEL_I2R =
      legInput shared initiator responder ciphertext LABEL_R2I) : False := by
  have hlabels := (List.append_inj (List.append_cancel_left h) (by decide +kernel)).1
  exact absurd hlabels (by decide +kernel)

omit [Sha256] kem in
theorem mixInput_inj {first first' second second' : Key}
    (h : mixInput first second = mixInput first' second') : first = first' := by
  have hfirst := (List.append_inj (List.append_cancel_left h) (by simp)).1
  exact Vector.toList_inj.mp hfirst

section Completed

variable {initiator responder : PeerIdentity} {coins coins' : kem.Coins}
variable {hello reverse : List UInt8} {a b : Channel}

/-- What the two sides of a handshake end with, where each got what the other
wrote and the legs agree. -/
theorem complete_eq
    (hI : connectThrough initiator responder.toPublic coins reverse = (hello, .ok a))
    (hR : complete responder hello coins' = .ok (reverse, b))
    (agree : LegsAgree initiator responder coins coins') :
    a = (Channel.new (legKeys initiator responder coins) .initiator).mix
        (Channel.new (legKeys responder initiator coins') .responder) ∧
      b = (Channel.new (legKeys initiator responder coins) .responder).mix
        (Channel.new (legKeys responder initiator coins') .initiator) := by
  have hhello : initiator.publicKey.toList ++
      (Kem.encapsulate responder.publicKey coins).1.toList = hello := congrArg Prod.fst hI
  have ha := congrArg Prod.snd hI
  have hpublic : hello.take PUBLIC_KEY_BYTES = initiator.publicKey.toList := by
    rw [← hhello]
    exact List.take_left' (by simp)
  have hleg : hello.drop PUBLIC_KEY_BYTES =
      (Kem.encapsulate responder.publicKey coins).1.toList := by
    rw [← hhello]
    exact List.drop_left' (by simp)
  unfold complete at hR
  split at hR
  · cases hR
  rw [hpublic, hleg] at hR
  simp only [PeerPublic.fromBytes, PeerIdentity.accept, boxedArray_toList, Except.ok.injEq,
    Prod.mk.injEq] at hR
  obtain ⟨hreverse, hb⟩ := hR
  simp only [connectThrough, PeerIdentity.accept, ← hreverse, PeerPublic.initiate,
    boxedArray_toList, Except.ok.injEq] at ha
  rw [← ha, ← hb]
  constructor
  · rw [agree.second]
    rfl
  · rw [agree.first]
    rfl

/-- Over a wire nobody touches, both sides of a handshake complete. -/
theorem complete_of_agree (agree : LegsAgree initiator responder coins coins')
    (hmagic : initiator.publicKey.toList.take KEY_REQUEST_MAGIC.length ≠ KEY_REQUEST_MAGIC) :
    let reverse := (Kem.encapsulate initiator.publicKey coins').1.toList
    let hello := initiator.publicKey.toList ++
      (Kem.encapsulate responder.publicKey coins).1.toList
    connectThrough initiator responder.toPublic coins reverse =
        (hello, .ok ((Channel.new (legKeys initiator responder coins) .initiator).mix
          (Channel.new (legKeys responder initiator coins') .responder))) ∧
      complete responder hello coins' =
        .ok (reverse, (Channel.new (legKeys initiator responder coins) .responder).mix
          (Channel.new (legKeys responder initiator coins') .initiator)) := by
  constructor
  · simp only [connectThrough, PeerIdentity.accept, boxedArray_toList]
    rw [agree.second]
    rfl
  · unfold complete
    rw [List.take_append_of_le_length (by
      rw [Vector.length_toList]
      decide +kernel), if_neg hmagic, List.take_left' (by simp), List.drop_left' (by simp)]
    simp only [PeerPublic.fromBytes, PeerIdentity.accept, boxedArray_toList]
    rw [agree.first]
    rfl

/-- The two directions of a session run under different keys. -/
theorem keys_ne
    (apart : RanksApart sha256 (hashedBy initiator responder coins coins')) :
    ((Channel.new (legKeys initiator responder coins) .initiator).mix
        (Channel.new (legKeys responder initiator coins') .responder)).sendKey ≠
      ((Channel.new (legKeys initiator responder coins) .initiator).mix
        (Channel.new (legKeys responder initiator coins') .responder)).recvKey := by
  intro h
  have hmix := apart _ (by simp [hashedBy, Channel.new]) _ (by simp [hashedBy, Channel.new]) h
  have hleg : (legKeys initiator responder coins).i2r = (legKeys initiator responder coins).r2i :=
    mixInput_inj hmix
  have hlabels := apart _ (List.Mem.head _) _ (List.Mem.tail _ (List.Mem.head _)) hleg
  exact legInput_label_inj hlabels

end Completed

end Handshake

end Cairn.Ports.P2p
