import Cairn.Ports.Crypto.Envelope
import Cairn.Ports.Crypto.Shamir

/-!
# Sealing and opening an envelope

The bundles of `src/crypto/kem.rs`, and sealing, opening a share and opening an
envelope of `src/crypto/envelope.rs`. The three encapsulation schemes and the
AEAD are parameters; a key's length is not looked at, and keys come in the suite
order the constructors of the source leave them in.

Sealing and opening talk past each other through the recipient's key, the seat
and the associated data, which the key of every share is derived from. What is
sealed opens for a threshold of distinct seats (`openWithShares_of_seal`).
-/

namespace Cairn.Ports.Crypto

open Cairn.Verified
open Cairn.Ports.Canonical
open P2p (Aead Key bytesOf sha256 toBeBytes peerIdOf)

/-- What is encrypted is decrypted with the same key, nonce and associated
data. -/
def AeadCorrect [Aead] : Prop := ∀ key nonce text aad ciphertext,
  Aead.encrypt key nonce text aad = some ciphertext →
    Aead.decrypt key nonce ciphertext aad = some text

/-! ## Keys -/

/-- The encapsulation schemes, one for each suite. -/
class Kems [Rng] where
  encapsulate : (suite : Suite) → List UInt8 → Rng.State →
    (Vector UInt8 suite.ciphertextLen × Key) × Rng.State
  decapsulate : (suite : Suite) → List UInt8 → Vector UInt8 suite.ciphertextLen → Key

/-- A public key, tagged with the suite that can use it. -/
structure PublicKey where
  suite : Suite
  bytes : List UInt8
deriving DecidableEq

/-- A secret key, tagged with its suite, and the public half it was stored
with. -/
structure SecretKey where
  suite : Suite
  bytes : List UInt8
  publicBytes : List UInt8

def SecretKey.publicKey (key : SecretKey) : PublicKey := ⟨key.suite, key.publicBytes⟩

/-- Each suite once, in suite order, the mandatory one among them. -/
structure SuiteOrdered (suites : List Suite) : Prop where
  ascending : suites.Pairwise fun a b => a.rank < b.rank
  mandatory : ∃ suite ∈ suites, suite.isMandatory = true

/-- The keys one party publishes. -/
structure Bundle where
  keys : List PublicKey
  ordered : SuiteOrdered (keys.map PublicKey.suite)

/-- The secret halves of a bundle. -/
structure SecretBundle where
  keys : List SecretKey
  ordered : SuiteOrdered (keys.map SecretKey.suite)

theorem Bundle.isSome_mceliece (bundle : Bundle) :
    (bundle.keys.find? fun key => key.suite = .mcEliece).isSome := by
  obtain ⟨suite, hsuite, hmandatory⟩ := bundle.ordered.mandatory
  obtain ⟨key, hkey, rfl⟩ := List.mem_map.mp hsuite
  exact List.find?_isSome.mpr ⟨key, hkey, hmandatory⟩

/-- The mandatory Classic McEliece key. -/
def Bundle.mceliece (bundle : Bundle) : PublicKey :=
  (bundle.keys.find? fun key => key.suite = .mcEliece).get bundle.isSome_mceliece

def SecretBundle.publicBundle (secrets : SecretBundle) : Bundle where
  keys := secrets.keys.map SecretKey.publicKey
  ordered := by
    rw [List.map_map]
    exact secrets.ordered

theorem checkOrder_of_ascending : ∀ {legs : List Leg},
    (legs.map Leg.suite).Pairwise (fun a b => a.rank < b.rank) → checkOrder legs = .ok ()
  | [], _ => rfl
  | [_], _ => rfl
  | leg :: next :: rest, h => by
      rw [List.map_cons, List.pairwise_cons] at h
      have hlt : leg.suite.rank < next.suite.rank := h.1 _ List.mem_cons_self
      have hne : leg.suite ≠ next.suite := fun heq => by rw [heq] at hlt; omega
      rw [checkOrder, if_neg hne, if_neg (by omega)]
      exact checkOrder_of_ascending h.2

theorem checkLengths_of_forall : ∀ {legs : List Leg},
    (∀ leg ∈ legs, leg.ciphertext.length = leg.suite.ciphertextLen) → checkLengths legs = .ok ()
  | [], _ => rfl
  | leg :: rest, h => by
      rw [checkLengths, if_neg (not_not.mpr (h leg List.mem_cons_self))]
      exact checkLengths_of_forall fun l hl => h l (List.mem_cons_of_mem leg hl)

theorem checkLegs_of_ordered {legs : List Leg} (hordered : SuiteOrdered (legs.map Leg.suite))
    (hlengths : ∀ leg ∈ legs, leg.ciphertext.length = leg.suite.ciphertextLen) :
    checkLegs legs = .ok () := by
  obtain ⟨suite, hsuite, hmandatory⟩ := hordered.mandatory
  obtain ⟨leg, hleg, rfl⟩ := List.mem_map.mp hsuite
  have hany : (legs.any fun leg => leg.suite.isMandatory) = true :=
    List.any_eq_true.mpr ⟨leg, hleg, hmandatory⟩
  have hne : legs ≠ [] := List.ne_nil_of_mem hleg
  simp [checkLegs, hne, hany, checkOrder_of_ascending hordered.ascending,
    checkLengths_of_forall hlengths, bind, Except.bind, pure, Except.pure]

section Keys

variable [Sha256]

/-- The id of a bundle is that of its McEliece key, as a peer's id is. -/
def Bundle.id (bundle : Bundle) : Key := peerIdOf bundle.mceliece.bytes

def SecretBundle.id (secrets : SecretBundle) : Key := secrets.publicBundle.id

/-- A field of a transcript: its length, then its bytes. -/
def absorb (field : List UInt8) : List UInt8 := toBeBytes (UInt64.ofNat field.length) ++ field

def COMBINE_DOMAIN : String := "proofwork/kem/combine/v1"

/-- Every leg hashed into one shared secret. -/
def combineLegs (bundleId : Key) (legs : List Leg) (secrets : List Key) : Key :=
  sha256 (absorb (bytesOf COMBINE_DOMAIN) ++ absorb bundleId.toList ++
    (legs.zip secrets).flatMap fun (leg, secret) =>
      absorb (bytesOf leg.suite.asStr) ++ absorb leg.ciphertext ++ absorb secret.toList)

variable [Rng] [Kems]

/-- The loop of `Bundle::encapsulate`. -/
def encapsulateAll : List PublicKey → Rng.State → (List Leg × List Key) × Rng.State
  | [], rng => (([], []), rng)
  | key :: keys, rng =>
    let ((ciphertext, secret), rng) := Kems.encapsulate key.suite key.bytes rng
    let ((legs, secrets), rng) := encapsulateAll keys rng
    ((⟨key.suite, ciphertext.toList⟩ :: legs, secret :: secrets), rng)

omit [Sha256] in
theorem encapsulateAll_spec : ∀ (keys : List PublicKey) (rng : Rng.State),
    (encapsulateAll keys rng).1.1.map Leg.suite = keys.map PublicKey.suite ∧
      ∀ leg ∈ (encapsulateAll keys rng).1.1, leg.ciphertext.length = leg.suite.ciphertextLen
  | [], _ => ⟨rfl, fun _ h => nomatch h⟩
  | key :: keys, rng => by
      obtain ⟨hsuites, hlengths⟩ := encapsulateAll_spec keys
        (Kems.encapsulate key.suite key.bytes rng).2
      refine ⟨congrArg (key.suite :: ·) hsuites, fun leg hleg => ?_⟩
      rcases List.mem_cons.mp hleg with rfl | hleg
      · exact Vector.length_toList
      · exact hlengths leg hleg

/-- `Bundle::encapsulate`: to every leg, and combined. -/
def Bundle.encapsulate (bundle : Bundle) (rng : Rng.State) : (Encapsulated × Key) × Rng.State :=
  let out := encapsulateAll bundle.keys rng
  ((⟨out.1.1, checkLegs_of_ordered
      (by rw [(encapsulateAll_spec bundle.keys rng).1]; exact bundle.ordered)
      (encapsulateAll_spec bundle.keys rng).2⟩,
    combineLegs bundle.id out.1.1 out.1.2), out.2)

/-- `SecretKey::decapsulate`: the only error is a length. -/
def SecretKey.decapsulate (key : SecretKey) (ciphertext : List UInt8) : Except KemError Key :=
  if h : ciphertext.length = key.suite.ciphertextLen then
    .ok (Kems.decapsulate key.suite key.bytes ⟨ciphertext.toArray, by simpa using h⟩)
  else
    .error (.wrongLength key.suite "ciphertext" key.suite.ciphertextLen ciphertext.length)

/-- The loop of `SecretBundle::decapsulate`. -/
def decapsulateAll : List (Leg × SecretKey) → Except KemError (List Key)
  | [] => .ok []
  | (leg, key) :: pairs => do
      ensure (leg.suite = key.suite) .legMismatch
      let secret ← key.decapsulate leg.ciphertext
      let secrets ← decapsulateAll pairs
      pure (secret :: secrets)

def SecretBundle.decapsulate (secrets : SecretBundle) (given : Encapsulated) :
    Except KemError Key := do
  ensure (given.legs.length = secrets.keys.length) .legMismatch
  let shared ← decapsulateAll (given.legs.zip secrets.keys)
  pure (combineLegs secrets.id given.legs shared)

/-- The halves of a key belong together: what is encapsulated to the one is
recovered with the other. -/
def SecretKey.Paired (key : SecretKey) : Prop := ∀ rng,
  Kems.decapsulate key.suite key.bytes (Kems.encapsulate key.suite key.publicBytes rng).1.1 =
    (Kems.encapsulate key.suite key.publicBytes rng).1.2

omit [Sha256] in
theorem SecretKey.decapsulate_encapsulate {key : SecretKey} (h : key.Paired) (rng : Rng.State) :
    key.decapsulate (Kems.encapsulate key.suite key.publicBytes rng).1.1.toList =
      .ok (Kems.encapsulate key.suite key.publicBytes rng).1.2 := by
  rw [SecretKey.decapsulate, dif_pos Vector.length_toList, ← h rng]
  refine congrArg (fun c => Except.ok (Kems.decapsulate key.suite key.bytes c)) ?_
  simp [Vector.toList]

omit [Sha256] in
theorem decapsulateAll_encapsulateAll : ∀ {secretKeys : List SecretKey},
    (∀ key ∈ secretKeys, key.Paired) → ∀ rng : Rng.State,
      decapsulateAll
          ((encapsulateAll (secretKeys.map SecretKey.publicKey) rng).1.1.zip secretKeys) =
        .ok (encapsulateAll (secretKeys.map SecretKey.publicKey) rng).1.2
  | [], _, _ => rfl
  | key :: _, h, rng =>
    bind_eq_ok.mpr ⟨(), ensure_eq_ok.mpr rfl, bind_eq_ok.mpr ⟨_,
      key.decapsulate_encapsulate (h key List.mem_cons_self) rng, bind_eq_ok.mpr ⟨_,
        decapsulateAll_encapsulateAll (fun k hk => h k (List.mem_cons_of_mem key hk)) _, rfl⟩⟩⟩

/-- A bundle recovers what was encapsulated to its public half. -/
theorem SecretBundle.decapsulate_encapsulate {secrets : SecretBundle}
    (h : ∀ key ∈ secrets.keys, key.Paired) (rng : Rng.State) :
    secrets.decapsulate (secrets.publicBundle.encapsulate rng).1.1 =
      .ok (secrets.publicBundle.encapsulate rng).1.2 := by
  have hlength : (secrets.publicBundle.encapsulate rng).1.1.legs.length = secrets.keys.length := by
    have := congrArg List.length (encapsulateAll_spec secrets.publicBundle.keys rng).1
    rw [List.length_map, List.length_map] at this
    exact this.trans (List.length_map _)
  exact bind_eq_ok.mpr ⟨(), ensure_eq_ok.mpr hlength,
    bind_eq_ok.mpr ⟨_, decapsulateAll_encapsulateAll h rng, rfl⟩⟩

/-! ## Shares -/

/-- A committee member's public identity: a routing index and a key bundle. -/
structure CommitteeMember where
  index : UInt8
  keys : Bundle

def CommitteeMember.id (member : CommitteeMember) : Key := member.keys.id

/-- A committee member's private keys. -/
structure CommitteeKey where
  secrets : SecretBundle

def CommitteeKey.id (key : CommitteeKey) : Key := key.secrets.id

def SHARE_KDF_DOMAIN : String := "proofwork/censorship/envelope/share-key/v2"

/-- Everything that decides which envelope and which recipient a share belongs
to. -/
def deriveShareKey (shared : Key) (encapsulated : Encapsulated) (recipientId : Key)
    (memberIndex : UInt8) (aad : String) : Key :=
  sha256 (absorb (bytesOf SHARE_KDF_DOMAIN) ++ absorb shared.toList ++
    (encapsulated.legs.flatMap fun leg =>
      absorb (bytesOf leg.suite.asStr) ++ absorb leg.ciphertext) ++
    absorb recipientId.toList ++ absorb [memberIndex] ++ absorb (bytesOf aad))

variable [Aead]

/-- Seal one Shamir share to one member. The point of the share is inside the
ciphertext; the associated data is in the key. -/
def sealShare (member : CommitteeMember) (share : Share) (aad : String) (rng : Rng.State) :
    Except EnvelopeError (SealedShare × Rng.State) :=
  let ((encapsulated, shared), rng) := member.keys.encapsulate rng
  let key := deriveShareKey shared encapsulated member.id member.index aad
  let (nonce, rng) := Rng.fill NONCE_LEN rng
  match Aead.encrypt key nonce.toList (share.index :: share.data) [] with
  | none => .error (.encrypt "sealed share")
  | some ciphertext => .ok (⟨member.index, encapsulated, nonce, ciphertext⟩, rng)

/-- Recover this member's Shamir share. -/
def CommitteeKey.openShare (key : CommitteeKey) (envelope : SealedEnvelope) (index : UInt8) :
    Except EnvelopeError Share := do
  let given ← okOr (.unknownShare index) (envelope.sealedShare index)
  let shared ← (key.secrets.decapsulate given.encapsulated).mapError .kem
  let shareKey := deriveShareKey shared given.encapsulated key.id index envelope.aad
  let plaintext ← okOr (.authentication "sealed share")
    (Aead.decrypt shareKey given.nonce.toList given.ciphertext [])
  match plaintext with
  | [] => .error (.malformedShare index)
  | x :: body => .ok ⟨x, body⟩

variable {aad : String} {rng : Rng.State} {envelope : SealedEnvelope}
  {committee : List CommitteeMember}

variable {member : CommitteeMember}

theorem index_of_sealShare {share : Share} {rng' : Rng.State}
    {out : SealedShare} (h : sealShare member share aad rng = .ok (out, rng')) :
    out.index = member.index := by
  simp only [sealShare] at h
  split at h
  · cases h
  · cases h
    rfl

/-- A share opens under the key it was sealed to. -/
theorem openShare_of_sealShare (haead : AeadCorrect) {key : CommitteeKey}
    (hpaired : ∀ k ∈ key.secrets.keys, k.Paired) (hkeys : member.keys = key.secrets.publicBundle)
    {share : Share} {rng' : Rng.State} {out : SealedShare}
    (h : sealShare member share envelope.aad rng = .ok (out, rng'))
    (hfind : envelope.sealedShare member.index = some out) :
    key.openShare envelope member.index = .ok share := by
  have hshared := SecretBundle.decapsulate_encapsulate hpaired rng
  have hid : member.id = key.id := by rw [CommitteeMember.id, hkeys]; rfl
  simp only [sealShare, hkeys, hid] at h
  split at h
  · cases h
  · next ciphertext hencrypt =>
      cases h
      refine bind_eq_ok.mpr ⟨_, okOr_eq_ok.mpr hfind, bind_eq_ok.mpr ⟨_,
        mapError_eq_ok.mpr hshared, bind_eq_ok.mpr ⟨_, okOr_eq_ok.mpr (haead _ _ _ _ _ hencrypt),
          rfl⟩⟩⟩

/-! ## Envelopes -/

/-- The inner loop over the committee: this member against the later ones. By id
and not by bundle, so that one entity cannot hold two shares. -/
def checkAgainst (member : CommitteeMember) : List CommitteeMember → Except EnvelopeError Unit
  | [] => .ok ()
  | other :: rest =>
    if member.index = other.index then .error (.duplicateMemberIndex member.index)
    else if member.id = other.id then .error (.duplicateMemberKey other.index)
    else checkAgainst member rest

def checkMembers : List CommitteeMember → Except EnvelopeError Unit
  | [] => .ok ()
  | member :: rest => do
      checkAgainst member rest
      checkMembers rest

/-- The shares sealed, each to its member's seat. -/
def sealShares (aad : String) : (pairs : List (CommitteeMember × Share)) → Rng.State →
    Except EnvelopeError
      { out : List SealedShare // out.map SealedShare.index = pairs.map fun p => p.1.index }
  | [], _ => .ok ⟨[], rfl⟩
  | (member, share) :: pairs, rng =>
    match h : sealShare member share aad rng with
    | .error error => .error error
    | .ok (out, rng) => do
        let ⟨rest, hrest⟩ ← sealShares aad pairs rng
        pure ⟨out :: rest, by rw [List.map_cons, List.map_cons, index_of_sealShare h, hrest]⟩

omit [Rng] [Kems] [Aead] in
theorem checkAgainst_eq_ok : ∀ {rest : List CommitteeMember},
    checkAgainst member rest = .ok () → member.index ∉ rest.map CommitteeMember.index
  | [], _, h => nomatch h
  | other :: rest, hok, h => by
      rw [checkAgainst] at hok
      split_ifs at hok with hindex hid
      rcases List.mem_cons.mp h with heq | hrest
      · exact hindex heq
      · exact checkAgainst_eq_ok hok hrest

omit [Rng] [Kems] [Aead] in
theorem nodup_of_checkMembers : ∀ {committee : List CommitteeMember},
    checkMembers committee = .ok () → (committee.map CommitteeMember.index).Nodup
  | [], _ => List.nodup_nil
  | _ :: _, h => by
      obtain ⟨_, hfirst, hrest⟩ := bind_eq_ok.mp h
      exact List.nodup_cons.mpr ⟨checkAgainst_eq_ok hfirst, nodup_of_checkMembers hrest⟩

omit [Sha256] [Rng] [Kems] [Aead] in
theorem map_index_zip {shares : List Share} (h : shares.length = committee.length) :
    (committee.zip shares).map (fun p => p.1.index) = committee.map CommitteeMember.index := by
  rw [← @List.map_fst_zip _ _ committee shares h.ge, List.map_map]
  rw [List.map_fst_zip h.ge]
  rfl

/-- `SealedEnvelope::seal_retaining_key`. -/
def SealedEnvelope.sealRetainingKey (payload : List UInt8) (aad : String)
    (committee : List CommitteeMember) (threshold : UInt8) (rng : Rng.State) :
    Except EnvelopeError (SealedEnvelope × Key) :=
  if committee = [] then .error .emptyCommittee
  else if committee.length > MAX_COMMITTEE then .error (.committeeTooLarge committee.length)
  else if hthreshold : threshold = 0 ∨ threshold.toNat > committee.length then
    .error (.invalidThreshold threshold committee.length)
  else
    match hmembers : checkMembers committee with
    | .error error => .error error
    | .ok () =>
      let (contentKey, rng) := Rng.fill KEY_LEN rng
      let (nonce, rng) := Rng.fill NONCE_LEN rng
      match Aead.encrypt contentKey nonce.toList payload (bytesOf aad) with
      | none => .error (.encrypt "payload")
      | some ciphertext =>
        match Shamir.split contentKey.toList threshold (UInt8.ofNat committee.length) rng with
        | .error error => .error (.shamir error.debug)
        | .ok (shares, rng) =>
          if hcount : shares.length ≠ committee.length then
            .error (.shareCountMismatch shares.length committee.length)
          else do
            let ⟨out, hout⟩ ← sealShares aad (committee.zip shares) rng
            have hseats : out.map SealedShare.index = committee.map CommitteeMember.index :=
              hout.trans (map_index_zip (not_not.mp hcount))
            pure ({ threshold, nonce, ciphertext, aad,
                    sealedShares := ⟨out, hseats ▸ nodup_of_checkMembers hmembers⟩,
                    threshold_pos := fun h => hthreshold (.inl h),
                    threshold_le := by
                      have hlength := congrArg List.length hseats
                      rw [List.length_map, List.length_map] at hlength
                      have hle := fun h => hthreshold (.inr h)
                      show threshold.toNat ≤ out.length
                      omega }, contentKey)

/-- `SealedEnvelope::seal`: the content key is dropped. -/
def SealedEnvelope.sealPayload (payload : List UInt8) (aad : String)
    (committee : List CommitteeMember) (threshold : UInt8) (rng : Rng.State) :
    Except EnvelopeError SealedEnvelope :=
  (sealRetainingKey payload aad committee threshold rng).map Prod.fst

/-- Reconstruct the content key from published shares and decrypt. Only the tag
tells a wrong reconstruction. -/
def SealedEnvelope.openWithShares (envelope : SealedEnvelope) (shares : List Share) :
    Except EnvelopeError (List UInt8) := do
  ensure (shares ≠ []) .noShares
  let combined ← (Shamir.combine shares).mapError fun error => .shamir error.debug
  if h : combined.length = KEY_LEN then
    okOr (.authentication "payload") (Aead.decrypt ⟨combined.toArray, by simpa [KEY_LEN] using h⟩
      envelope.nonce.toList envelope.ciphertext (bytesOf envelope.aad))
  else .error (.contentKeyLength combined.length)

theorem sealShares_spec {aad : String} : ∀ {pairs : List (CommitteeMember × Share)}
    {rng : Rng.State} {out}, sealShares aad pairs rng = .ok out →
      ∀ pair ∈ pairs, ∃ one ∈ out.val, ∃ rng rng',
        sealShare pair.1 pair.2 aad rng = .ok (one, rng')
  | (member, share) :: pairs, rng, out, hseal, pair, hpair => by
      rw [sealShares] at hseal
      split at hseal
      · cases hseal
      · next one rng' h =>
          obtain ⟨⟨rest, hrest⟩, hpairs, hout⟩ := bind_eq_ok.mp hseal
          cases hout
          rcases List.mem_cons.mp hpair with rfl | hpair
          · exact ⟨one, List.mem_cons_self, rng, rng', h⟩
          · obtain ⟨found, hfound, hsealed⟩ := sealShares_spec hpairs pair hpair
            exact ⟨found, List.mem_cons_of_mem one hfound, hsealed⟩

/-- What sealing leaves: the payload under a content key that is shared out to
the committee. -/
theorem sealRetainingKey_eq_ok {payload : List UInt8} {threshold : UInt8} {key : Key}
    (h : SealedEnvelope.sealRetainingKey payload aad committee threshold rng = .ok (envelope, key)) :
    envelope.aad = aad ∧ envelope.threshold = threshold ∧
      (committee.map CommitteeMember.index).Nodup ∧
      Aead.encrypt key envelope.nonce.toList payload (bytesOf aad) = some envelope.ciphertext ∧
      ∃ shares rng₁ rng₂, Shamir.split key.toList threshold (UInt8.ofNat committee.length) rng₁ =
          .ok (shares, rng₂) ∧ shares.length = committee.length ∧
        ∀ pair ∈ committee.zip shares, ∃ one ∈ envelope.sealedShares.shares, ∃ rng rng',
          sealShare pair.1 pair.2 aad rng = .ok (one, rng') := by
  rw [SealedEnvelope.sealRetainingKey] at h
  split_ifs at h
  split at h
  · cases h
  · next hmembers =>
      simp only at h
      split at h
      · cases h
      · next ciphertext hencrypt =>
          split at h
          · cases h
          · next shares rng₂ hsplit =>
              split_ifs at h with hcount
              obtain ⟨⟨out, hout⟩, hseal, hresult⟩ := bind_eq_ok.mp h
              cases hresult
              exact ⟨rfl, rfl, nodup_of_checkMembers hmembers, hencrypt, shares, _, _, hsplit,
                not_not.mp hcount, sealShares_spec hseal⟩

/-- A key that opens the share at this seat of the committee. -/
structure Holds (committee : List CommitteeMember) (seat : UInt8) (key : CommitteeKey) : Prop where
  paired : ∀ k ∈ key.secrets.keys, k.Paired
  member : ∃ member ∈ committee, member.index = seat ∧ member.keys = key.secrets.publicBundle

omit [Sha256] [Rng] [Kems] [Aead] in
theorem sealedShare_of_mem {one : SealedShare} (h : one ∈ envelope.sealedShares.shares) :
    envelope.sealedShare one.index = some one := by
  have hsome : (envelope.sealedShare one.index).isSome :=
    List.find?_isSome.mpr ⟨one, h, decide_eq_true rfl⟩
  obtain ⟨found, hfound⟩ := Option.isSome_iff_exists.mp hsome
  have hindex : found.index = one.index := by
    have hfound' := hfound
    rw [SealedEnvelope.sealedShare] at hfound'
    simpa using List.find?_some hfound'
  rw [hfound, List.inj_on_of_nodup_map envelope.sealedShares.distinct
    (List.mem_of_find?_eq_some hfound) h hindex]

/-- Distinct seats are given distinct shares. -/
theorem openShares_of_seal (haead : AeadCorrect) {envelope : SealedEnvelope}
    {committee : List CommitteeMember} {shares : List Share}
    (hlength : shares.length = committee.length) (hnodup : (shares.map Share.index).Nodup)
    (hsealed : ∀ pair ∈ committee.zip shares, ∃ one ∈ envelope.sealedShares.shares, ∃ rng rng',
      sealShare pair.1 pair.2 envelope.aad rng = .ok (one, rng')) :
    ∀ {keys : List (UInt8 × CommitteeKey)}, (∀ k ∈ keys, Holds committee k.1 k.2) →
      (keys.map Prod.fst).Nodup → ∃ picked : List (CommitteeMember × Share),
        keys.mapM (fun k => k.2.openShare envelope k.1) = .ok (picked.map Prod.snd) ∧
          (∀ pair ∈ picked, pair ∈ committee.zip shares) ∧
          picked.map (fun pair => pair.1.index) = keys.map Prod.fst
  | [], _, _ => ⟨[], rfl, (fun _ h => nomatch h), rfl⟩
  | (seat, key) :: keys, hkeys, hseats => by
      obtain ⟨hpaired, member, hmember, rfl, hbundle⟩ := hkeys _ List.mem_cons_self
      obtain ⟨picked, hopened, hpicked, hindices⟩ := openShares_of_seal haead hlength hnodup hsealed
        (fun k hk => hkeys k (List.mem_cons_of_mem _ hk)) (List.nodup_cons.mp hseats).2
      rw [← @List.map_fst_zip _ _ committee shares hlength.ge] at hmember
      obtain ⟨⟨_, share⟩, hpair, rfl⟩ := List.mem_map.mp hmember
      obtain ⟨one, hone, rng, rng', hseal⟩ := hsealed _ hpair
      have hfind := sealedShare_of_mem hone
      rw [index_of_sealShare hseal] at hfind
      have hshare := openShare_of_sealShare haead hpaired hbundle hseal hfind
      refine ⟨_ :: picked, ?_, fun pair hmem => ?_, congrArg (_ :: ·) hindices⟩
      · rw [List.mapM_cons]
        exact bind_eq_ok.mpr ⟨_, hshare, bind_eq_ok.mpr ⟨_, hopened, rfl⟩⟩
      · rcases List.mem_cons.mp hmem with rfl | hmem
        · exact hpair
        · exact hpicked pair hmem

/-- What is sealed opens for a threshold of distinct seats. -/
theorem openWithShares_of_seal (haead : AeadCorrect) {payload : List UInt8} {threshold : UInt8}
    (h : SealedEnvelope.sealPayload payload aad committee threshold rng = .ok envelope)
    {keys : List (UInt8 × CommitteeKey)} (hkeys : ∀ k ∈ keys, Holds committee k.1 k.2)
    (hseats : (keys.map Prod.fst).Nodup) (henough : threshold.toNat ≤ keys.length) :
    ∃ shares, keys.mapM (fun k => k.2.openShare envelope k.1) = .ok shares ∧
      envelope.openWithShares shares = .ok payload := by
  obtain ⟨⟨_, contentKey⟩, hseal, rfl⟩ := map_eq_ok.mp h
  obtain ⟨rfl, -, -, hencrypt, shares, rng₁, rng₂, hsplit, hlength, hsealed⟩ :=
    sealRetainingKey_eq_ok hseal
  obtain ⟨hsecret, hpos, -, hnodup, rows, hrows, hrow, hshares⟩ := Shamir.split_eq_ok hsplit
  have hpos' : threshold.toNat ≠ 0 := fun h => hpos (UInt8.toNat_inj.mp h)
  obtain ⟨picked, hopened, hpicked, hindices⟩ :=
    openShares_of_seal haead hlength hnodup hsealed hkeys hseats
  have hpoints : ((picked.map Prod.snd).map Share.index).Nodup := by
    rw [List.map_map]
    refine List.Nodup.map_on (fun a ha b hb hab => ?_)
      (List.Nodup.of_map (fun pair => pair.1.index) (hindices ▸ hseats))
    refine List.inj_on_of_nodup_map (f := fun pair => pair.2.index) ?_ (hpicked a ha) (hpicked b hb)
      hab
    have hmap : (committee.zip shares).map (fun pair => pair.2.index) = shares.map Share.index := by
      rw [← @List.map_snd_zip _ _ committee shares hlength.le, List.map_map,
        List.map_snd_zip hlength.le]
      rfl
    rwa [hmap]
  have hcount : picked.length = keys.length := by
    have := congrArg List.length hindices
    rwa [List.length_map, List.length_map] at this
  have hcombine : Shamir.combine (picked.map Prod.snd) = .ok contentKey.toList := by
    refine Shamir.combine_of_isShareOf hsecret hrows hrow (fun share hshare => ?_) hpoints ?_ hpos'
    · obtain ⟨pair, hpair, rfl⟩ := List.mem_map.mp hshare
      exact hshares pair.2 (List.of_mem_zip (hpicked pair hpair)).2
    · rwa [List.length_map, hcount]
  refine ⟨_, hopened, bind_eq_ok.mpr ⟨(), ensure_eq_ok.mpr ?_, ?_⟩⟩
  · intro hnil
    have := congrArg List.length hnil
    rw [List.length_map, List.length_nil, hcount] at this
    omega
  · refine bind_eq_ok.mpr ⟨_, mapError_eq_ok.mpr hcombine, ?_⟩
    rw [dif_pos (show contentKey.toList.length = KEY_LEN from Vector.length_toList), okOr_eq_ok]
    exact haead _ _ _ _ _ (by simpa [Vector.toList] using hencrypt)

end Keys

end Cairn.Ports.Crypto
