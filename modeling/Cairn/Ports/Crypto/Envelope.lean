import Cairn.Ports.P2p.Handshake
import Cairn.Ports.P2p.Wire
import Cairn.Ports.Records.Stake
import Cairn.Verified.Items

/-!
# Sealed envelopes on the wire

The codec of `SealedEnvelope` in `src/crypto/envelope.rs`, and the encapsulation
it carries, of `src/crypto/kem.rs`. A decoder checks what sealing would have
produced, so a decoded envelope has shares at distinct seats, a threshold they
can meet and legs in suite order; the types say so. It does not look at fields
it does not know.
-/

namespace Cairn.Ports.Crypto

open Cairn.Verified
open Cairn.Ports.Canonical

/-! ## Encapsulations -/

/-- Which scheme one leg of a bundle belongs to. -/
inductive Suite where
  | mcEliece
  | mlKem768
  | hqc128
deriving DecidableEq

inductive KemError where
  | wrongLength (suite : Suite) (what : String) (expected got : Nat)
  | unknownSuite (name : String)
  | mcElieceRequired
  | duplicateSuite (suite : Suite)
  | legMismatch
  | empty
deriving DecidableEq

namespace Suite

/-- `SUITES`, in bundle order. -/
def all : List Suite := [.mcEliece, .mlKem768, .hqc128]

/-- The derived order: the order of declaration. -/
def rank : Suite → Nat
  | .mcEliece => 0
  | .mlKem768 => 1
  | .hqc128 => 2

def asStr : Suite → String
  | .mcEliece => "mceliece348864"
  | .mlKem768 => "ml-kem-768"
  | .hqc128 => "hqc-128"

def parse (name : String) : Except KemError Suite :=
  okOr (.unknownSuite name) (all.find? fun suite => suite.asStr = name)

def ciphertextLen : Suite → Nat
  | .mcEliece => 96
  | .mlKem768 => 1088
  | .hqc128 => 4433

def isMandatory (suite : Suite) : Bool := suite = .mcEliece

@[simp] theorem parse_asStr (suite : Suite) : parse suite.asStr = .ok suite := by
  cases suite <;> rfl

theorem asStr_of_parse {name : String} {suite : Suite} (h : parse name = .ok suite) :
    suite.asStr = name := by
  unfold parse at h
  rw [okOr_eq_ok] at h
  simpa using List.find?_some h

end Suite

/-- One suite's ciphertext. -/
structure Leg where
  suite : Suite
  ciphertext : List UInt8
deriving DecidableEq

/-- The windows of `Encapsulated::new`: suites ascend. -/
def checkOrder : List Leg → Except KemError Unit
  | leg :: next :: rest =>
    if leg.suite = next.suite then .error (.duplicateSuite leg.suite)
    else if leg.suite.rank > next.suite.rank then .error .legMismatch
    else checkOrder (next :: rest)
  | _ => .ok ()

def checkLengths : List Leg → Except KemError Unit
  | [] => .ok ()
  | leg :: rest =>
    if leg.ciphertext.length ≠ leg.suite.ciphertextLen then
      .error (.wrongLength leg.suite "ciphertext" leg.suite.ciphertextLen leg.ciphertext.length)
    else checkLengths rest

def checkLegs (legs : List Leg) : Except KemError Unit := do
  if legs = [] then throw .empty
  checkOrder legs
  checkLengths legs
  if !legs.any fun leg => leg.suite.isMandatory then throw .mcElieceRequired

/-- What a sender transmits: one ciphertext per leg. The field is private in the
source and its constructor checks it. -/
structure Encapsulated where
  legs : List Leg
  checked : checkLegs legs = .ok ()

namespace Encapsulated

def new (legs : List Leg) : Except KemError Encapsulated :=
  match h : checkLegs legs with
  | .ok () => .ok ⟨legs, h⟩
  | .error error => .error error

theorem new_legs (e : Encapsulated) : new e.legs = .ok e := by
  unfold new
  split
  · rfl
  · rename_i error h
    rw [e.checked] at h
    cases h

theorem legs_of_new {legs : List Leg} {e : Encapsulated} (h : new legs = .ok e) :
    e.legs = legs := by
  unfold new at h
  split at h
  · cases h
    rfl
  · cases h

end Encapsulated

/-! ## Fields -/

def KEY_LEN : Nat := 32

def NONCE_LEN : Nat := 12

/-- Shamir indexes are bytes other than zero. -/
def MAX_COMMITTEE : Nat := 255

abbrev AeadNonce := Vector UInt8 NONCE_LEN

inductive EnvelopeError where
  | emptyCommittee
  | committeeTooLarge (size : Nat)
  | invalidThreshold (threshold : UInt8) (committee : Nat)
  | duplicateMemberIndex (index : UInt8)
  | duplicateMemberKey (index : UInt8)
  | kem (error : KemError)
  | shareCountMismatch (shares committee : Nat)
  | shamir (why : String)
  | encrypt (context : String)
  | authentication (context : String)
  | unknownShare (index : UInt8)
  | malformedShare (index : UInt8)
  | contentKeyLength (actual : Nat)
  | noShares
  | notAnObject
  | missingField (field : String)
  | invalidField (field expected : String)
  | invalidHex (field : String)
  | wrongLength (field : String) (expected actual : Nat)
  | duplicateShareIndex (index : UInt8)
  | unsupportedVersion (version : I128)
deriving DecidableEq

def RECORD_TYPE : String := "sealed_envelope"

def VERSION : I128 := ⟨2, by decide⟩

def fieldStr (value : Value) (field : String) : Except EnvelopeError String := do
  let v ← okOr (.missingField field) (value.get field)
  okOr (.invalidField field "a string") v.asStr

def fieldHex (value : Value) (field : String) : Except EnvelopeError (List UInt8) := do
  let text ← fieldStr value field
  okOr (.invalidHex field) (decodeHex text)

theorem size_toArray_of_length {bytes : List UInt8} {size : Nat} (h : bytes.length = size) :
    bytes.toArray.size = size := by
  simpa using h

def fieldHexFixed (value : Value) (field : String) (size : Nat) :
    Except EnvelopeError (Vector UInt8 size) := do
  let bytes ← fieldHex value field
  if h : bytes.length = size then return ⟨bytes.toArray, size_toArray_of_length h⟩
  else throw (.wrongLength field size bytes.length)

def fieldU8 (value : Value) (field : String) : Except EnvelopeError UInt8 := do
  let v ← okOr (.missingField field) (value.get field)
  let raw ← okOr (.invalidField field "an integer") v.asI128
  if 0 ≤ raw.val ∧ raw.val < 256 then return UInt8.ofNat raw.val.toNat
  else throw (.invalidField field "an integer in 0..=255")

/-- Bytes as a text value. -/
def hexValue (bytes : List UInt8) : Value := .string (String.ofList (hexEncode bytes))

/-! ## Shares -/

/-- One member's share, sealed to their key bundle. -/
structure SealedShare where
  index : UInt8
  encapsulated : Encapsulated
  nonce : AeadNonce
  ciphertext : List UInt8

def Leg.toValue (leg : Leg) : Value :=
  .object [("suite", .string leg.suite.asStr), ("ciphertext", hexValue leg.ciphertext)]

def Leg.fromValue (item : Value) : Except EnvelopeError Leg := do
  if item.asObject.isNone then throw .notAnObject
  let name ← fieldStr item "suite"
  let suite ← (Suite.parse name).mapError .kem
  let ciphertext ← fieldHex item "ciphertext"
  return { suite, ciphertext }

namespace SealedShare

def toValue (share : SealedShare) : Value :=
  .object [("index", u64Value share.index.toUInt64),
    ("kem", .array (share.encapsulated.legs.map Leg.toValue)),
    ("nonce", hexValue share.nonce.toList), ("ciphertext", hexValue share.ciphertext)]

/-- A list field. -/
def arrayField (value : Value) (field : String) : Except EnvelopeError (List Value) := do
  let v ← okOr (.missingField field) (value.get field)
  okOr (.invalidField field "an array") v.asArray

def fromValue (value : Value) : Except EnvelopeError SealedShare := do
  if value.asObject.isNone then throw .notAnObject
  let raw ← arrayField value "kem"
  let legs ← raw.mapM Leg.fromValue
  let encapsulated ← (Encapsulated.new legs).mapError .kem
  let index ← fieldU8 value "index"
  let nonce ← fieldHexFixed value "nonce" NONCE_LEN
  let ciphertext ← fieldHex value "ciphertext"
  return { index, encapsulated, nonce, ciphertext }

end SealedShare

/-- Sealed shares at distinct seats. -/
structure ShareList where
  shares : List SealedShare
  distinct : (shares.map SealedShare.index).Nodup

namespace ShareList

/-- Append a share at a seat that is free. -/
def push (list : ShareList) (share : SealedShare) : Except EnvelopeError ShareList :=
  if h : share.index ∈ list.shares.map SealedShare.index then
    .error (.duplicateShareIndex share.index)
  else
    .ok ⟨list.shares ++ [share], by
      rw [List.map_append, List.map_singleton, ← List.concat_eq_append]
      exact list.distinct.concat h⟩

/-- The loop over the shares of an envelope. -/
def fromItems (list : ShareList) : List Value → Except EnvelopeError ShareList
  | [] => .ok list
  | item :: items => do
      let share ← SealedShare.fromValue item
      let list ← list.push share
      fromItems list items

end ShareList

/-! ## Envelopes -/

/-- An artifact sealed to a threshold committee. The fields are private in the
source, and sealing and decoding check them. -/
structure SealedEnvelope where
  threshold : UInt8
  nonce : AeadNonce
  ciphertext : List UInt8
  sealedShares : ShareList
  aad : String
  threshold_pos : threshold ≠ 0
  threshold_le : threshold.toNat ≤ sealedShares.shares.length

namespace SealedEnvelope

def sealedShare (e : SealedEnvelope) (index : UInt8) : Option SealedShare :=
  e.sealedShares.shares.find? fun share => share.index = index

def toValue (e : SealedEnvelope) : Value :=
  .object [("type", .string RECORD_TYPE), ("version", .int VERSION),
    ("threshold", u64Value e.threshold.toUInt64), ("nonce", hexValue e.nonce.toList),
    ("ciphertext", hexValue e.ciphertext), ("aad", .string e.aad),
    ("sealed_shares", .array (e.sealedShares.shares.map SealedShare.toValue))]

def fromValue (value : Value) : Except EnvelopeError SealedEnvelope := do
  ensure value.asObject.isSome .notAnObject
  let tag ← okOr (.missingField "type") (value.get "type")
  ensure (tag.asStr = some RECORD_TYPE) (.invalidField "type" "\"sealed_envelope\"")
  let raw ← okOr (.missingField "version") (value.get "version")
  let version ← okOr (.invalidField "version" "an integer") raw.asI128
  ensure (version = VERSION) (.unsupportedVersion version)
  let threshold ← fieldU8 value "threshold"
  let nonce ← fieldHexFixed value "nonce" NONCE_LEN
  let ciphertext ← fieldHex value "ciphertext"
  let aad ← fieldStr value "aad"
  let items ← SealedShare.arrayField value "sealed_shares"
  let sealedShares ← ShareList.fromItems ⟨[], List.nodup_nil⟩ items
  ensure (sealedShares.shares ≠ []) .emptyCommittee
  if h : threshold ≠ 0 ∧ threshold.toNat ≤ sealedShares.shares.length then
    return { threshold, nonce, ciphertext, sealedShares, aad, threshold_pos := h.1,
             threshold_le := h.2 }
  else throw (.invalidThreshold threshold sealedShares.shares.length)

/-- Content address of the envelope. -/
def digest [Sha256] (e : SealedEnvelope) : String := e.toValue.digest

end SealedEnvelope

/-! ## The texts of the errors -/

section Texts

variable [Wire.DebugText]

def KemError.text : KemError → String
  | .wrongLength suite what expected got =>
    suite.asStr ++ " " ++ what ++ " must be " ++ toString expected ++ " bytes, got " ++
      toString got
  | .unknownSuite name => "unknown KEM suite " ++ Wire.DebugText.quoted name
  | .mcElieceRequired =>
    "a key bundle must carry a Classic McEliece key; it is the leg the hybrid's security " ++
      "rests on"
  | .duplicateSuite suite => "key bundle carries two " ++ suite.asStr ++ " keys"
  | .legMismatch => "encapsulation legs do not correspond to the bundle's keys"
  | .empty => "key bundle is empty"

def EnvelopeError.text : EnvelopeError → String
  | .emptyCommittee => "committee must have at least one member"
  | .committeeTooLarge size =>
    "committee of " ++ toString size ++ " exceeds the " ++ toString MAX_COMMITTEE ++
      " addressable shares"
  | .invalidThreshold threshold committee =>
    "threshold " ++ toString threshold ++ " must be in 1..=" ++ toString committee ++
      " for this committee"
  | .duplicateMemberIndex index => "duplicate committee member index " ++ toString index
  | .duplicateMemberKey index =>
    "committee member " ++ toString index ++ " reuses another member's public key; one " ++
      "entity would hold two shares"
  | .kem error => "key encapsulation: " ++ error.text
  | .shareCountMismatch shares committee =>
    "share splitter returned " ++ toString shares ++ " shares for " ++ toString committee ++
      " members"
  | .shamir why => "secret sharing failed: " ++ why
  | .encrypt context => context ++ ": AEAD encryption failed"
  | .authentication context => context ++ ": AEAD authentication failed"
  | .unknownShare index => "envelope carries no sealed share for index " ++ toString index
  | .malformedShare index => "sealed share " ++ toString index ++ " decrypted to an empty plaintext"
  | .contentKeyLength actual =>
    "reconstructed secret is " ++ toString actual ++ " bytes, expected " ++ toString KEY_LEN
  | .noShares => "no shares supplied"
  | .notAnObject => "sealed envelope must be an object"
  | .missingField field => "missing required field \"" ++ field ++ "\""
  | .invalidField field expected => "field \"" ++ field ++ "\" must be " ++ expected
  | .invalidHex field => "field \"" ++ field ++ "\" must be lowercase hex of even length"
  | .wrongLength field expected actual =>
    "field \"" ++ field ++ "\" must decode to " ++ toString expected ++ " bytes, got " ++
      toString actual
  | .duplicateShareIndex index => "duplicate sealed share index " ++ toString index
  | .unsupportedVersion version =>
    "unsupported sealed envelope version " ++ toString version.val

/-- The envelopes of a record, with the opening of a submission as it is given. -/
@[reducible] def envelopes
    (openSealed : (objectiveId submitter commitment : String) → SealedEnvelope →
      (epoch : UInt64) → (createdAt : String) → List Share → Option OpenedSubmission) :
    Envelopes where
  Envelope := SealedEnvelope
  toValue := SealedEnvelope.toValue
  fromValue value := (SealedEnvelope.fromValue value).mapError EnvelopeError.text
  threshold := SealedEnvelope.threshold
  shareIndices e := e.sealedShares.shares.map SealedShare.index
  openSealed := openSealed

end Texts

/-! ## Hexadecimal, both ways -/

theorem nibble_digitChar : ∀ n < 16, nibble (Nat.digitChar n) = some (UInt8.ofNat n) := by
  decide

theorem digitChar_of_nibble {c : Char} {n : UInt8} (h : nibble c = some n) :
    n.toNat < 16 ∧ Nat.digitChar n.toNat = c := by
  have hdigits : ∀ k < 10, Nat.digitChar k = Char.ofNat (k + 48) := by decide
  have hletters : ∀ k < 6, Nat.digitChar (k + 10) = Char.ofNat (k + 97) := by decide
  unfold nibble at h
  split_ifs at h with hdigit hletter
  · rw [Char.le_def, Char.le_def, UInt32.le_iff_toNat_le, UInt32.le_iff_toNat_le] at hdigit
    have hlow : 48 ≤ c.toNat := hdigit.1
    have hhigh : c.toNat ≤ 57 := hdigit.2
    cases h
    have hnat : (UInt8.ofNat (c.toNat - 48)).toNat = c.toNat - 48 :=
      UInt8.toNat_ofNat_of_lt' (by simp only [UInt8.size]; omega)
    rw [hnat]
    refine ⟨by omega, ?_⟩
    rw [hdigits _ (by omega), Nat.sub_add_cancel hlow, Char.ofNat_toNat]
  · rw [Char.le_def, Char.le_def, UInt32.le_iff_toNat_le, UInt32.le_iff_toNat_le] at hletter
    have hlow : 97 ≤ c.toNat := hletter.1
    have hhigh : c.toNat ≤ 102 := hletter.2
    cases h
    have hnat : (UInt8.ofNat (c.toNat - 87)).toNat = c.toNat - 87 :=
      UInt8.toNat_ofNat_of_lt' (by simp only [UInt8.size]; omega)
    rw [hnat]
    refine ⟨by omega, ?_⟩
    have hsplit : c.toNat - 87 = c.toNat - 97 + 10 := by omega
    rw [hsplit, hletters _ (by omega), Nat.sub_add_cancel hlow, Char.ofNat_toNat]

/-- The two halves of a byte. -/
theorem byte_halves : ∀ high < 16, ∀ low < 16,
    (UInt8.ofNat high <<< 4 ||| UInt8.ofNat low).toNat = high * 16 + low := by
  decide

theorem decodeHexChars_hexEncode (bytes : List UInt8) :
    decodeHexChars (hexEncode bytes) = some bytes := by
  induction bytes with
  | nil => rfl
  | cons b bytes ih =>
    have hlt := b.toNat_lt
    have hcons : hexEncode (b :: bytes) =
        Nat.digitChar (b.toNat / 16) :: Nat.digitChar (b.toNat % 16) :: hexEncode bytes := rfl
    have hbyte : UInt8.ofNat (b.toNat / 16) <<< 4 ||| UInt8.ofNat (b.toNat % 16) = b := by
      rw [← UInt8.toNat_inj, byte_halves _ (by omega) _ (Nat.mod_lt _ (by omega))]
      omega
    rw [hcons, decodeHexChars, nibble_digitChar _ (by omega),
      nibble_digitChar _ (Nat.mod_lt _ (by omega)), ih]
    simp only [bind, Option.bind_some, pure, hbyte]

theorem hexEncode_of_decodeHexChars {chars : List Char} {bytes : List UInt8}
    (h : decodeHexChars chars = some bytes) : hexEncode bytes = chars := by
  induction chars using decodeHexChars.induct generalizing bytes with
  | case1 =>
    cases h
    rfl
  | case2 c => cases h
  | case3 c d rest ih =>
    simp only [decodeHexChars, bind, Option.bind_eq_some_iff, pure, Option.some.injEq] at h
    obtain ⟨high, hhigh, low, hlow, tail, htail, rfl⟩ := h
    obtain ⟨hhighlt, rfl⟩ := digitChar_of_nibble hhigh
    obtain ⟨hlowlt, rfl⟩ := digitChar_of_nibble hlow
    have hbyte : (high <<< 4 ||| low).toNat = high.toNat * 16 + low.toNat := by
      have hhalves := byte_halves high.toNat hhighlt low.toNat hlowlt
      rwa [UInt8.ofNat_toNat, UInt8.ofNat_toNat] at hhalves
    have hcons : hexEncode ((high <<< 4 ||| low) :: tail) =
        Nat.digitChar ((high <<< 4 ||| low).toNat / 16) ::
          Nat.digitChar ((high <<< 4 ||| low).toNat % 16) :: hexEncode tail := rfl
    have hdiv : (high.toNat * 16 + low.toNat) / 16 = high.toNat := by omega
    have hmod : (high.toNat * 16 + low.toNat) % 16 = low.toNat := by omega
    rw [hcons, hbyte, hdiv, hmod, ih htail]

/-- A text decodes to these bytes exactly if it is what they are written as. -/
theorem decodeHex_eq_some_iff {text : String} {bytes : List UInt8} :
    decodeHex text = some bytes ↔ text = String.ofList (hexEncode bytes) := by
  constructor
  · intro h
    rw [hexEncode_of_decodeHexChars h, String.ofList_toList]
  · rintro rfl
    rw [decodeHex, String.toList_ofList, decodeHexChars_hexEncode]

/-! ## What the field readers accept -/

section Fields

variable {value : Value} {field : String}

theorem asStr_eq_some_iff {v : Value} {text : String} :
    v.asStr = some text ↔ v = .string text := by
  constructor
  · intro h
    unfold Value.asStr at h
    split at h
    · rename_i s hview
      cases h
      rw [← Value.ofView_view v, hview]
      rfl
    · cases h
  · rintro rfl
    rfl

theorem asArray_eq_some_iff {v : Value} {items : List Value} :
    v.asArray = some items ↔ v = .array items := by
  constructor
  · intro h
    unfold Value.asArray at h
    split at h
    · rename_i xs hview
      cases h
      rw [← Value.ofView_view v, hview]
      rfl
    · cases h
  · rintro rfl
    exact Value.asArray_array items

theorem array_injective {items items' : List Value} (h : Value.array items = .array items') :
    items = items' := by
  have hread := congrArg Value.asArray h
  rw [Value.asArray_array, Value.asArray_array] at hread
  exact Option.some.inj hread

theorem asI128_eq_some_iff {v : Value} {n : I128} : v.asI128 = some n ↔ v = .int n := by
  constructor
  · intro h
    unfold Value.asI128 at h
    split at h
    · rename_i i hview
      cases h
      rw [← Value.ofView_view v, hview]
      rfl
    · cases h
  · rintro rfl
    rfl

theorem asObject_eq_some_iff {v : Value} {map : BTreeMap String Value} :
    v.asObject = some map ↔ v = .objectOf map := by
  constructor
  · intro h
    unfold Value.asObject at h
    split at h
    · rename_i m hview
      cases h
      rw [← Value.ofView_view v, hview]
      rfl
    · cases h
  · rintro rfl
    rw [Value.asObject, Value.view_objectOf]

theorem fieldStr_eq_ok_iff {text : String} :
    fieldStr value field = .ok text ↔ value.get field = some (.string text) := by
  unfold fieldStr
  simp only [bind_eq_ok, okOr_eq_ok, asStr_eq_some_iff]
  constructor
  · rintro ⟨v, hget, rfl⟩
    exact hget
  · exact fun hget => ⟨_, hget, rfl⟩

theorem fieldHex_eq_ok_iff {bytes : List UInt8} :
    fieldHex value field = .ok bytes ↔ value.get field = some (hexValue bytes) := by
  unfold fieldHex hexValue
  simp only [bind_eq_ok, okOr_eq_ok, fieldStr_eq_ok_iff, decodeHex_eq_some_iff]
  constructor
  · rintro ⟨text, hget, rfl⟩
    exact hget
  · exact fun hget => ⟨_, hget, rfl⟩

theorem fieldHexFixed_eq_ok_iff {size : Nat} {bytes : Vector UInt8 size} :
    fieldHexFixed value field size = .ok bytes ↔
      value.get field = some (hexValue bytes.toList) := by
  unfold fieldHexFixed
  simp only [bind_eq_ok, fieldHex_eq_ok_iff]
  constructor
  · rintro ⟨read, hget, h⟩
    split_ifs at h with hsize
    cases h
    exact hget
  · intro hget
    refine ⟨_, hget, ?_⟩
    rw [dif_pos (Vector.length_toList)]
    refine congrArg Except.ok ?_
    simp [Vector.toList]

theorem fieldU8_eq_ok_iff {n : UInt8} :
    fieldU8 value field = .ok n ↔ value.get field = some (u64Value n.toUInt64) := by
  have hlt := n.toNat_lt
  unfold fieldU8
  simp only [bind_eq_ok, okOr_eq_ok, asI128_eq_some_iff]
  constructor
  · rintro ⟨v, hget, raw, rfl, h⟩
    split_ifs at h with hrange
    cases h
    rw [hget]
    refine congrArg (fun i => some (Value.int i)) (Subtype.ext ?_)
    rw [I128.val_ofUInt64, UInt8.toNat_toUInt64, UInt8.toNat_ofNat_of_lt' (by
      simp only [UInt8.size]
      omega)]
    omega
  · intro hget
    refine ⟨_, hget, _, rfl, ?_⟩
    rw [I128.val_ofUInt64, UInt8.toNat_toUInt64, if_pos (by omega), Int.toNat_natCast,
      UInt8.ofNat_toNat]
    rfl

theorem arrayField_eq_ok_iff {items : List Value} :
    SealedShare.arrayField value field = .ok items ↔ value.get field = some (.array items) := by
  unfold SealedShare.arrayField
  simp only [bind_eq_ok, okOr_eq_ok, asArray_eq_some_iff]
  constructor
  · rintro ⟨v, hget, rfl⟩
    exact hget
  · exact fun hget => ⟨_, hget, rfl⟩

end Fields

/-- An object with no fields but these. -/
def OnlyKeys (names : List String) (value : Value) : Prop :=
  ∀ key, (value.get key).isSome → key ∈ names

/-- An object that holds what a record writes is that record exactly if it
holds nothing else. -/
theorem object_eq_iff {value : Value} {pairs : List (String × Value)}
    (hobject : value.asObject.isSome) (hread : ∀ pair ∈ pairs, value.get pair.1 = some pair.2) :
    Value.object pairs = value ↔ OnlyKeys (pairs.map Prod.fst) value := by
  constructor
  · rintro rfl key hsome
    rw [Value.get_object] at hsome
    obtain ⟨v, hv⟩ := Option.isSome_iff_exists.mp hsome
    exact List.mem_map.mpr ⟨(key, v), List.mem_reverse.mp (BTreeMap.lookupEntry_eq_some hv), rfl⟩
  · intro honly
    obtain ⟨map, hmap⟩ := Option.isSome_iff_exists.mp hobject
    obtain rfl := asObject_eq_some_iff.mp hmap
    refine congrArg Value.objectOf (BTreeMap.ext_get? fun key => ?_)
    rw [← Value.get_objectOf map key]
    cases hget : (Value.objectOf map).get key with
    | none =>
      refine Option.eq_none_iff_forall_ne_some.mpr fun v hv => ?_
      have hfound := hread _ (BTreeMap.mem_of_get?_ofList hv)
      rw [hget] at hfound
      cases hfound
    | some v =>
      obtain ⟨pair, hpair, rfl⟩ := List.mem_map.mp (honly key (by rw [hget]; rfl))
      obtain ⟨w, hw⟩ := Option.isSome_iff_exists.mp (BTreeMap.isSome_get?_ofList_of_mem hpair)
      have hfound := hread _ (BTreeMap.mem_of_get?_ofList hw)
      rw [hget] at hfound
      rw [hw, hfound]

/-! ## Decoded, and written again -/

namespace Leg

/-- The fields a leg writes. -/
def KEYS : List String := ["suite", "ciphertext"]

theorem fromValue_eq_ok_iff {item : Value} {leg : Leg} :
    fromValue item = .ok leg ↔ item.asObject.isSome ∧
      item.get "suite" = some (.string leg.suite.asStr) ∧
      item.get "ciphertext" = some (hexValue leg.ciphertext) := by
  unfold fromValue
  cases hobject : item.asObject with
  | none => simp [throw, throwThe, MonadExceptOf.throw, bind, Except.bind]
  | some map =>
    simp only [Option.isNone_some, Bool.false_eq_true, if_false, Option.isSome_some, true_and]
    simp only [bind_eq_ok, fieldStr_eq_ok_iff, mapError_eq_ok, fieldHex_eq_ok_iff]
    constructor
    · rintro ⟨name, hname, suite, hsuite, ciphertext, hciphertext, hleg⟩
      cases hleg
      rw [Suite.asStr_of_parse hsuite]
      exact ⟨hname, hciphertext⟩
    · rintro ⟨hname, hciphertext⟩
      exact ⟨_, hname, _, Suite.parse_asStr _, _, hciphertext, rfl⟩

theorem toValue_eq_iff {item : Value} {leg : Leg} (h : fromValue item = .ok leg) :
    leg.toValue = item ↔ OnlyKeys KEYS item := by
  obtain ⟨hobject, hsuite, hciphertext⟩ := fromValue_eq_ok_iff.mp h
  refine object_eq_iff hobject fun pair hpair => ?_
  simp only [List.mem_cons, List.not_mem_nil, or_false] at hpair
  rcases hpair with rfl | rfl
  · exact hsuite
  · exact hciphertext

@[simp] theorem fromValue_toValue (leg : Leg) : fromValue leg.toValue = .ok leg := by
  rw [fromValue_eq_ok_iff]
  refine ⟨asObject_object _, ?_, ?_⟩
  · simp [toValue, Value.get_object, BTreeMap.lookupEntry]
  · simp [toValue, Value.get_object, BTreeMap.lookupEntry]

end Leg

namespace SealedShare

/-- The fields a share writes. -/
def KEYS : List String := ["index", "kem", "nonce", "ciphertext"]

/-- A share, and in it the legs, with the encoder's fields only. -/
def Bare (value : Value) : Prop :=
  OnlyKeys KEYS value ∧
    ∀ items, value.get "kem" = some (.array items) → ∀ item ∈ items, OnlyKeys Leg.KEYS item

theorem fromValue_eq_ok_iff {value : Value} {share : SealedShare} :
    fromValue value = .ok share ↔ value.asObject.isSome ∧
      (∃ raw, value.get "kem" = some (.array raw) ∧
        raw.mapM Leg.fromValue = .ok share.encapsulated.legs) ∧
      value.get "index" = some (u64Value share.index.toUInt64) ∧
      value.get "nonce" = some (hexValue share.nonce.toList) ∧
      value.get "ciphertext" = some (hexValue share.ciphertext) := by
  unfold fromValue
  cases hobject : value.asObject with
  | none => simp [throw, throwThe, MonadExceptOf.throw, bind, Except.bind]
  | some map =>
    simp only [Option.isNone_some, Bool.false_eq_true, if_false, Option.isSome_some, true_and]
    simp only [bind_eq_ok, arrayField_eq_ok_iff, mapError_eq_ok, fieldU8_eq_ok_iff,
      fieldHexFixed_eq_ok_iff, fieldHex_eq_ok_iff]
    constructor
    · rintro ⟨raw, hraw, legs, hlegs, encapsulated, hnew, index, hindex, nonce, hnonce,
        ciphertext, hciphertext, hshare⟩
      cases hshare
      rw [Encapsulated.legs_of_new hnew]
      exact ⟨⟨raw, hraw, hlegs⟩, hindex, hnonce, hciphertext⟩
    · rintro ⟨⟨raw, hraw, hlegs⟩, hindex, hnonce, hciphertext⟩
      exact ⟨raw, hraw, _, hlegs, _, Encapsulated.new_legs _, _, hindex, _, hnonce, _,
        hciphertext, rfl⟩

theorem toValue_eq_iff {value : Value} {share : SealedShare} (h : fromValue value = .ok share) :
    share.toValue = value ↔ Bare value := by
  obtain ⟨hobject, ⟨raw, hraw, hlegs⟩, hindex, hnonce, hciphertext⟩ := fromValue_eq_ok_iff.mp h
  have hitems := map_eq_iff_of_mapM (fun _ _ => Leg.toValue_eq_iff) hlegs
  have hwhole : raw = share.encapsulated.legs.map Leg.toValue →
      (share.toValue = value ↔ OnlyKeys KEYS value) := by
    rintro rfl
    refine object_eq_iff hobject fun pair hpair => ?_
    simp only [List.mem_cons, List.not_mem_nil, or_false] at hpair
    rcases hpair with rfl | rfl | rfl | rfl
    · exact hindex
    · exact hraw
    · exact hnonce
    · exact hciphertext
  constructor
  · intro heq
    have hkem : value.get "kem" = some (.array (share.encapsulated.legs.map Leg.toValue)) := by
      rw [← heq]
      simp [toValue, Value.get_object, BTreeMap.lookupEntry]
    rw [hraw] at hkem
    have hsame := array_injective (Option.some.inj hkem)
    refine ⟨(hwhole hsame).mp heq, fun items hget => ?_⟩
    rw [hraw] at hget
    obtain rfl := array_injective (Option.some.inj hget)
    exact hitems.mp hsame.symm
  · rintro ⟨honly, hbare⟩
    exact (hwhole (hitems.mpr (hbare raw hraw)).symm).mpr honly

@[simp] theorem fromValue_toValue (share : SealedShare) :
    fromValue share.toValue = .ok share := by
  rw [fromValue_eq_ok_iff]
  refine ⟨asObject_object _, ⟨share.encapsulated.legs.map Leg.toValue, ?_,
    mapM_map_eq_ok fun leg _ => Leg.fromValue_toValue leg⟩, ?_, ?_, ?_⟩
  all_goals simp [toValue, Value.get_object, BTreeMap.lookupEntry]

end SealedShare

namespace ShareList

theorem shares_injective {list list' : ShareList} (h : list.shares = list'.shares) :
    list = list' := by
  cases list
  cases list'
  cases h
  rfl

/-- The loop reads every item, and refuses a seat twice. -/
theorem fromItems_eq_ok_iff {list out : ShareList} {items : List Value} :
    fromItems list items = .ok out ↔
      ∃ shares, items.mapM SealedShare.fromValue = .ok shares ∧
        out.shares = list.shares ++ shares := by
  induction items generalizing list with
  | nil =>
    rw [fromItems, List.mapM_nil]
    constructor
    · intro h
      cases h
      exact ⟨[], rfl, (List.append_nil _).symm⟩
    · rintro ⟨shares, hshares, hout⟩
      cases hshares
      rw [List.append_nil] at hout
      rw [shares_injective hout]
  | cons item items ih =>
    rw [fromItems, List.mapM_cons]
    simp only [bind_eq_ok, ih]
    constructor
    · rintro ⟨share, hshare, next, hnext, shares, hshares, hout⟩
      refine ⟨share :: shares, ⟨share, hshare, shares, hshares, rfl⟩, ?_⟩
      unfold push at hnext
      split_ifs at hnext
      cases hnext
      rw [hout, List.append_assoc, List.singleton_append]
    · rintro ⟨_, ⟨share, hshare, shares, hshares, hcons⟩, hout⟩
      cases hcons
      -- A seat that is taken would be in the list twice.
      have hfree : share.index ∉ list.shares.map SealedShare.index := by
        have hdistinct := out.distinct
        rw [hout, List.map_append, List.map_cons] at hdistinct
        intro hmem
        exact (List.nodup_append.mp hdistinct).2.2 _ hmem _ (by simp) rfl
      refine ⟨share, hshare, _, dif_neg hfree, shares, hshares, ?_⟩
      rw [hout, List.append_assoc, List.singleton_append]

end ShareList

namespace SealedEnvelope

/-- The fields an envelope writes. -/
def KEYS : List String :=
  ["type", "version", "threshold", "nonce", "ciphertext", "aad", "sealed_shares"]

/-- An envelope, and in it the shares and their legs, with the encoder's fields
only. -/
def Bare (value : Value) : Prop :=
  OnlyKeys KEYS value ∧
    ∀ items, value.get "sealed_shares" = some (.array items) → ∀ item ∈ items, SealedShare.Bare item

theorem fromValue_eq_ok_iff {value : Value} {e : SealedEnvelope} :
    fromValue value = .ok e ↔ value.asObject.isSome ∧
      value.get "type" = some (.string RECORD_TYPE) ∧
      value.get "version" = some (.int VERSION) ∧
      value.get "threshold" = some (u64Value e.threshold.toUInt64) ∧
      value.get "nonce" = some (hexValue e.nonce.toList) ∧
      value.get "ciphertext" = some (hexValue e.ciphertext) ∧
      value.get "aad" = some (.string e.aad) ∧
      ∃ items, value.get "sealed_shares" = some (.array items) ∧
        items.mapM SealedShare.fromValue = .ok e.sealedShares.shares := by
  unfold fromValue
  simp only [bind_eq_ok, ensure_eq_ok, okOr_eq_ok, asStr_eq_some_iff, asI128_eq_some_iff,
    fieldU8_eq_ok_iff, fieldHexFixed_eq_ok_iff, fieldHex_eq_ok_iff, fieldStr_eq_ok_iff,
    arrayField_eq_ok_iff, ShareList.fromItems_eq_ok_iff, List.nil_append]
  constructor
  · rintro ⟨_, hobject, _, htag, _, rfl, _, hversion, _, rfl, _, rfl, threshold, hthreshold, nonce,
      hnonce, ciphertext, hciphertext, aad, haad, items, hitems, list, ⟨shares, hshares, hlist⟩, _,
      -, h⟩
    split_ifs at h
    cases h
    rw [← hlist] at hshares
    exact ⟨hobject, htag, hversion, hthreshold, hnonce, hciphertext, haad, items, hitems, hshares⟩
  · rintro ⟨hobject, htag, hversion, hthreshold, hnonce, hciphertext, haad, items, hitems, hshares⟩
    have hpos : e.threshold.toNat ≠ 0 := fun h => e.threshold_pos (UInt8.toNat_inj.mp h)
    have hle := e.threshold_le
    refine ⟨(), hobject, _, htag, (), rfl, _, hversion, _, rfl, (), rfl, _, hthreshold, _, hnonce, _,
      hciphertext, _, haad, items, hitems, e.sealedShares, ⟨_, hshares, rfl⟩, (), ?_, ?_⟩
    · intro hnil
      rw [hnil, List.length_nil] at hle
      omega
    · rw [dif_pos ⟨e.threshold_pos, hle⟩]
      rfl

/-- What was read is written back as it was exactly if it has no fields but the
encoder's. -/
theorem toValue_eq_iff {value : Value} {e : SealedEnvelope} (h : fromValue value = .ok e) :
    e.toValue = value ↔ Bare value := by
  obtain ⟨hobject, htag, hversion, hthreshold, hnonce, hciphertext, haad, raw, hraw, hshares⟩ :=
    fromValue_eq_ok_iff.mp h
  have hitems := map_eq_iff_of_mapM (fun _ _ => SealedShare.toValue_eq_iff) hshares
  have hwhole : raw = e.sealedShares.shares.map SealedShare.toValue →
      (e.toValue = value ↔ OnlyKeys KEYS value) := by
    rintro rfl
    refine object_eq_iff hobject fun pair hpair => ?_
    simp only [List.mem_cons, List.not_mem_nil, or_false] at hpair
    rcases hpair with rfl | rfl | rfl | rfl | rfl | rfl | rfl
    · exact htag
    · exact hversion
    · exact hthreshold
    · exact hnonce
    · exact hciphertext
    · exact haad
    · exact hraw
  constructor
  · intro heq
    have hget : value.get "sealed_shares" =
        some (.array (e.sealedShares.shares.map SealedShare.toValue)) := by
      rw [← heq]
      simp [toValue, Value.get_object, BTreeMap.lookupEntry]
    rw [hraw] at hget
    have hsame := array_injective (Option.some.inj hget)
    refine ⟨(hwhole hsame).mp heq, fun items hitemsget => ?_⟩
    rw [hraw] at hitemsget
    obtain rfl := array_injective (Option.some.inj hitemsget)
    exact hitems.mp hsame.symm
  · rintro ⟨honly, hbare⟩
    exact (hwhole (hitems.mpr (hbare raw hraw)).symm).mpr honly

/-- An envelope is read back. -/
theorem fromValue_toValue (e : SealedEnvelope) : fromValue e.toValue = .ok e := by
  rw [fromValue_eq_ok_iff]
  refine ⟨asObject_object _, ?_, ?_, ?_, ?_, ?_, ?_, e.sealedShares.shares.map SealedShare.toValue,
    ?_, mapM_map_eq_ok fun share _ => SealedShare.fromValue_toValue share⟩
  all_goals simp [toValue, Value.get_object, BTreeMap.lookupEntry]

end SealedEnvelope

end Cairn.Ports.Crypto
