import Cairn.Ports.Canonical.Measure
import Cairn.Ports.Sync.Encode

/-!
# Signed records on the wire

`SignedRecord::to_value` and `from_value` of `src/crypto/identity.rs`, and the
record a peer signs in `src/p2p/swarm/discovery.rs`. Any value can be signed, so
the record is taken as it is; the key and the signature travel in hexadecimal.
-/

namespace Cairn.Ports.Swarm

open Cairn.Verified Cairn.Ports.Canonical
open Cairn.Ports.Sync (depth_object_le depth_array_map_le)

def RECORD_TYPE : String := "signed_record"

def VERSION : Int := 1

def KEY_LEN : Nat := 32

def SIG_LEN : Nat := 64

inductive IdentityError where
  | notAnObject
  | missingField (field : String)
  | invalidField (field expected : String)
  | unsupportedVersion (version : Int)
  | wrongLength (field : String) (expected actual : Nat)
  | invalidHex (field : String)
deriving DecidableEq

/-! ## Hexadecimal of a fixed length -/

/-- `hex_value`: lowercase only. -/
def hexValue (c : Char) : Option Nat :=
  if c.isDigit then some (c.toNat - 48)
  else if 'a' ≤ c ∧ c ≤ 'f' then some (c.toNat - 87)
  else none

/-- The bytes that pairs of digits spell, high digit first. -/
def hexBytes : List Char → Option (List UInt8)
  | [] => some []
  | [_] => none
  | high :: low :: rest => do
      let high ← hexValue high
      let low ← hexValue low
      let bytes ← hexBytes rest
      some (UInt8.ofNat (16 * high + low) :: bytes)

def hexFixed (n : Nat) (text field : String) : Except IdentityError (Vector UInt8 n) :=
  if text.utf8ByteSize ≠ n * 2 then .error (.wrongLength field n (text.utf8ByteSize / 2))
  else
    match hexBytes text.toList with
    | none => .error (.invalidHex field)
    | some bytes =>
      if h : bytes.length = n then .ok ⟨bytes.toArray, h⟩ else .error (.invalidHex field)

theorem hexValue_digitChar {n : Nat} (h : n < 16) : hexValue (Nat.digitChar n) = some n := by
  interval_cases n <;> decide

theorem hexBytes_hexEncode (bytes : List UInt8) : hexBytes (hexEncode bytes) = some bytes := by
  induction bytes with
  | nil => rfl
  | cons byte bytes ih =>
    have hlt := byte.toNat_lt
    have hhigh : hexValue (Nat.digitChar (byte.toNat / 16)) = some (byte.toNat / 16) :=
      hexValue_digitChar (by omega)
    have hlow : hexValue (Nat.digitChar (byte.toNat % 16)) = some (byte.toNat % 16) :=
      hexValue_digitChar (Nat.mod_lt _ (by decide))
    show hexBytes (_ :: _ :: hexEncode bytes) = _
    rw [hexBytes, hhigh, hlow, ih]
    simp only [Option.bind_eq_bind, Option.bind_some, Nat.div_add_mod, UInt8.ofNat_toNat]

/-- The text of so many bytes. -/
def hexText {n : Nat} (bytes : Vector UInt8 n) : String := String.ofList (hexEncode bytes.toList)

theorem plain_hexText {n : Nat} (bytes : Vector UInt8 n) :
    ∀ c ∈ (hexText bytes).toList, Plain c := by
  intro c hc
  rw [hexText, String.toList_ofList] at hc
  exact plain_of_isHexDigit (isHexDigit_of_mem_hexEncode hc)

theorem length_hexText {n : Nat} (bytes : Vector UInt8 n) :
    (hexText bytes).toList.length = n * 2 := by
  rw [hexText, String.toList_ofList, length_hexEncode, Vector.length_toList, Nat.mul_comm]

/-- The bytes of a text in which every character is one byte. -/
theorem utf8ByteSize_plain {s : String} (h : ∀ c ∈ s.toList, Plain c) :
    s.utf8ByteSize = s.toList.length := by
  have hlength : ∀ text : List Char, (∀ c ∈ text, Plain c) → utf8Length text = text.length := by
    intro text htext
    induction text with
    | nil => rfl
    | cons c text ih =>
      obtain ⟨hc, hrest⟩ := List.forall_mem_cons.mp htext
      rw [utf8Length_cons, hc.2, ih hrest, List.length_cons, Nat.add_comm]
  have hsize := utf8ByteSize_ofList s.toList
  rw [String.ofList_toList] at hsize
  rw [hsize, hlength _ h]

theorem hexFixed_hexText {n : Nat} (bytes : Vector UInt8 n) (field : String) :
    hexFixed n (hexText bytes) field = .ok bytes := by
  have hsize : (hexText bytes).utf8ByteSize = n * 2 :=
    (utf8ByteSize_plain (plain_hexText bytes)).trans (length_hexText bytes)
  have hread : hexBytes (hexText bytes).toList = some bytes.toList := by
    rw [hexText, String.toList_ofList, hexBytes_hexEncode]
  rw [hexFixed, if_neg (not_not.mpr hsize), hread]
  simp only [Vector.length_toList, dif_pos]
  rfl

/-! ## The record -/

structure SignedRecord where
  record : Value
  publicKey : Vector UInt8 KEY_LEN
  signature : Vector UInt8 SIG_LEN

namespace SignedRecord

/-- Only `record` is inside the signature. -/
def toValue (r : SignedRecord) : Value :=
  .object
    [("type", .string RECORD_TYPE),
      ("version", .int (.ofUInt64 1)),
      ("record", r.record),
      ("public_key", .string (hexText r.publicKey)),
      ("signature", .string (hexText r.signature))]

def fieldStr (value : Value) (field : String) : Except IdentityError String := do
  let item ← okOr (.missingField field) (value.get field)
  okOr (.invalidField field "a string") item.asStr

/-- The tag has to be the record's, as a text. -/
def checkType (value : Value) : Except IdentityError Unit :=
  match value.get "type" with
  | none => .error (.missingField "type")
  | some tag =>
    if tag.asStr = some RECORD_TYPE then .ok ()
    else .error (.invalidField "type" "\"signed_record\"")

def checkVersion (value : Value) : Except IdentityError Unit := do
  let item ← okOr (.missingField "version") (value.get "version")
  let version ← okOr (.invalidField "version" "an integer") item.asI128
  if version.val ≠ VERSION then .error (.unsupportedVersion version.val) else .ok ()

def fromValue (value : Value) : Except IdentityError SignedRecord := do
  let _ ← okOr .notAnObject value.asObject
  checkType value
  checkVersion value
  let record ← okOr (.missingField "record") (value.get "record")
  let publicKey ← hexFixed KEY_LEN (← fieldStr value "public_key") "public_key"
  let signature ← hexFixed SIG_LEN (← fieldStr value "signature") "signature"
  .ok { record, publicKey, signature }

theorem get_toValue (r : SignedRecord) :
    r.toValue.get "type" = some (.string RECORD_TYPE) ∧
      r.toValue.get "version" = some (.int (.ofUInt64 1)) ∧
      r.toValue.get "record" = some r.record ∧
      r.toValue.get "public_key" = some (.string (hexText r.publicKey)) ∧
      r.toValue.get "signature" = some (.string (hexText r.signature)) := by
  simp [toValue, Value.get_object, BTreeMap.lookupEntry]

/-- A signed record is read back. -/
theorem fromValue_toValue (r : SignedRecord) : fromValue r.toValue = .ok r := by
  obtain ⟨htype, hversion, hrecord, hkey, hsignature⟩ := r.get_toValue
  have hobject : ∃ map, r.toValue.asObject = some map := by
    rw [toValue, Value.object, Value.asObject, Value.view_objectOf]
    exact ⟨_, rfl⟩
  obtain ⟨map, hmap⟩ := hobject
  have hcheckType : checkType r.toValue = .ok () := by
    rw [checkType, htype]
    rfl
  have hcheckVersion : checkVersion r.toValue = .ok () := by
    rw [checkVersion, hversion]
    rfl
  have hkeyText : fieldStr r.toValue "public_key" = .ok (hexText r.publicKey) := by
    rw [fieldStr, hkey]
    rfl
  have hsignatureText : fieldStr r.toValue "signature" = .ok (hexText r.signature) := by
    rw [fieldStr, hsignature]
    rfl
  rw [fromValue, hmap, hcheckType, hcheckVersion, hrecord, hkeyText, hsignatureText]
  simp only [okOr, bind, Except.bind, hexFixed_hexText]

theorem depth_toValue_le {r : SignedRecord} {n : Nat} (hn : 0 < n) (h : r.record.depth + 1 ≤ n) :
    r.toValue.depth ≤ n := by
  rw [toValue]
  apply depth_object_le
  simp only [List.forall_mem_cons, List.not_mem_nil, false_implies, implies_true, and_true,
    Value.depth_string, Value.depth_int]
  omega

end SignedRecord

/-! ## What the wire has room for -/

/-- The bytes a record may take. The records of this protocol take fewer. -/
def RECORD_ROOM : Nat := 100 * 1024

/-- Below the limits of a message: not too deep to be read back inside one, and not
too long. -/
structure SignedRecord.Fits (r : SignedRecord) : Prop where
  depth : r.record.depth + 3 ≤ MAX_DEPTH
  size : r.toValue.size ≤ RECORD_ROOM

def MAX_ADDRS : Nat := 8

/-- The record a peer signs: its addresses as text, its version, and the transport
it answers on where it names one. -/
def peerRecord (addrs : List String) (seq : UInt64) (transport : Option String) : Value :=
  .object
    ([("type", .string "peer"),
        ("addrs", .array (addrs.map Value.string)),
        ("seq", .int (.ofUInt64 seq))] ++
      (transport.map fun id => ("transport", Value.string id)).toList)

end Cairn.Ports.Swarm
