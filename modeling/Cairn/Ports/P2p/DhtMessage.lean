import Cairn.Ports.P2p.Directory
import Cairn.Ports.P2p.Wire

/-!
# The messages of the directory

The wire form of `src/p2p/dht.rs`. Every field that names a peer is 64 bytes of
text, read two bytes at a time by slices of the text.
-/

namespace Cairn.Ports.Dht

open Cairn.Verified
open Cairn.Ports.Canonical
open Cairn.Ports.Wire

/-- Contacts of one answer. -/
def MAX_CONTACTS_PER_MESSAGE : Nat := K

/-- Addresses of one `Ask` or `Tell`. -/
def MAX_ASK_ADDRESSES : Nat := 1024

def MAX_KEYS_PER_MESSAGE : Nat := 1

/-- Digits of a public key. -/
def KEY_HEX_LEN : Nat := 261120 * 2

inductive DhtError where
  | malformed (detail : String)
  | tooMany (limit got : Nat)
  | notAnAddress (address : String)
  | badAddress (value : String)
deriving DecidableEq

/-- How an address of a peer is written and read. -/
class Sockets (Addr : Type) where
  print : Addr → String
  parse : String → Option Addr

/-- `blobs::is_address`. -/
def isAddress (text : String) : Bool := isHex64 text

namespace NodeId

/-- Its 32 bytes, the highest first. -/
def toBytes (id : NodeId) : List UInt8 :=
  (List.range 32).map fun index => UInt8.ofNat (id.toNat / 256 ^ (31 - index))

def toHex (id : NodeId) : String := String.ofList (hexEncode id.toBytes)

end NodeId

/-! ## Pairs of digits -/

/-- After some pairs of digits, a character of the text does not end where a pair
of bytes does. -/
def Straddles (text : String) : Prop :=
  byteLength text.toList = 64 ∧ ∃ pre rest, text.toList = pre ++ rest ∧
    (Sync.bytePairs pre).isSome = true ∧
      ((∃ c tail, rest = c :: tail ∧ 2 < c.utf8Size) ∨
        ∃ c d tail, rest = c :: d :: tail ∧ c.utf8Size = 1 ∧ 1 < d.utf8Size)

/-- A digit is one byte, and so is a sign. -/
theorem utf8Size_of_hexDigitValue {c : Char} {value : Nat} (h : hexDigitValue c = some value) :
    c.utf8Size = 1 := by
  have hle : c.val.toNat ≤ 127 := by
    unfold hexDigitValue at h
    split_ifs at h with hdigit hlower hupper
    · rw [Char.isDigit, Bool.and_eq_true, decide_eq_true_eq, decide_eq_true_eq] at hdigit
      exact le_trans hdigit.2 (by decide)
    · exact le_trans hlower.2 (by decide)
    · exact le_trans hupper.2 (by decide)
  exact Char.utf8Size_eq_one_iff.mpr hle

theorem sizes_of_fromStrRadix16 {c d : Char} {byte : Nat}
    (h : fromStrRadix16 256 [c, d] = some byte) : c.utf8Size = 1 ∧ d.utf8Size = 1 := by
  by_cases hplus : c = '+'
  · refine ⟨hplus ▸ by decide, ?_⟩
    cases hvalue : hexDigitValue d with
    | none => simp [fromStrRadix16, hplus, hvalue] at h
    | some value => exact utf8Size_of_hexDigitValue hvalue
  · cases hfirst : hexDigitValue c with
    | none => simp [fromStrRadix16, hplus, hfirst] at h
    | some first =>
      cases hsecond : hexDigitValue d with
      | none => simp [fromStrRadix16, hplus, hfirst, hsecond] at h
      | some second =>
        exact ⟨utf8Size_of_hexDigitValue hfirst, utf8Size_of_hexDigitValue hsecond⟩

/-- What two bytes of text that are read as a byte are: two characters. -/
theorem pair_of_fromStrRadix16 {pair : List Char} {byte : Nat} (hlength : byteLength pair = 2)
    (h : fromStrRadix16 256 pair = some byte) :
    ∃ c d, pair = [c, d] ∧ c.utf8Size = 1 ∧ d.utf8Size = 1 := by
  have hpos : ∀ c : Char, 0 < c.utf8Size := Char.utf8Size_pos
  cases pair with
  | nil => exact absurd hlength (by simp)
  | cons c pair =>
    cases pair with
    | nil =>
      -- one character of two bytes is no digit
      rw [byteLength_cons, byteLength_nil] at hlength
      have hplus : c ≠ '+' := by
        rintro rfl
        exact absurd hlength (by decide)
      cases hvalue : hexDigitValue c with
      | none => simp [fromStrRadix16, hplus, hvalue] at h
      | some value =>
        have hone := utf8Size_of_hexDigitValue hvalue
        omega
    | cons d pair =>
      cases pair with
      | nil =>
        have hc := hpos c
        have hd := hpos d
        rw [byteLength_cons, byteLength_cons, byteLength_nil] at hlength
        exact ⟨c, d, rfl, by omega, by omega⟩
      | cons e pair =>
        have hc := hpos c
        have hd := hpos d
        have he := hpos e
        rw [byteLength_cons, byteLength_cons, byteLength_cons] at hlength
        omega

theorem bytePairs_append {pre pre' : List Char} (h : (Sync.bytePairs pre).isSome = true) :
    (Sync.bytePairs (pre ++ pre')).isSome = (Sync.bytePairs pre').isSome := by
  induction pre using Sync.bytePairs.induct with
  | case1 => rfl
  | case2 c => cases h
  | case3 c d rest ih =>
    rw [List.cons_append, List.cons_append]
    rw [Sync.bytePairs] at h ⊢
    cases hbyte : fromStrRadix16 256 [c, d] with
    | none =>
      rw [hbyte] at h
      cases h
    | some byte =>
      rw [hbyte] at h
      cases hrest : Sync.bytePairs rest with
      | none =>
        rw [hrest] at h
        cases h
      | some bytes =>
        have hih := ih (by rw [hrest]; rfl)
        cases hall : Sync.bytePairs (rest ++ pre') with
        | none =>
          rw [hall] at hih
          exact hih
        | some all =>
          rw [hall] at hih
          exact hih

variable {Addr : Type} [Sockets Addr]

namespace PeerContact

def toValue (contact : PeerContact Addr) : Value :=
  .object [("id", .string contact.id.toHex), ("addr", .string (Sockets.print contact.addr)),
    ("seq", u64Value contact.seq)]

end PeerContact

namespace Holder

def toValue (holder : Holder Addr) : Value :=
  .object [("id", .string holder.id.toHex), ("addr", .string (Sockets.print holder.addr))]

end Holder

namespace ProviderAnswer

def toValue (answer : ProviderAnswer Addr) : Value :=
  .object [("address", .string answer.address),
    ("holders", .array (answer.holders.map Holder.toValue)),
    ("closer", .array (answer.closer.map PeerContact.toValue))]

end ProviderAnswer

inductive DhtMessage (Addr : Type) where
  | findNode (target : NodeId)
  | nodes (contacts : List (PeerContact Addr))
  | getProviders (addresses : List String)
  | providers (answers : List (ProviderAnswer Addr))
  | getKey (peers : List NodeId)
  | keys (texts : List String)
  | ask (addresses : List String)
  | tell (addresses : List String)

namespace DhtMessage

def toValue : DhtMessage Addr → Value
  | .findNode target =>
    .object [("t", .string "dht_find_node"), ("target", .string target.toHex)]
  | .nodes contacts =>
    .object [("t", .string "dht_nodes"), ("contacts", .array (contacts.map PeerContact.toValue))]
  | .getProviders addresses =>
    .object [("t", .string "dht_get_providers"),
      ("addresses", .array (addresses.map Value.string))]
  | .providers answers =>
    .object [("t", .string "dht_providers"),
      ("answers", .array (answers.map ProviderAnswer.toValue))]
  | .getKey peers =>
    .object [("t", .string "dht_get_key"),
      ("peers", .array (peers.map fun peer => .string peer.toHex))]
  | .keys texts => .object [("t", .string "dht_keys"), ("keys", .array (texts.map Value.string))]
  | .ask addresses =>
    .object [("t", .string "dht_ask"), ("addresses", .array (addresses.map Value.string))]
  | .tell addresses =>
    .object [("t", .string "dht_tell"), ("addresses", .array (addresses.map Value.string))]

def encode (message : DhtMessage Addr) : ByteArray := message.toValue.canonicalBytes

end DhtMessage

/-! ## Decoding -/

section Decode

variable [DebugText]

/-- One pair of digits of a name, by its place. -/
def pairAt (text : String) (index : Nat) : Except (Abort DhtError) UInt8 := do
  let pair ← orPanic (slice text.toList (index * 2) (index * 2 + 2))
  let byte ← orError (.malformed (DebugText.quoted text ++ " is not hexadecimal"))
    (fromStrRadix16 256 pair)
  .ok (UInt8.ofNat byte)

def parseNodeId (text : String) : Except (Abort DhtError) NodeId := do
  require (byteLength text.toList = 64)
    (.malformed (DebugText.quoted text ++ " is not a 256-bit id"))
  let raw ← collect (pairAt text) (List.range 32)
  .ok (NodeId.ofBytes raw)

/-- A field that is a text. -/
def textField (value : Value) (field missing : String) : Except (Abort DhtError) String :=
  orError (.malformed missing) ((value.get field).bind Value.asStr)

/-- The `seq` of a contact. -/
def seqField (value : Value) : Except (Abort DhtError) UInt64 := do
  let seq ← orError (.malformed "contact has no seq") ((value.get "seq").bind Value.asI128)
  require (0 ≤ seq.val) (.malformed "contact has no seq")
  require (seq.val.toNat < UInt64.size) (.malformed "seq is out of range")
  .ok (UInt64.ofNat seq.val.toNat)

def PeerContact.fromValue (value : Value) : Except (Abort DhtError) (PeerContact Addr) := do
  let id ← textField value "id" "contact has no id"
  let addr ← textField value "addr" "contact has no addr"
  let seq ← seqField value
  let peer ← parseNodeId id
  let addr ← orError (.badAddress addr) (Sockets.parse addr)
  .ok ⟨peer, addr, seq⟩

def Holder.fromValue (value : Value) : Except (Abort DhtError) (Holder Addr) := do
  let id ← textField value "id" "holder has no id"
  let addr ← textField value "addr" "holder has no addr"
  let peer ← parseNodeId id
  let addr ← orError (.badAddress addr) (Sockets.parse addr)
  .ok ⟨peer, addr⟩

/-- A list field of a directory message, with its limit. -/
def listField (value : Value) (field : String) (limit : Nat) : Except (Abort DhtError) (List Value) :=
  boundedArray .malformed .tooMany value field limit

def ProviderAnswer.fromValue (value : Value) : Except (Abort DhtError) (ProviderAnswer Addr) := do
  let address ← textField value "address" "answer has no address"
  require (isAddress address) (.notAnAddress address)
  let holderItems ← listField value "holders" MAX_PROVIDERS
  let holders ← collect Holder.fromValue holderItems
  let closerItems ← listField value "closer" MAX_CONTACTS_PER_MESSAGE
  let closer ← collect PeerContact.fromValue closerItems
  .ok ⟨address, holders, closer⟩

/-- One address of a list. -/
def addressItem (item : Value) : Except (Abort DhtError) String := do
  let text ← orError (.malformed "addresses contains a non-string") item.asStr
  require (isAddress text) (.notAnAddress text)
  .ok text

/-- The addresses of a message, no more than the limit. -/
def addressesField (value : Value) (limit : Nat) : Except (Abort DhtError) (List String) := do
  let items ← listField value "addresses" limit
  collect addressItem items

/-- One peer of a `GetKey`. -/
def peerItem (item : Value) : Except (Abort DhtError) NodeId := do
  let text ← orError (.malformed "peers contains a non-string") item.asStr
  parseNodeId text

/-- One key of a `Keys`; only its length is looked at. -/
def keyItem (item : Value) : Except (Abort DhtError) String := do
  let text ← orError (.malformed "keys contains a non-string") item.asStr
  require (byteLength text.toList = KEY_HEX_LEN) (.malformed ("a public key is " ++
    toString KEY_HEX_LEN ++ " hex characters, got " ++ toString (byteLength text.toList)))
  .ok text

namespace DhtMessage

def fromValue (value : Value) : Except (Abort DhtError) (DhtMessage Addr) :=
  match (value.get "t").bind Value.asStr with
  | some "dht_find_node" => do
      let target ← textField value "target" "target is not a string"
      let target ← parseNodeId target
      .ok (.findNode target)
  | some "dht_nodes" => do
      let items ← listField value "contacts" MAX_CONTACTS_PER_MESSAGE
      let contacts ← collect PeerContact.fromValue items
      .ok (.nodes contacts)
  | some "dht_get_providers" => do
      let addresses ← addressesField value MAX_LOOKUP_ADDRESSES
      .ok (.getProviders addresses)
  | some "dht_providers" => do
      let items ← listField value "answers" MAX_LOOKUP_ADDRESSES
      let answers ← collect ProviderAnswer.fromValue items
      .ok (.providers answers)
  | some "dht_get_key" => do
      let items ← listField value "peers" MAX_KEYS_PER_MESSAGE
      let peers ← collect peerItem items
      .ok (.getKey peers)
  | some "dht_keys" => do
      let items ← listField value "keys" MAX_KEYS_PER_MESSAGE
      let texts ← collect keyItem items
      .ok (.keys texts)
  | some "dht_ask" => do
      let addresses ← addressesField value MAX_ASK_ADDRESSES
      .ok (.ask addresses)
  | some "dht_tell" => do
      let addresses ← addressesField value MAX_ASK_ADDRESSES
      .ok (.tell addresses)
  | other => .error (.error (.malformed ("unknown dht message " ++ quotedOption other)))

def decode (bytes : ByteArray) : Except (Abort DhtError) (DhtMessage Addr) := do
  let value ← valueOf .malformed bytes
  fromValue value

end DhtMessage

/-! ## Reading a name -/

theorem pairAt_eq_ok {text : String} {index : Nat} {byte : UInt8} :
    pairAt text index = .ok byte ↔ ∃ pair n,
      slice text.toList (index * 2) (index * 2 + 2) = some pair ∧
        fromStrRadix16 256 pair = some n ∧ UInt8.ofNat n = byte := by
  simp only [pairAt, bind_eq_ok, orPanic_eq_ok, orError_eq_ok, Except.ok.injEq]
  constructor
  · rintro ⟨pair, hslice, n, hbyte, heq⟩
    exact ⟨pair, n, hslice, hbyte, heq⟩
  · rintro ⟨pair, n, hslice, hbyte, heq⟩
    exact ⟨pair, hslice, n, hbyte, heq⟩

theorem returns_pairAt (text : String) (index : Nat) :
    Returns (pairAt text index) ↔
      ¬slice text.toList (index * 2) (index * 2 + 2) = none := by
  unfold pairAt
  rw [returns_bind, returns_orPanic, Option.isSome_iff_ne_none]
  refine and_iff_left fun pair _ => ?_
  rw [returns_bind]
  exact ⟨returns_orError _ _, fun _ _ => returns_ok _⟩

/-- So many pairs read: the text begins with as many. -/
theorem pairs_of_pairAt {text : String} {count : Nat}
    (h : ∀ index < count, ∃ byte, pairAt text index = .ok byte) :
    ∃ pre rest, text.toList = pre ++ rest ∧ byteLength pre = count * 2 ∧
      (Sync.bytePairs pre).isSome = true := by
  induction count with
  | zero => exact ⟨[], text.toList, rfl, rfl, rfl⟩
  | succ count ih =>
    rcases ih fun index hindex => h index (by omega) with ⟨pre, rest, htext, hlength, hpairs⟩
    rcases h count (by omega) with ⟨byte, hbyte⟩
    rcases pairAt_eq_ok.mp hbyte with ⟨pair, n, hslice, hn, -⟩
    rw [htext, ← hlength, slice_append] at hslice
    rcases Option.map_eq_some_iff.mp hslice with ⟨⟨taken, rest'⟩, htake, heq⟩
    cases heq
    rcases takeBytes_eq_some htake with ⟨hrest, htwo⟩
    rcases pair_of_fromStrRadix16 htwo hn with ⟨c, d, hpair, -⟩
    dsimp only at hpair hn
    refine ⟨pre ++ taken, rest', ?_, ?_, ?_⟩
    · rw [htext, hrest, List.append_assoc]
    · rw [byteLength_append, hlength, htwo]
      omega
    · rw [bytePairs_append hpairs, hpair, Sync.bytePairs, ← hpair, hn]
      rfl

/-- Pairs of digits behind so many others are read. -/
theorem pairAt_of_pairs (pre : List Char) {text : String} (before : List Char)
    {rest : List Char} (count : Nat) (htext : text.toList = before ++ (pre ++ rest)) (hbefore : byteLength before = count * 2)
    (hpairs : (Sync.bytePairs pre).isSome = true) :
    ∃ more, byteLength pre = more * 2 ∧
      ∀ index, count ≤ index → index < count + more → ∃ byte, pairAt text index = .ok byte := by
  induction pre using Sync.bytePairs.induct generalizing before count with
  | case1 => exact ⟨0, rfl, fun index hle hlt => absurd hlt (by omega)⟩
  | case2 c => cases hpairs
  | case3 c d pre ih =>
    rw [Sync.bytePairs] at hpairs
    cases hbyte : fromStrRadix16 256 [c, d] with
    | none =>
      rw [hbyte] at hpairs
      cases hpairs
    | some byte =>
      have hrest : (Sync.bytePairs pre).isSome = true := by
        rw [hbyte] at hpairs
        cases hread : Sync.bytePairs pre with
        | none =>
          rw [hread] at hpairs
          cases hpairs
        | some bytes => rfl
      rcases sizes_of_fromStrRadix16 hbyte with ⟨hc, hd⟩
      have hpair : byteLength [c, d] = 2 := by
        rw [byteLength_cons, byteLength_cons, byteLength_nil, hc, hd]
      have hnext : byteLength (before ++ [c, d]) = (count + 1) * 2 := by
        rw [byteLength_append, hbefore, hpair]
        omega
      have hsplit : text.toList = (before ++ [c, d]) ++ (pre ++ rest) := by
        rw [htext, List.append_assoc]
        rfl
      rcases ih _ _ hsplit hnext hrest with ⟨more, hmore, hread⟩
      refine ⟨more + 1, ?_, fun index hle hlt => ?_⟩
      · rw [byteLength_cons, byteLength_cons, hc, hd, hmore]
        omega
      · by_cases heq : index = count
        · subst heq
          refine ⟨UInt8.ofNat byte, pairAt_eq_ok.mpr ⟨[c, d], byte, ?_, hbyte, rfl⟩⟩
          have htake := takeBytes_append [c, d] (pre ++ rest)
          rw [hpair] at htake
          rw [htext, ← hbefore, slice_append]
          exact congrArg (Option.map Prod.fst) htake
        · exact hread index (by omega) (by omega)

omit [DebugText] in
/-- Where a pair cannot be cut off: its end is inside a character. -/
theorem takeBytes_two_eq_none {rest : List Char} (hlength : 2 ≤ byteLength rest) :
    takeBytes rest 2 = none ↔ (∃ c tail, rest = c :: tail ∧ 2 < c.utf8Size) ∨
      ∃ c d tail, rest = c :: d :: tail ∧ c.utf8Size = 1 ∧ 1 < d.utf8Size := by
  cases rest with
  | nil => exact absurd hlength (by simp)
  | cons c tail =>
    have hc := Char.utf8Size_pos c
    by_cases hlong : 2 < c.utf8Size
    · refine iff_of_true ?_ (.inl ⟨c, tail, rfl, hlong⟩)
      rw [takeBytes, if_neg (by omega)]
    · by_cases htwo : c.utf8Size = 2
      · refine iff_of_false ?_ ?_
        · rw [takeBytes, if_pos (by omega), htwo]
          cases tail <;> simp [takeBytes]
        · rintro (⟨c', tail', heq, hlong'⟩ | ⟨c', d, tail', heq, hone, -⟩)
          · cases heq
            exact hlong hlong'
          · cases heq
            omega
      · have hone : c.utf8Size = 1 := by omega
        cases tail with
        | nil =>
          rw [byteLength_cons, byteLength_nil, hone] at hlength
          omega
        | cons d tail =>
          have hd := Char.utf8Size_pos d
          rw [takeBytes, if_pos (by omega), hone]
          by_cases hwide : 1 < d.utf8Size
          · refine iff_of_true ?_ (.inr ⟨c, d, tail, rfl, hone, hwide⟩)
            rw [takeBytes, if_neg (by omega)]
            rfl
          · refine iff_of_false ?_ ?_
            · have hsmall : d.utf8Size = 1 := by omega
              rw [takeBytes, if_pos (by omega), hsmall]
              cases tail <;> simp [takeBytes]
            · rintro (⟨c', tail', heq, hlong'⟩ | ⟨c', d', tail', heq, -, hwide'⟩)
              · cases heq
                exact hlong hlong'
              · cases heq
                exact hwide hwide'

/-- A name is read without a panic exactly when no character of it straddles the
end of a pair that is read. -/
theorem returns_parseNodeId (text : String) : Returns (parseNodeId text) ↔ ¬Straddles text := by
  unfold parseNodeId
  rw [returns_bind]
  have hcollect := returns_collect (returns_pairAt text) (List.range 32)
  rw [firstFails_range] at hcollect
  constructor
  · rintro ⟨-, hrest⟩ ⟨hlength, pre, rest, htext, hpairs, hends⟩
    have hread := (returns_bind.mp (hrest () (require_eq_ok.mpr hlength))).1
    rcases pairAt_of_pairs pre [] 0 htext rfl hpairs with ⟨count, hcount, hok⟩
    have hlong : 2 ≤ byteLength rest := by
      rcases hends with ⟨c, tail, rfl, hwide⟩ | ⟨c, d, tail, rfl, hone, hwide⟩
      · rw [byteLength_cons]
        omega
      · rw [byteLength_cons, byteLength_cons]
        omega
    rw [htext, byteLength_append, hcount] at hlength
    refine hcollect.mp hread ⟨count, by omega, fun index hindex => hok index (by omega) (by omega), ?_⟩
    rw [htext, ← hcount, slice_append, (takeBytes_two_eq_none hlong).mpr hends]
    rfl
  · intro hstraddles
    refine ⟨returns_require _ _, fun _ hlength => ?_⟩
    rw [require_eq_ok] at hlength
    rw [returns_bind]
    refine ⟨hcollect.mpr ?_, fun _ _ => returns_ok _⟩
    rintro ⟨count, hlt, hok, hslice⟩
    rcases pairs_of_pairAt hok with ⟨pre, rest, htext, hcount, hpairs⟩
    have hsum := hlength
    rw [htext, byteLength_append, hcount] at hsum
    rw [htext, ← hcount, slice_append, Option.map_eq_none_iff,
      takeBytes_two_eq_none (by omega)] at hslice
    exact hstraddles ⟨hlength, pre, rest, htext, hpairs, hslice⟩

end Decode

end Cairn.Ports.Dht
