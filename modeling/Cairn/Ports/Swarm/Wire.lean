import Cairn.Ports.P2p.Routing
import Cairn.Ports.Swarm.Bitfield
import Cairn.Ports.Swarm.Signed

/-!
# What two peers say, and its framing

`Message::encode`, `frame`, `decode` and `check_frame_len` of
`src/p2p/swarm/wire.rs`. A frame is a length of four bytes and a body: one tag
and what it stands for. Manifests, peers and nodes travel as canonical JSON; the
other messages have a fixed layout, and decoding them is the inverse of encoding.
-/

namespace Cairn.Ports.Swarm

open Cairn.Verified Cairn.Ports.Canonical
open Cairn.Ports.Dht (K)
open Cairn.Ports.Shards (divCeil)

/-- The largest frame body the decoder accepts. -/
def MAX_FRAME : Nat := MAX_PIECE_LEN + 1024

/-- Records handed over in one peer-exchange answer. -/
def MAX_SHARED : Nat := 32

inductive WireError where
  | tooLong (declared : Nat)
  | truncated (message : String)
  | unknownTag (tag : UInt8)
  | trailing (message : String) (extra : Nat)
  | notOurProtocol
  | badBitfield
  | badManifest
  | badPeers
  | notUnicode (message : String)
deriving DecidableEq

/-- Everything a peer can say after the handshake. -/
inductive Message where
  | manifest (manifest : Manifest)
  | wantManifest
  | bitfield (field : Bitfield)
  | have_ (index : UInt32)
  | interested (yes : Bool)
  | choke (yes : Bool)
  | request (index : UInt32)
  | cancel (index : UInt32)
  | piece (index : UInt32) (bytes : List UInt8)
  | wantPeers
  | peers (records : List SignedRecord)
  | findNode (key : Vector UInt8 32)
  | nodes (closer providers : List SignedRecord)
  | announce (key : Vector UInt8 32)

@[match_pattern] def TAG_MANIFEST : UInt8 := 1
@[match_pattern] def TAG_WANT_MANIFEST : UInt8 := 2
@[match_pattern] def TAG_BITFIELD : UInt8 := 3
@[match_pattern] def TAG_HAVE : UInt8 := 4
@[match_pattern] def TAG_INTERESTED : UInt8 := 5
@[match_pattern] def TAG_NOT_INTERESTED : UInt8 := 6
@[match_pattern] def TAG_CHOKE : UInt8 := 7
@[match_pattern] def TAG_UNCHOKE : UInt8 := 8
@[match_pattern] def TAG_REQUEST : UInt8 := 9
@[match_pattern] def TAG_CANCEL : UInt8 := 10
@[match_pattern] def TAG_PIECE : UInt8 := 11
@[match_pattern] def TAG_WANT_PEERS : UInt8 := 12
@[match_pattern] def TAG_PEERS : UInt8 := 13
@[match_pattern] def TAG_FIND_NODE : UInt8 := 14
@[match_pattern] def TAG_NODES : UInt8 := 15
@[match_pattern] def TAG_ANNOUNCE : UInt8 := 16

/-! ## Four bytes -/

/-- `u32::to_be_bytes`. -/
def toBeBytes (n : UInt32) : List UInt8 :=
  [UInt8.ofNat (n.toNat / 2 ^ 24), UInt8.ofNat (n.toNat / 2 ^ 16), UInt8.ofNat (n.toNat / 2 ^ 8),
    UInt8.ofNat n.toNat]

/-- `u32::from_be_bytes`. -/
def fromBeBytes (a b c d : UInt8) : UInt32 :=
  UInt32.ofNat (2 ^ 24 * a.toNat + 2 ^ 16 * b.toNat + 2 ^ 8 * c.toNat + d.toNat)

theorem fromBeBytes_toBeBytes (n : UInt32) :
    fromBeBytes (UInt8.ofNat (n.toNat / 2 ^ 24)) (UInt8.ofNat (n.toNat / 2 ^ 16))
      (UInt8.ofNat (n.toNat / 2 ^ 8)) (UInt8.ofNat n.toNat) = n := by
  have hlt := n.toNat_lt
  rw [fromBeBytes]
  simp only [UInt8.toNat_ofNat']
  have hsum : 2 ^ 24 * (n.toNat / 2 ^ 24 % 2 ^ 8) + 2 ^ 16 * (n.toNat / 2 ^ 16 % 2 ^ 8) +
      2 ^ 8 * (n.toNat / 2 ^ 8 % 2 ^ 8) + n.toNat % 2 ^ 8 = n.toNat := by omega
  rw [hsum, UInt32.ofNat_toNat]

theorem toBeBytes_fromBeBytes (a b c d : UInt8) :
    toBeBytes (fromBeBytes a b c d) = [a, b, c, d] := by
  have ha := a.toNat_lt
  have hb := b.toNat_lt
  have hc := c.toNat_lt
  have hd := d.toNat_lt
  have hn : (fromBeBytes a b c d).toNat =
      2 ^ 24 * a.toNat + 2 ^ 16 * b.toNat + 2 ^ 8 * c.toNat + d.toNat :=
    UInt32.toNat_ofNat_of_lt' (by simp only [UInt32.size]; omega)
  have hbyte : ∀ (m : Nat) (x : UInt8), m % 2 ^ 8 = x.toNat → UInt8.ofNat m = x := by
    intro m x h
    exact UInt8.toNat_inj.mp (by rw [UInt8.toNat_ofNat', h])
  rw [toBeBytes, hn, hbyte _ a (by omega), hbyte _ b (by omega), hbyte _ c (by omega),
    hbyte _ d (by omega)]

/-! ## Encoding -/

namespace Message

/-- A list of signed records as a value. -/
def recordsValue (records : List SignedRecord) : Value := .array (records.map SignedRecord.toValue)

def nodesValue (closer providers : List SignedRecord) : Value :=
  .object [("closer", recordsValue closer), ("providers", recordsValue providers)]

/-- `canonical_bytes`. -/
def jsonBytes (v : Value) : List UInt8 := v.canonicalBytes.data.toList

/-- Encode the body, without the length before it. -/
def encode : Message → List UInt8
  | .manifest m => TAG_MANIFEST :: jsonBytes m.toValue
  | .wantManifest => [TAG_WANT_MANIFEST]
  | .bitfield f => TAG_BITFIELD :: f.bits
  | .have_ index => TAG_HAVE :: toBeBytes index
  | .interested yes => [if yes then TAG_INTERESTED else TAG_NOT_INTERESTED]
  | .choke yes => [if yes then TAG_CHOKE else TAG_UNCHOKE]
  | .request index => TAG_REQUEST :: toBeBytes index
  | .cancel index => TAG_CANCEL :: toBeBytes index
  | .piece index bytes => TAG_PIECE :: (toBeBytes index ++ bytes)
  | .wantPeers => [TAG_WANT_PEERS]
  | .peers records => TAG_PEERS :: jsonBytes (recordsValue records)
  | .findNode key => TAG_FIND_NODE :: key.toList
  | .nodes closer providers => TAG_NODES :: jsonBytes (nodesValue closer providers)
  | .announce key => TAG_ANNOUNCE :: key.toList

/-- The length a frame starts with: `as u32` keeps the low 32 bits. -/
def frameLen (m : Message) : UInt32 := UInt32.ofNat m.encode.length

/-- A complete frame: a length of four bytes, then the body. -/
def frame (m : Message) : List UInt8 := toBeBytes m.frameLen ++ m.encode

end Message

/-- Check a declared frame length before a byte of it is read. -/
def checkFrameLen (declared : UInt32) : Except WireError Nat :=
  if MAX_FRAME < declared.toNat then .error (.tooLong declared.toNat) else .ok declared.toNat

/-! ## Decoding -/

def empty (rest : List UInt8) (message : String) : Except WireError Unit :=
  if rest.isEmpty then .ok () else .error (.trailing message rest.length)

/-- A fixed 32-byte key field, with nothing after it. -/
def keyOnly (rest : List UInt8) (message : String) : Except WireError (Vector UInt8 32) :=
  if rest.length < 32 then .error (.truncated message)
  else if h : rest.length = 32 then .ok ⟨rest.toArray, h⟩
  else .error (.trailing message (rest.length - 32))

def indexOnly (rest : List UInt8) (message : String) : Except WireError UInt32 :=
  match rest with
  | a :: b :: c :: d :: rest =>
    if rest.isEmpty then .ok (fromBeBytes a b c d) else .error (.trailing message rest.length)
  | _ => .error (.truncated message)

/-- The value these bytes are the JSON of. -/
def jsonOf (error : WireError) (rest : List UInt8) : Except WireError Value := do
  let text ← okOr error (String.fromUTF8? (ByteArray.mk rest.toArray))
  (Value.fromJson text).mapError fun _ => error

/-- A list of signed records that is no longer than the bound. -/
def recordsOf (bound : Nat) (items : List Value) : Except WireError (List SignedRecord) :=
  if bound < items.length then .error (.tooLong items.length)
  else items.mapM fun item => (SignedRecord.fromValue item).mapError fun _ => .badPeers

/-- A bounded list of signed records under `field`. -/
def recordsAt (value : Value) (field : String) : Except WireError (List SignedRecord) := do
  let items ← okOr .badPeers ((value.get field).bind Value.asArray)
  recordsOf K items

def decodePiece (rest : List UInt8) : Except WireError Message :=
  match rest with
  | a :: b :: c :: d :: bytes =>
    if MAX_PIECE_LEN < bytes.length then .error (.tooLong bytes.length)
    else .ok (.piece (fromBeBytes a b c d) bytes)
  | _ => .error (.truncated "piece")

def decodeManifest (rest : List UInt8) : Except WireError Message := do
  let value ← jsonOf .badManifest rest
  let manifest ← (Manifest.fromValue value).mapError fun _ => .badManifest
  .ok (.manifest manifest)

def decodeBitfield (rest : List UInt8) (pieces : Option UInt32) : Except WireError Message := do
  let pieces ← okOr .badBitfield pieces
  (okOr .badBitfield (Bitfield.decode rest pieces.toNat)).map .bitfield

def decodePeers (rest : List UInt8) : Except WireError Message := do
  let value ← jsonOf .badPeers rest
  let items ← okOr .badPeers value.asArray
  (recordsOf MAX_SHARED items).map .peers

def decodeNodes (rest : List UInt8) : Except WireError Message := do
  let value ← jsonOf .badPeers rest
  let closer ← recordsAt value "closer"
  let providers ← recordsAt value "providers"
  .ok (.nodes closer providers)

/-- What follows a tag. -/
def decodeBody (tag : UInt8) (rest : List UInt8) (pieces : Option UInt32) :
    Except WireError Message :=
  match tag with
  | TAG_MANIFEST => decodeManifest rest
  | TAG_WANT_MANIFEST => (empty rest "want-manifest").map fun _ => .wantManifest
  | TAG_BITFIELD => decodeBitfield rest pieces
  | TAG_HAVE => (indexOnly rest "have").map .have_
  | TAG_INTERESTED => (empty rest "interested").map fun _ => .interested true
  | TAG_NOT_INTERESTED => (empty rest "interested").map fun _ => .interested false
  | TAG_CHOKE => (empty rest "choke").map fun _ => .choke true
  | TAG_UNCHOKE => (empty rest "choke").map fun _ => .choke false
  | TAG_REQUEST => (indexOnly rest "request").map .request
  | TAG_CANCEL => (indexOnly rest "cancel").map .cancel
  | TAG_PIECE => decodePiece rest
  | TAG_WANT_PEERS => (empty rest "want-peers").map fun _ => .wantPeers
  | TAG_PEERS => decodePeers rest
  | TAG_FIND_NODE => (keyOnly rest "find-node").map .findNode
  | TAG_NODES => decodeNodes rest
  | TAG_ANNOUNCE => (keyOnly rest "announce").map .announce
  | other => .error (.unknownTag other)

/-- Decode a frame body. The piece count comes from the caller: without one, a
bitfield is refused. -/
def Message.decode (body : List UInt8) (pieces : Option UInt32) : Except WireError Message :=
  match body with
  | [] => .error (.truncated "message")
  | tag :: rest => decodeBody tag rest pieces

/-! ## Reading back the parts -/

theorem jsonOf_jsonBytes (error : WireError) {v : Value} (h : v.depth ≤ MAX_DEPTH) :
    jsonOf error (Message.jsonBytes v) = .ok v := by
  have hbytes : ByteArray.mk (Message.jsonBytes v).toArray = v.canonicalString.toUTF8 := by
    rw [Message.jsonBytes, Array.toArray_toList]
    rfl
  have htext : String.fromUTF8? v.canonicalString.toUTF8 = some v.canonicalString :=
    dif_pos v.canonicalString.isValidUTF8
  rw [jsonOf, hbytes, htext]
  simp only [okOr_some, bind, Except.bind, Value.fromJson_canonicalString v h]
  rfl

theorem indexOnly_toBeBytes (n : UInt32) (message : String) :
    indexOnly (toBeBytes n) message = .ok n := by
  show Except.ok (fromBeBytes _ _ _ _) = _
  rw [fromBeBytes_toBeBytes]

variable {rest : List UInt8} {message : String}

theorem indexOnly_eq_ok {n : UInt32}
    (h : indexOnly rest message = .ok n) : toBeBytes n = rest := by
  unfold indexOnly at h
  split at h
  · split_ifs at h with hempty
    cases h
    rw [toBeBytes_fromBeBytes, List.isEmpty_iff.mp hempty]
  · cases h

theorem keyOnly_toList (key : Vector UInt8 32) (message : String) :
    keyOnly key.toList message = .ok key := by
  have hlength : key.toList.length = 32 := key.length_toList
  rw [keyOnly, if_neg (by omega), dif_pos hlength]
  rfl

theorem keyOnly_eq_ok {key : Vector UInt8 32}
    (h : keyOnly rest message = .ok key) : key.toList = rest := by
  unfold keyOnly at h
  split_ifs at h
  cases h
  rfl

theorem empty_eq_ok {u : Unit}
    (h : empty rest message = .ok u) : rest = [] := by
  unfold empty at h
  split_ifs at h with hempty
  exact List.isEmpty_iff.mp hempty

theorem recordsOf_map {bound : Nat} {records : List SignedRecord} (h : records.length ≤ bound) :
    recordsOf bound (records.map SignedRecord.toValue) = .ok records := by
  have hread : ∀ rs : List SignedRecord, (rs.map SignedRecord.toValue).mapM
      (fun item => (SignedRecord.fromValue item).mapError fun _ => WireError.badPeers) =
        .ok rs := by
    intro rs
    induction rs with
    | nil => rfl
    | cons r rs ih =>
      rw [List.map_cons, List.mapM_cons, ih, SignedRecord.fromValue_toValue]
      rfl
  rw [recordsOf, if_neg (by rw [List.length_map]; omega), hread]

/-! ## Round trips -/

namespace Message

/-- Whether the body is JSON. -/
def isJson : Message → Bool
  | .manifest _ => true
  | .peers _ => true
  | .nodes _ _ => true
  | _ => false

/-- The limits on what a message carries, where the receiver knows the piece
count. -/
def WithinLimits (pieces : UInt32) : Message → Prop
  | .bitfield f => f.len = pieces.toNat
  | .piece _ bytes => bytes.length ≤ MAX_PIECE_LEN
  | .peers records => records.length ≤ MAX_SHARED ∧ ∀ r ∈ records, r.Fits
  | .nodes closer providers =>
    closer.length ≤ K ∧ providers.length ≤ K ∧ (∀ r ∈ closer, r.Fits) ∧ ∀ r ∈ providers, r.Fits
  | _ => True

theorem depth_recordsValue {records : List SignedRecord} (h : ∀ r ∈ records, r.Fits) :
    (recordsValue records).depth + 1 ≤ MAX_DEPTH := by
  have hdepth : (recordsValue records).depth ≤ MAX_DEPTH - 1 := by
    refine Sync.depth_array_map_le fun r hr => ?_
    have hr := (h r hr).depth
    have hvalue := SignedRecord.depth_toValue_le (r := r) (n := MAX_DEPTH - 2) (by decide)
      (by omega)
    have hmax : MAX_DEPTH = 128 := rfl
    omega
  have hmax : MAX_DEPTH = 128 := rfl
  omega

theorem depth_nodesValue {closer providers : List SignedRecord} (hcloser : ∀ r ∈ closer, r.Fits)
    (hproviders : ∀ r ∈ providers, r.Fits) : (nodesValue closer providers).depth ≤ MAX_DEPTH := by
  rw [nodesValue]
  apply Sync.depth_object_le
  simp only [List.forall_mem_cons, List.not_mem_nil, false_implies, implies_true, and_true]
  exact ⟨depth_recordsValue hcloser, depth_recordsValue hproviders⟩

theorem depth_manifest (m : Manifest) : m.toValue.depth ≤ MAX_DEPTH := by
  have hpieces : (Value.array (m.pieces.map Value.string)).depth ≤ 1 :=
    Sync.depth_array_map_le fun hash _ => le_rfl
  rw [Manifest.toValue]
  apply Sync.depth_object_le
  simp only [List.forall_mem_cons, List.not_mem_nil, false_implies, implies_true, and_true,
    Value.depth_string, Value.depth_int]
  have hmax : MAX_DEPTH = 128 := rfl
  omega

theorem recordsAt_nodesValue {closer providers : List SignedRecord} (hcloser : closer.length ≤ K)
    (hproviders : providers.length ≤ K) :
    recordsAt (nodesValue closer providers) "closer" = .ok closer ∧
      recordsAt (nodesValue closer providers) "providers" = .ok providers := by
  have hget : (nodesValue closer providers).get "closer" = some (recordsValue closer) ∧
      (nodesValue closer providers).get "providers" = some (recordsValue providers) := by
    simp [nodesValue, Value.get_object, BTreeMap.lookupEntry]
  constructor
  · rw [recordsAt, hget.1, Option.bind_some, recordsValue, Value.asArray_array, okOr_some]
    exact recordsOf_map hcloser
  · rw [recordsAt, hget.2, Option.bind_some, recordsValue, Value.asArray_array, okOr_some]
    exact recordsOf_map hproviders

/-- A message within the limits is read back. -/
theorem decode_encode_of_limits {m : Message} {pieces : UInt32} (h : m.WithinLimits pieces) :
    decode m.encode (some pieces) = .ok m := by
  cases m with
  | manifest m =>
    show decodeManifest (jsonBytes m.toValue) = _
    simp only [decodeManifest, jsonOf_jsonBytes _ (depth_manifest m), bind, Except.bind,
      Manifest.fromValue_toValue]
    rfl
  | wantManifest => rfl
  | bitfield f =>
    have hread := Bitfield.decode_eq_some_iff.mpr ⟨rfl, show f.len = pieces.toNat from h⟩
    show decodeBitfield f.bits (some pieces) = _
    simp only [decodeBitfield, okOr_some, bind, Except.bind, hread]
    rfl
  | have_ index =>
    show (indexOnly (toBeBytes index) "have").map have_ = _
    rw [indexOnly_toBeBytes]
    rfl
  | interested yes => cases yes <;> rfl
  | choke yes => cases yes <;> rfl
  | request index =>
    show (indexOnly (toBeBytes index) "request").map request = _
    rw [indexOnly_toBeBytes]
    rfl
  | cancel index =>
    show (indexOnly (toBeBytes index) "cancel").map cancel = _
    rw [indexOnly_toBeBytes]
    rfl
  | piece index bytes =>
    have hlength : bytes.length ≤ MAX_PIECE_LEN := h
    show decodePiece (toBeBytes index ++ bytes) = _
    rw [toBeBytes, List.cons_append, List.cons_append, List.cons_append, List.cons_append,
      List.nil_append, decodePiece, if_neg (Nat.not_lt.mpr hlength), fromBeBytes_toBeBytes]
  | wantPeers => rfl
  | peers records =>
    have hdepth := Nat.le_of_succ_le (depth_recordsValue h.2)
    show decodePeers (jsonBytes (recordsValue records)) = _
    have harray : (recordsValue records).asArray = some (records.map SignedRecord.toValue) :=
      Value.asArray_array _
    simp only [decodePeers, jsonOf_jsonBytes _ hdepth, bind, Except.bind, harray, okOr_some,
      recordsOf_map h.1]
    rfl
  | findNode key =>
    show (keyOnly key.toList "find-node").map findNode = _
    rw [keyOnly_toList]
    rfl
  | nodes closer providers =>
    obtain ⟨hcloser, hproviders, hfitsCloser, hfitsProviders⟩ := h
    obtain ⟨hfirst, hsecond⟩ := recordsAt_nodesValue hcloser hproviders
    have hdepth := depth_nodesValue hfitsCloser hfitsProviders
    show decodeNodes (jsonBytes (nodesValue closer providers)) = _
    simp only [decodeNodes, jsonOf_jsonBytes _ hdepth, bind, Except.bind, hfirst, hsecond]
  | announce key =>
    show (keyOnly key.toList "announce").map announce = _
    rw [keyOnly_toList]
    rfl

/-- Where a mapped result is a success, so is the result. -/
theorem map_eq_ok {ε α β : Type} {f : α → β} {r : Except ε α} {b : β} (h : r.map f = .ok b) :
    ∃ a, r = .ok a ∧ f a = b := by
  cases r with
  | error e => cases h
  | ok a => exact ⟨a, rfl, Except.ok.inj h⟩

/-- A message that is not JSON has one encoding. -/
theorem encode_decode {body : List UInt8} {pieces : Option UInt32} {m : Message}
    (h : decode body pieces = .ok m) (hjson : m.isJson = false) : m.encode = body := by
  cases body with
  | nil => cases h
  | cons tag rest =>
    replace h : decodeBody tag rest pieces = .ok m := h
    unfold decodeBody at h
    split at h
    · obtain ⟨value, -, h⟩ := bind_eq_ok.mp h
      obtain ⟨manifest, -, h⟩ := bind_eq_ok.mp h
      cases h
      cases hjson
    · obtain ⟨u, hrest, rfl⟩ := map_eq_ok h
      rw [empty_eq_ok hrest]
      rfl
    · obtain ⟨n, -, h⟩ := bind_eq_ok.mp h
      obtain ⟨f, hread, rfl⟩ := map_eq_ok h
      have hdecode : Bitfield.decode rest n.toNat = some f := by
        cases hf : Bitfield.decode rest n.toNat with
        | none =>
          rw [hf] at hread
          cases hread
        | some g =>
          rw [hf] at hread
          rw [Except.ok.inj hread]
      rw [← (Bitfield.decode_eq_some_iff.mp hdecode).1]
      rfl
    · obtain ⟨n, hrest, rfl⟩ := map_eq_ok h
      rw [← indexOnly_eq_ok hrest]
      rfl
    · obtain ⟨u, hrest, rfl⟩ := map_eq_ok h
      rw [empty_eq_ok hrest]
      rfl
    · obtain ⟨u, hrest, rfl⟩ := map_eq_ok h
      rw [empty_eq_ok hrest]
      rfl
    · obtain ⟨u, hrest, rfl⟩ := map_eq_ok h
      rw [empty_eq_ok hrest]
      rfl
    · obtain ⟨u, hrest, rfl⟩ := map_eq_ok h
      rw [empty_eq_ok hrest]
      rfl
    · obtain ⟨n, hrest, rfl⟩ := map_eq_ok h
      rw [← indexOnly_eq_ok hrest]
      rfl
    · obtain ⟨n, hrest, rfl⟩ := map_eq_ok h
      rw [← indexOnly_eq_ok hrest]
      rfl
    · unfold decodePiece at h
      split at h
      · split_ifs at h
        cases h
        rw [encode, toBeBytes_fromBeBytes]
        rfl
      · cases h
    · obtain ⟨u, hrest, rfl⟩ := map_eq_ok h
      rw [empty_eq_ok hrest]
      rfl
    · obtain ⟨value, -, h⟩ := bind_eq_ok.mp h
      obtain ⟨items, -, h⟩ := bind_eq_ok.mp h
      obtain ⟨records, -, rfl⟩ := map_eq_ok h
      cases hjson
    · obtain ⟨key, hrest, rfl⟩ := map_eq_ok h
      rw [← keyOnly_eq_ok hrest]
      rfl
    · obtain ⟨value, -, h⟩ := bind_eq_ok.mp h
      obtain ⟨closer, -, h⟩ := bind_eq_ok.mp h
      obtain ⟨providers, -, h⟩ := bind_eq_ok.mp h
      cases h
      cases hjson
    · obtain ⟨key, hrest, rfl⟩ := map_eq_ok h
      rw [← keyOnly_eq_ok hrest]
      rfl
    · cases h

end Message

end Cairn.Ports.Swarm
