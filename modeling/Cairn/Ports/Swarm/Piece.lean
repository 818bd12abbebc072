import Cairn.Ports.Shards.Manifest

/-!
# Pieces and the manifest that lists them

`Layout` and `Manifest` of `src/p2p/swarm/piece.rs`. A blob is cut into pieces of
one length, the last one shorter, and each piece is hashed. A manifest comes from
a stranger: what the constructor checks are fields of the structures here, so a
manifest with numbers that do not agree cannot be built.

Lengths and indices are natural numbers. The bounds of a layout keep all of them
below `2 ^ 32`, so no conversion of the source loses anything.
-/

namespace Cairn.Ports.Swarm

open Cairn.Verified Cairn.Ports.Canonical
open Cairn.Ports.Shards (divCeil divCeil_spec getRange isPowerOfTwo digestOf)

def DEFAULT_PIECE_LEN : Nat := 256 * 1024

def MIN_PIECE_LEN : Nat := 16 * 1024

def MAX_PIECE_LEN : Nat := 4 * 1024 * 1024

/-- The largest blob this protocol transfers: 64 GiB. -/
def MAX_BLOB_LEN : Nat := 64 * 1024 * 1024 * 1024

inductive PieceError where
  | badPieceLen (pieceLen : Nat)
  | tooLarge (total : Nat)
  | pieceCountMismatch (declared expected : Nat)
  | notADigest (index : Nat)
  | malformed (field : String)
  | noSuchPiece (index pieces : Nat)
deriving DecidableEq

/-! ## The layout -/

/-- The piece lengths a manifest may declare. -/
def LegalPieceLen (pieceLen : Nat) : Prop :=
  MIN_PIECE_LEN ≤ pieceLen ∧ pieceLen ≤ MAX_PIECE_LEN ∧ isPowerOfTwo pieceLen = true

instance (pieceLen : Nat) : Decidable (LegalPieceLen pieceLen) :=
  inferInstanceAs (Decidable (_ ∧ _ ∧ _))

/-- How a blob of a given size divides into pieces. -/
structure Layout where
  total : Nat
  pieceLen : Nat
  legal : LegalPieceLen pieceLen
  bounded : total ≤ MAX_BLOB_LEN
deriving DecidableEq

def Layout.new (total pieceLen : Nat) : Except PieceError Layout :=
  if hlegal : ¬LegalPieceLen pieceLen then .error (.badPieceLen pieceLen)
  else if hbounded : MAX_BLOB_LEN < total then .error (.tooLarge total)
  else .ok ⟨total, pieceLen, not_not.mp hlegal, Nat.le_of_not_lt hbounded⟩

namespace Layout

variable (layout : Layout)

/-- How many pieces the blob has: the empty blob has one, of length zero. -/
def pieces : Nat := if layout.total = 0 then 1 else divCeil layout.total layout.pieceLen

/-- Where a piece starts. -/
def offsetOf (index : Nat) : Option Nat :=
  if layout.pieces ≤ index then none else some (index * layout.pieceLen)

/-- The declared length, except for the last piece, which is short. -/
def lenOf (index : Nat) : Option Nat := do
  let offset ← layout.offsetOf index
  some (min (layout.total - offset) layout.pieceLen)

def slice (data : List UInt8) (index : Nat) : Option (List UInt8) := do
  let offset ← layout.offsetOf index
  let len ← layout.lenOf index
  getRange data offset (offset + len)

theorem pieceLen_pos : 0 < layout.pieceLen := Nat.lt_of_lt_of_le (by decide) layout.legal.1

theorem pieces_pos : 0 < layout.pieces := by
  rw [pieces]
  split_ifs with h
  · exact Nat.one_pos
  · have hspec := divCeil_spec (n := layout.total) layout.pieceLen_pos
    refine Nat.pos_of_ne_zero fun hzero => ?_
    rw [hzero] at hspec
    omega

theorem pieces_le : layout.pieces ≤ 4 * 1024 * 1024 := by
  have hmin := layout.legal.1
  have hmax := layout.bounded
  rw [MIN_PIECE_LEN] at hmin
  rw [MAX_BLOB_LEN] at hmax
  rw [pieces]
  split_ifs with h
  · omega
  · have hspec := (divCeil_spec (n := layout.total) layout.pieceLen_pos).2
    by_contra hover
    have hmul : (4 * 1024 * 1024) * (16 * 1024) + layout.pieceLen ≤
        divCeil layout.total layout.pieceLen * layout.pieceLen := by
      calc (4 * 1024 * 1024) * (16 * 1024) + layout.pieceLen
          ≤ (4 * 1024 * 1024) * layout.pieceLen + layout.pieceLen := by omega
        _ = (4 * 1024 * 1024 + 1) * layout.pieceLen := by omega
        _ ≤ _ := Nat.mul_le_mul_right _ (by omega)
    omega

end Layout

/-! ## The manifest -/

/-- 64 lowercase hexadecimal digits, with or without the prefix. -/
def isDigest (text : String) : Bool := isHex64 ((stripDigestPrefix text).getD text)

/-- The piece hashes of one blob, and the digest they must add up to. -/
structure Manifest where
  digest : String
  layout : Layout
  pieces : List String
  length_pieces : pieces.length = layout.pieces
  digest_pieces : ∀ hash ∈ pieces, isDigest hash = true
deriving DecidableEq

/-- The record, where the hashes are as many as the blob has pieces and each is a
digest. -/
def Manifest.build (digest : String) (layout : Layout) (pieces : List String) :
    Except PieceError Manifest :=
  if hlength : pieces.length = layout.pieces then
    if hdigest : ∀ hash ∈ pieces, isDigest hash = true then
      .ok ⟨digest, layout, pieces, hlength, hdigest⟩
    else .error (.notADigest (pieces.findIdx fun hash => !isDigest hash))
  else .error (.pieceCountMismatch pieces.length layout.pieces)

/-- Rebuild a manifest received from a peer, checking its internal shape. -/
def Manifest.new (digest : String) (total pieceLen : Nat) (pieces : List String) :
    Except PieceError Manifest := do
  Manifest.build digest (← Layout.new total pieceLen) pieces

theorem Layout.new_eq_ok_iff {total pieceLen : Nat} {layout : Layout} :
    Layout.new total pieceLen = .ok layout ↔
      layout.total = total ∧ layout.pieceLen = pieceLen := by
  constructor
  · intro h
    unfold Layout.new at h
    split_ifs at h
    cases h
    exact ⟨rfl, rfl⟩
  · rintro ⟨rfl, rfl⟩
    rw [Layout.new, dif_neg (not_not.mpr layout.legal), dif_neg (Nat.not_lt.mpr layout.bounded)]

theorem Manifest.build_eq_ok_iff {digest : String} {layout : Layout} {pieces : List String}
    {m : Manifest} :
    Manifest.build digest layout pieces = .ok m ↔
      m.digest = digest ∧ m.layout = layout ∧ m.pieces = pieces := by
  constructor
  · intro h
    unfold Manifest.build at h
    split_ifs at h
    cases h
    exact ⟨rfl, rfl, rfl⟩
  · rintro ⟨rfl, rfl, rfl⟩
    rw [Manifest.build, dif_pos m.length_pieces, dif_pos m.digest_pieces]

/-- The constructor accepts the numbers and hashes that a manifest can have. -/
theorem Manifest.new_eq_ok_iff {digest : String} {total pieceLen : Nat} {pieces : List String}
    {m : Manifest} :
    Manifest.new digest total pieceLen pieces = .ok m ↔
      m.digest = digest ∧ m.layout.total = total ∧ m.layout.pieceLen = pieceLen ∧
        m.pieces = pieces := by
  constructor
  · intro h
    unfold Manifest.new at h
    cases hlayout : Layout.new total pieceLen with
    | error e =>
      rw [hlayout] at h
      cases h
    | ok layout =>
      rw [hlayout] at h
      obtain ⟨hdigest, hl, hpieces⟩ := Manifest.build_eq_ok_iff.mp h
      obtain ⟨htotal, hlen⟩ := Layout.new_eq_ok_iff.mp hlayout
      exact ⟨hdigest, hl ▸ htotal, hl ▸ hlen, hpieces⟩
  · rintro ⟨rfl, rfl, rfl, rfl⟩
    rw [Manifest.new, Layout.new_eq_ok_iff.mpr ⟨rfl, rfl⟩]
    exact Manifest.build_eq_ok_iff.mpr ⟨rfl, rfl, rfl⟩

namespace Manifest

/-- Canonical encoding: a manifest is a record like every other. -/
def toValue (m : Manifest) : Value :=
  .object
    [("digest", .string m.digest),
      ("total", .int (.ofUInt64 (UInt64.ofNat m.layout.total))),
      ("piece_len", .int (.ofUInt64 (UInt64.ofNat m.layout.pieceLen))),
      ("pieces", .array (m.pieces.map Value.string))]

/-- `u32::try_from`. -/
def toU32 (n : UInt64) : Option Nat := if n.toNat < 2 ^ 32 then some n.toNat else none

/-- Decode a manifest, validating as the constructor does. -/
def fromValue (value : Value) : Except PieceError Manifest := do
  let digest ← okOr (.malformed "digest") ((value.get "digest").bind Value.asStr)
  let total ← okOr (.malformed "total") ((value.get "total").bind Value.asU64)
  let pieceLen ← okOr (.malformed "piece_len")
    (((value.get "piece_len").bind Value.asU64).bind toU32)
  let items ← okOr (.malformed "pieces") ((value.get "pieces").bind Value.asArray)
  let pieces ← items.mapM fun item => okOr (.malformed "pieces") item.asStr
  Manifest.new digest total.toNat pieceLen pieces

theorem get_toValue (m : Manifest) :
    m.toValue.get "digest" = some (.string m.digest) ∧
      m.toValue.get "total" = some (.int (.ofUInt64 (UInt64.ofNat m.layout.total))) ∧
      m.toValue.get "piece_len" = some (.int (.ofUInt64 (UInt64.ofNat m.layout.pieceLen))) ∧
      m.toValue.get "pieces" = some (.array (m.pieces.map Value.string)) := by
  simp [toValue, Value.get_object, BTreeMap.lookupEntry]

theorem mapM_string {ε : Type} (error : ε) (texts : List String) :
    (texts.map Value.string).mapM (fun item => okOr error item.asStr) = .ok texts := by
  induction texts with
  | nil => rfl
  | cons text texts ih =>
    rw [List.map_cons, List.mapM_cons, ih]
    rfl

/-- The numbers of a layout are read back from 64 and from 32 bits. -/
theorem toNat_total (m : Manifest) : (UInt64.ofNat m.layout.total).toNat = m.layout.total :=
  UInt64.toNat_ofNat_of_lt' (Nat.lt_of_le_of_lt m.layout.bounded (by decide))

theorem toU32_pieceLen (m : Manifest) :
    toU32 (UInt64.ofNat m.layout.pieceLen) = some m.layout.pieceLen := by
  have hlt : m.layout.pieceLen < 2 ^ 32 :=
    Nat.lt_of_le_of_lt m.layout.legal.2.1 (by decide)
  rw [toU32, UInt64.toNat_ofNat_of_lt' (Nat.lt_trans hlt (by decide)), if_pos hlt]

/-- A manifest is read back. -/
theorem fromValue_toValue (m : Manifest) : fromValue m.toValue = .ok m := by
  obtain ⟨hdigest, htotal, hpieceLen, hpieces⟩ := m.get_toValue
  rw [fromValue, hdigest, htotal, hpieceLen, hpieces]
  simp only [Option.bind_some, Value.asStr_string, Value.asU64_ofUInt64, Value.asArray_array,
    toU32_pieceLen, okOr_some, bind, Except.bind, mapM_string, toNat_total]
  exact new_eq_ok_iff.mpr ⟨rfl, rfl, rfl, rfl⟩

variable [Sha256]

/-- Describe `data`, whose digest is computed here rather than taken on trust. -/
def of (data : List UInt8) (pieceLen : Nat) : Except PieceError Manifest := do
  let layout ← Layout.new data.length pieceLen
  -- The source writes the record without the two checks; they hold of it.
  Manifest.build (digestOf data) layout
    ((List.range layout.pieces).map fun index => digestOf ((layout.slice data index).getD []))

def pieceHash (m : Manifest) (index : Nat) : Option String := m.pieces[index]?

/-- Merkle root over the piece hashes. -/
def root (m : Manifest) : String := (merkleRoot m.pieces).getD (digestOf [])

/-- Is `bytes` the piece at `index`? -/
def verifyPiece (m : Manifest) (index : Nat) (bytes : List UInt8) : Bool :=
  match m.layout.lenOf index with
  | none => false
  | some expectedLen =>
    if bytes.length ≠ expectedLen then false
    else
      match m.pieceHash index with
      | some expected => digestOf bytes == expected
      | none => false

end Manifest

end Cairn.Ports.Swarm
