import Cairn.Ports.Swarm.Root
import Cairn.Ports.Swarm.Wire

/-!
# What fits a frame

The frame limit is derived from the longest piece. A manifest lists 74 bytes a
piece, so its length grows with the piece count, and the manifest of a long blob
in short pieces is over the limit although every layout it needs is legal.
-/

namespace Cairn.Ports.Swarm

open Cairn.Verified Cairn.Ports.Canonical
open Cairn.Ports.Dht (K)
open Cairn.Ports.Shards (divCeil divCeil_spec digestOf)

section Digest

variable [Sha256]

namespace Manifest

/-- The pieces that data is cut into, hashed. -/
def hashesOf (layout : Layout) (data : List UInt8) : List String :=
  (List.range layout.pieces).map fun index => digestOf ((layout.slice data index).getD [])

/-- A legal layout of the data has a manifest, which lists the digests of its
pieces. -/
theorem of_spec {data : List UInt8} {layout : Layout} (htotal : layout.total = data.length) :
    ∃ m, of data layout.pieceLen = .ok m ∧ m.digest = digestOf data ∧ m.layout = layout ∧
      m.pieces = hashesOf layout data := by
  have hlength : (hashesOf layout data).length = layout.pieces := by
    rw [hashesOf, List.length_map, List.length_range]
  have hdigest : ∀ hash ∈ hashesOf layout data, isDigest hash = true := by
    intro hash hhash
    obtain ⟨index, -, rfl⟩ := List.mem_map.mp hhash
    exact isDigest_digestBytes' _
  refine ⟨⟨digestOf data, layout, hashesOf layout data, hlength, hdigest⟩, ?_, rfl, rfl, rfl⟩
  rw [of, Layout.new_eq_ok_iff.mpr ⟨htotal, rfl⟩]
  exact build_eq_ok_iff.mpr ⟨rfl, rfl, rfl⟩

/-- Every manifest that describes data is one of these. -/
theorem of_eq_ok {data : List UInt8} {pieceLen : Nat} {m : Manifest}
    (h : of data pieceLen = .ok m) :
    m.layout.total = data.length ∧ m.layout.pieceLen = pieceLen ∧ m.digest = digestOf data ∧
      m.pieces = hashesOf m.layout data := by
  unfold of at h
  obtain ⟨layout, hlayout, hbuild⟩ := bind_eq_ok.mp h
  obtain ⟨htotal, hpieceLen⟩ := Layout.new_eq_ok_iff.mp hlayout
  obtain ⟨hdigest, rfl, hpieces⟩ := build_eq_ok_iff.mp hbuild
  exact ⟨htotal, hpieceLen, hdigest, hpieces⟩

/-- The pieces of so many bytes. -/
def piecesOf (total pieceLen : Nat) : Nat := if total = 0 then 1 else divCeil total pieceLen

/-- The length of the manifest of so many bytes. -/
def recordLen (total pieceLen : Nat) : Nat :=
  117 + decimalDigits total + decimalDigits pieceLen + 74 * piecesOf total pieceLen

theorem size_of {data : List UInt8} {pieceLen : Nat} {m : Manifest} (h : of data pieceLen = .ok m) :
    m.toValue.size = recordLen data.length pieceLen := by
  obtain ⟨htotal, hpieceLen, hdigest, hpieces⟩ := of_eq_ok h
  have hdigestSize : escapedSize m.digest = 73 := by
    rw [← size_string, hdigest]
    exact size_digestBytes _
  have hsum : (m.pieces.map fun hash => (Value.string hash).size + 1).sum =
      74 * m.layout.pieces := by
    have hconst : m.pieces.map (fun hash => (Value.string hash).size + 1) =
        List.replicate m.layout.pieces 74 := by
      rw [hpieces, hashesOf, List.map_map]
      refine List.eq_replicate_iff.mpr ⟨by rw [List.length_map, List.length_range], ?_⟩
      intro n hn
      obtain ⟨index, -, rfl⟩ := List.mem_map.mp hn
      exact congrArg (· + 1) (size_digestBytes _)
    rw [hconst, List.sum_replicate, smul_eq_mul, Nat.mul_comm]
  have harray : (Value.array (m.pieces.map Value.string)).size = 1 + 74 * m.layout.pieces := by
    have hne : m.pieces.map Value.string ≠ [] := by
      intro hnil
      have hpos := m.layout.pieces_pos
      rw [← m.length_pieces, List.map_eq_nil_iff.mp hnil] at hpos
      exact absurd hpos (by decide)
    rw [Value.size_array hne, List.map_map]
    exact congrArg (1 + ·) hsum
  have hkeys : escapedSize "digest" = 8 ∧ escapedSize "total" = 7 ∧
      escapedSize "piece_len" = 11 ∧ escapedSize "pieces" = 8 := by decide
  have hpl : (UInt64.ofNat m.layout.pieceLen).toNat = m.layout.pieceLen :=
    UInt64.toNat_ofNat_of_lt' (Nat.lt_of_le_of_lt m.layout.legal.2.1 (by decide))
  have hcount : m.layout.pieces = piecesOf data.length pieceLen := by
    rw [piecesOf, ← htotal, ← hpieceLen]
    rfl
  rw [toValue, Value.size_object (by simp) (by simp)]
  simp only [List.map_cons, List.map_nil, List.sum_cons, List.sum_nil, size_string, size_ofUInt64,
    toNat_total, hpl, harray, hdigestSize]
  rw [recordLen, ← hcount, ← htotal, ← hpieceLen]
  omega

end Manifest

end Digest

namespace Message

/-- A message arrives: the length its frame starts with is accepted, and its body
is read back. -/
def Carried (m : Message) (pieces : Option UInt32) : Prop :=
  checkFrameLen m.frameLen = .ok m.encode.length ∧ decode m.encode pieces = .ok m

/-- The length of a body that 32 bits hold is accepted up to the limit. -/
theorem checkFrameLen_frameLen {m : Message} (h : m.encode.length < 2 ^ 32) :
    checkFrameLen m.frameLen = .ok m.encode.length ↔ m.encode.length ≤ MAX_FRAME := by
  have hlen : m.frameLen.toNat = m.encode.length := UInt32.toNat_ofNat_of_lt' h
  rw [checkFrameLen, hlen]
  split_ifs with hover
  · refine ⟨fun heq => ?_, fun hle => absurd hover (Nat.not_lt.mpr hle)⟩
    cases heq
  · exact ⟨fun _ => Nat.le_of_not_lt hover, fun _ => rfl⟩

theorem length_jsonBytes (v : Value) : (jsonBytes v).length = v.size := Array.length_toList

theorem size_recordsValue {records : List SignedRecord} {bound : Nat}
    (hlength : records.length ≤ bound) (hfits : ∀ r ∈ records, r.Fits) :
    (recordsValue records).size ≤ 2 + bound * (RECORD_ROOM + 1) := by
  refine Value.size_array_le (by rwa [List.length_map]) fun v hv => ?_
  obtain ⟨r, hr, rfl⟩ := List.mem_map.mp hv
  exact (hfits r hr).size

theorem size_nodesValue {closer providers : List SignedRecord} (hcloser : closer.length ≤ K)
    (hproviders : providers.length ≤ K) (hfitsCloser : ∀ r ∈ closer, r.Fits)
    (hfitsProviders : ∀ r ∈ providers, r.Fits) :
    (nodesValue closer providers).size ≤ 29 + 2 * (K * (RECORD_ROOM + 1)) := by
  have hfirst := size_recordsValue hcloser hfitsCloser
  have hsecond := size_recordsValue hproviders hfitsProviders
  have hkeys : escapedSize "closer" = 8 ∧ escapedSize "providers" = 11 := by decide
  rw [nodesValue, Value.size_object (by simp) (by simp)]
  simp only [List.map_cons, List.map_nil, List.sum_cons, List.sum_nil]
  omega

/-- Whether the length depends on how many pieces the blob has. -/
def countsPieces : Message → Bool
  | .manifest _ => true
  | .bitfield _ => true
  | _ => false

/-- The messages whose length does not depend on the blob fit. -/
theorem length_encode_le {m : Message} {pieces : UInt32} (hlimits : m.WithinLimits pieces)
    (hcounts : m.countsPieces = false) : m.encode.length ≤ MAX_FRAME := by
  have hframe : MAX_FRAME = 4195328 := rfl
  have hindex : ∀ n : UInt32, (toBeBytes n).length = 4 := fun n => rfl
  cases m with
  | manifest m => cases hcounts
  | bitfield f => cases hcounts
  | piece index bytes =>
    have hlength : bytes.length ≤ 4 * 1024 * 1024 := hlimits
    rw [encode, List.length_cons, List.length_append, hindex]
    omega
  | peers records =>
    have hsize : (recordsValue records).size ≤ 2 + 32 * (100 * 1024 + 1) :=
      size_recordsValue hlimits.1 hlimits.2
    rw [encode, List.length_cons, length_jsonBytes]
    omega
  | nodes closer providers =>
    obtain ⟨hcloser, hproviders, hfitsCloser, hfitsProviders⟩ := hlimits
    have hsize : (nodesValue closer providers).size ≤ 29 + 2 * (20 * (100 * 1024 + 1)) :=
      size_nodesValue hcloser hproviders hfitsCloser hfitsProviders
    rw [encode, List.length_cons, length_jsonBytes]
    omega
  | findNode key =>
    rw [encode, List.length_cons, Vector.length_toList]
    omega
  | announce key =>
    rw [encode, List.length_cons, Vector.length_toList]
    omega
  | wantManifest => exact Nat.le_of_ble_eq_true rfl
  | have_ index => exact Nat.le_of_ble_eq_true rfl
  | interested yes => exact Nat.le_of_ble_eq_true rfl
  | choke yes => exact Nat.le_of_ble_eq_true rfl
  | request index => exact Nat.le_of_ble_eq_true rfl
  | cancel index => exact Nat.le_of_ble_eq_true rfl
  | wantPeers => exact Nat.le_of_ble_eq_true rfl

theorem carried_manifest [Sha256] {data : List UInt8} {pieceLen : Nat} {m : Manifest}
    (h : Manifest.of data pieceLen = .ok m) (pieces : UInt32) :
    Carried (.manifest m) (some pieces) ↔
      1 + Manifest.recordLen data.length pieceLen ≤ MAX_FRAME := by
  have hlength : (encode (.manifest m)).length = 1 + Manifest.recordLen data.length pieceLen := by
    rw [encode, List.length_cons, length_jsonBytes, Manifest.size_of h, Nat.add_comm]
  obtain ⟨htotal, hpieceLen, -⟩ := Manifest.of_eq_ok h
  have hcount := m.layout.pieces_le
  have hpieces : m.layout.pieces = Manifest.piecesOf data.length pieceLen := by
    rw [Manifest.piecesOf, ← htotal, ← hpieceLen]
    rfl
  have htotalDigits : decimalDigits data.length ≤ 20 := by
    rw [← htotal]
    exact decimalDigits_le (by decide) (Nat.lt_of_le_of_lt m.layout.bounded (by decide))
  have hlenDigits : decimalDigits pieceLen ≤ 20 := by
    rw [← hpieceLen]
    exact decimalDigits_le (by decide) (Nat.lt_of_le_of_lt m.layout.legal.2.1 (by decide))
  have hsmall : (encode (.manifest m)).length < 2 ^ 32 := by
    rw [hlength, Manifest.recordLen, ← hpieces]
    omega
  rw [← hlength, ← checkFrameLen_frameLen hsmall]
  exact ⟨fun hcarried => hcarried.1, fun hcheck => ⟨hcheck, decode_encode_of_limits trivial⟩⟩

theorem carried_bitfield {f : Bitfield} {pieces : UInt32} (h : f.len = pieces.toNat) :
    Carried (.bitfield f) (some pieces) ↔ 1 + divCeil f.len 8 ≤ MAX_FRAME := by
  have hlength : (encode (.bitfield f)).length = 1 + divCeil f.len 8 := by
    rw [encode, List.length_cons, f.length_bits, Nat.add_comm]
  have hlt := pieces.toNat_lt
  have hspec := divCeil_spec (n := f.len) (d := 8) (by decide)
  have hsmall : (encode (.bitfield f)).length < 2 ^ 32 := by
    rw [hlength]
    omega
  rw [← hlength, ← checkFrameLen_frameLen hsmall]
  exact ⟨fun hcarried => hcarried.1, fun hcheck => ⟨hcheck, decode_encode_of_limits h⟩⟩

/-- A manifest arrives where its record and its tag fit a frame, a bitfield where
its bytes do, every other message within its limits arrives, and the messages that
are not JSON have one encoding. -/
theorem carried_iff [Sha256] :
    (∀ (data : List UInt8) (pieceLen : Nat) (m : Manifest) (pieces : UInt32),
      Manifest.of data pieceLen = .ok m →
        (Carried (.manifest m) (some pieces) ↔
          1 + Manifest.recordLen data.length pieceLen ≤ MAX_FRAME)) ∧
      (∀ (f : Bitfield) (pieces : UInt32), f.len = pieces.toNat →
        (Carried (.bitfield f) (some pieces) ↔ 1 + divCeil f.len 8 ≤ MAX_FRAME)) ∧
      (∀ (m : Message) (pieces : UInt32), m.WithinLimits pieces → m.countsPieces = false →
        Carried m (some pieces)) ∧
      ∀ (body : List UInt8) (pieces : Option UInt32) (m : Message),
        decode body pieces = .ok m → m.isJson = false → m.encode = body := by
  refine ⟨fun data pieceLen m pieces h => carried_manifest h pieces,
    fun f pieces h => carried_bitfield h, fun m pieces hlimits hcounts => ?_,
    fun body pieces m h hjson => encode_decode h hjson⟩
  have hle := length_encode_le hlimits hcounts
  have hsmall : m.encode.length < 2 ^ 32 := Nat.lt_of_le_of_lt hle (by decide)
  exact ⟨(checkFrameLen_frameLen hsmall).mpr hle, decode_encode_of_limits hlimits⟩

theorem carried_iff_sample : letI := Sample.hash
    (∃ m, Manifest.of [] MIN_PIECE_LEN = .ok m ∧
      (Carried (.manifest m) (some 1) ↔ 1 + Manifest.recordLen 0 MIN_PIECE_LEN ≤ MAX_FRAME)) ∧
      (Carried (.bitfield (.new 3)) (some 3) ↔ 1 + divCeil 3 8 ≤ MAX_FRAME) ∧
      Carried (.piece 7 [1, 2, 3]) (some 8) ∧ encode (.interested false) = [6] := by
  let _ := Sample.hash
  obtain ⟨m, hm, -⟩ := @Manifest.of_spec _ [] Sample.plain.layout rfl
  exact ⟨⟨m, hm, carried_iff.1 [] MIN_PIECE_LEN m 1 hm⟩, carried_iff.2.1 (.new 3) 3 rfl,
    carried_iff.2.2.1 (.piece 7 [1, 2, 3]) 8 (by simp [WithinLimits, MAX_PIECE_LEN]) rfl,
    carried_iff.2.2.2 [6] none (.interested false) rfl rfl⟩

/-- A gigabyte in pieces of 16 KiB has a manifest over the limit. -/
theorem not_carried : letI := Sample.hash
    ¬ ∀ (data : List UInt8) (pieceLen : Nat) (m : Manifest) (pieces : UInt32),
      Manifest.of data pieceLen = .ok m → Carried (.manifest m) (some pieces) := by
  let _ := Sample.hash
  intro h
  let layout : Layout := ⟨2 ^ 30, MIN_PIECE_LEN, by decide, by decide⟩
  have hlength : (List.replicate (2 ^ 30) (0 : UInt8)).length = 2 ^ 30 := List.length_replicate
  obtain ⟨m, hm, -⟩ := @Manifest.of_spec _ _ layout hlength.symm
  have hfits := (carried_manifest hm 65536).mp (h _ _ m 65536 hm)
  have hpieces : Manifest.piecesOf (2 ^ 30) layout.pieceLen = 65536 := by decide
  have hframe : MAX_FRAME = 4195328 := rfl
  rw [hlength, Manifest.recordLen, hpieces] at hfits
  omega

end Message

end Cairn.Ports.Swarm
