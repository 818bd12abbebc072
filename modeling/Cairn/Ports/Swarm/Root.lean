import Cairn.Ports.Swarm.Piece
import Cairn.Ports.Canonical.Size
import Cairn.Verified.HashTree

/-!
# What a manifest's root and hashes say

The root is the label of the tree over the piece hashes. The tree has no domain
separation and does not say how many leaves it has, so a root fixes the piece
hashes among manifests of one piece count only: the digest of two joined hashes
can be listed as a piece hash of its own, and then the two trees lie over each
other.

The constructor accepts a hash with and without the `sha256:` prefix. A piece on
arrival is compared with the prefix, so a piece whose hash was listed without it
is refused whatever its bytes are.
-/

namespace Cairn.Ports.Swarm

open Cairn.Verified Cairn.Verified.HashTree Cairn.Ports.Canonical
open Cairn.Ports.Shards (digestOf)

/-! ## Spelled digests -/

/-- A spelling with the prefix starts with `s`, one without starts with a
digit, so the first character tells the length. -/
theorem isDigest_length {text : String} (h : isDigest text = true) :
    text.toList.length = if text.toList.head? = some 's' then 71 else 64 := by
  unfold isDigest stripDigestPrefix at h
  split_ifs at h with htake
  · rw [Option.getD_some, isHex64, String.toList_ofList, Bool.and_eq_true,
      decide_eq_true_eq, List.length_drop] at h
    have hsplit := List.take_append_drop 7 text.toList
    rw [htake] at hsplit
    have hhead : text.toList.head? = some 's' := by
      rw [← hsplit]
      rfl
    rw [if_pos hhead]
    omega
  · rw [Option.getD_none, isHex64, Bool.and_eq_true, decide_eq_true_eq, List.all_eq_true] at h
    rw [if_neg, h.1]
    intro hhead
    exact absurd (h.2 's' (List.mem_of_mem_head? hhead)) (by decide)

theorem head?_append_of_isDigest {a : String} (b : String) (h : isDigest a = true) :
    (a ++ b).toList.head? = a.toList.head? := by
  have hlength := isDigest_length h
  rw [String.toList_append]
  cases ha : a.toList with
  | nil =>
    rw [ha] at hlength
    simp at hlength
  | cons x xs => rfl

/-- What is joined can be read back. -/
theorem append_inj_of_isDigest {a b c d : String} (ha : isDigest a = true)
    (hc : isDigest c = true) (h : a ++ b = c ++ d) : a = c ∧ b = d := by
  have hlength : a.toList.length = c.toList.length := by
    rw [isDigest_length ha, isDigest_length hc, ← head?_append_of_isDigest b ha,
      ← head?_append_of_isDigest d hc, h]
  have hlist := congrArg String.toList h
  rw [String.toList_append, String.toList_append] at hlist
  obtain ⟨hac, hbd⟩ := List.append_inj hlist hlength
  exact ⟨String.toList_inj.mp hac, String.toList_inj.mp hbd⟩

/-- A text of 64 digits is a digest without its prefix. -/
theorem isDigest_of_hex {hex : List Char} (hlength : hex.length = 64)
    (hhex : ∀ c ∈ hex, isHexDigit c = true) :
    stripDigestPrefix (String.ofList hex) = none ∧ isDigest (String.ofList hex) = true := by
  have hstrip : stripDigestPrefix (String.ofList hex) = none := by
    rw [stripDigestPrefix, String.toList_ofList, if_neg]
    intro htake
    have hmem : 's' ∈ hex.take 7 := by
      rw [htake]
      decide
    exact absurd (hhex 's' (List.mem_of_mem_take hmem)) (by decide)
  refine ⟨hstrip, ?_⟩
  rw [isDigest, hstrip, Option.getD_none, isHex64, String.toList_ofList, Bool.and_eq_true,
    decide_eq_true_eq, List.all_eq_true]
  exact ⟨hlength, hhex⟩

/-- 32 bytes spelled with the prefix. -/
theorem isDigest_spelled {bytes : List UInt8} (h : bytes.length = 32) :
    isDigest (DIGEST_PREFIX ++ String.ofList (hexEncode bytes)) = true := by
  have hstrip : stripDigestPrefix (DIGEST_PREFIX ++ String.ofList (hexEncode bytes)) =
      some (String.ofList (hexEncode bytes)) := by
    rw [stripDigestPrefix, String.toList_append, String.toList_ofList]
    rfl
  rw [isDigest, hstrip, Option.getD_some, isHex64, String.toList_ofList, length_hexEncode, h,
    Bool.and_eq_true, List.all_eq_true]
  exact ⟨rfl, fun c hc => isHexDigit_of_mem_hexEncode hc⟩

section Digest

variable [Sha256]

theorem stripDigestPrefix_digestBytes (data : ByteArray) :
    stripDigestPrefix (digestBytes data) =
      some (String.ofList (hexEncode (Sha256.hash data).toList)) := by
  rw [stripDigestPrefix, toList_digestBytes]
  rfl

theorem isDigest_digestBytes' (data : ByteArray) : isDigest (digestBytes data) = true :=
  isDigest_spelled (by rw [Vector.length_toList])

/-! ## The tree under a root -/

/-- What an inner node is labelled with. -/
def joinDigest (a b : String) : String := digestText (a ++ b)

theorem pairLevel_eq_pairUp (level : List (HashTree String)) :
    pairLevel (level.map (label joinDigest)) = (pairUp level).map (label joinDigest) := by
  induction level using pairUp.induct with
  | case1 a b rest ih =>
    rw [List.map_cons, List.map_cons, pairLevel, ih, pairUp, List.map_cons]
    rfl
  | case2 a => rfl
  | case3 => rfl

theorem reduceLevels_eq_grow (fuel : Nat) (level : List (HashTree String)) :
    reduceLevels fuel (level.map (label joinDigest)) =
      (grow fuel level).map (label joinDigest) := by
  induction fuel generalizing level with
  | zero => rfl
  | succ fuel ih =>
    rw [reduceLevels, grow, List.length_map]
    split_ifs with h
    · rw [pairLevel_eq_pairUp, ih]
    · rfl

theorem map_label_leaf (xs : List String) : (xs.map leaf).map (label joinDigest) = xs := by
  rw [List.map_map]
  exact List.map_id xs

/-- The root is the label of the tree over the leaves. -/
theorem merkleRoot_eq_label (xs : List String) :
    merkleRoot xs = (ofLeaves xs).map (label joinDigest) := by
  have h := reduceLevels_eq_grow xs.length (xs.map leaf)
  rw [map_label_leaf] at h
  rw [merkleRoot, h, List.head?_map, ofLeaves]

variable {p : String × String} {t : HashTree String}

/-- What one level hashes is what its pairs join. -/
theorem joins_pairUp {level : List (HashTree String)} (ht : t ∈ pairUp level)
    (hp : p ∈ t.joins joinDigest) :
    (∃ u ∈ level, p ∈ u.joins joinDigest) ∨
      p.1 ++ p.2 ∈ pairInputs (level.map (label joinDigest)) := by
  induction level using pairUp.induct with
  | case1 a b rest ih =>
    rcases List.mem_cons.mp ht with rfl | ht
    · rcases List.mem_cons.mp hp with rfl | hp
      · exact .inr (List.mem_cons_self ..)
      · rcases List.mem_append.mp hp with hp | hp
        · exact .inl ⟨a, by simp, hp⟩
        · exact .inl ⟨b, by simp, hp⟩
    · rcases ih ht with ⟨u, hu, hp⟩ | hp
      · exact .inl ⟨u, by simp [hu], hp⟩
      · exact .inr (List.mem_cons_of_mem _ hp)
  | case2 a => exact .inl ⟨t, ht, hp⟩
  | case3 => cases ht

theorem joins_grow (fuel : Nat) {level : List (HashTree String)} (ht : t ∈ grow fuel level)
    (hp : p ∈ t.joins joinDigest) :
    (∃ u ∈ level, p ∈ u.joins joinDigest) ∨
      p.1 ++ p.2 ∈ reduceInputs fuel (level.map (label joinDigest)) := by
  induction fuel generalizing level with
  | zero => exact .inl ⟨t, ht, hp⟩
  | succ fuel ih =>
    rw [grow] at ht
    rw [reduceInputs, List.length_map]
    split_ifs at ht ⊢ with hlen
    · rw [pairLevel_eq_pairUp]
      rcases ih ht with ⟨u, hu, hpu⟩ | hp
      · rcases joins_pairUp hu hpu with hlevel | hpair
        · exact .inl hlevel
        · exact .inr (List.mem_append_left _ hpair)
      · exact .inr (List.mem_append_right _ hp)
    · exact .inl ⟨t, ht, hp⟩

theorem joins_ofLeaves {xs : List String} (ht : ofLeaves xs = some t) (hp : p ∈ t.joins joinDigest) :
    p.1 ++ p.2 ∈ merkleInputs xs := by
  rcases joins_grow xs.length (List.mem_of_mem_head? ht) hp with ⟨u, hu, hpu⟩ | h
  · obtain ⟨x, -, rfl⟩ := List.mem_map.mp hu
    cases hpu
  · rwa [map_label_leaf] at h

/-- Over digests every label is one. -/
theorem isDigest_label (h : ∀ x ∈ t.fringe, isDigest x = true) :
    isDigest (t.label joinDigest) = true := by
  cases t with
  | leaf a => exact h a (List.mem_singleton_self a)
  | node l r => exact isDigest_digestBytes' _

theorem isDigest_joins (h : ∀ x ∈ t.fringe, isDigest x = true) (hp : p ∈ t.joins joinDigest) :
    isDigest p.1 = true := by
  induction t with
  | leaf a => cases hp
  | node l r ihl ihr =>
    have hl : ∀ x ∈ l.fringe, isDigest x = true := fun x hx => h x (List.mem_append_left _ hx)
    rcases List.mem_cons.mp hp with rfl | hp
    · exact isDigest_label hl
    · rcases List.mem_append.mp hp with hp | hp
      · exact ihl hl hp
      · exact ihr (fun x hx => h x (List.mem_append_right _ hx)) hp

namespace Manifest

omit [Sha256] in
theorem pieces_ne_nil (m : Manifest) : m.pieces ≠ [] := by
  intro h
  have hpos := m.layout.pieces_pos
  rw [← m.length_pieces, h] at hpos
  exact absurd hpos (by decide)

/-- The tree over the piece hashes. -/
def tree (m : Manifest) : HashTree String := (ofLeaves m.pieces).getD (leaf "")

omit [Sha256] in
theorem tree_spec (m : Manifest) : ofLeaves m.pieces = some m.tree ∧ m.tree.fringe = m.pieces := by
  obtain ⟨t, ht, hfringe⟩ := ofLeaves_fringe m.pieces_ne_nil
  have htree : m.tree = t := by rw [tree, ht, Option.getD_some]
  exact ⟨htree ▸ ht, htree ▸ hfringe⟩

theorem root_eq_label (m : Manifest) : m.root = m.tree.label joinDigest := by
  rw [root, merkleRoot_eq_label, m.tree_spec.1]
  rfl

/-- What the roots of two manifests hash. -/
def RootTexts (m m' : Manifest) (text : String) : Prop :=
  text ∈ merkleInputs m.pieces ∨ text ∈ merkleInputs m'.pieces

/-- The trees of two manifests, laid over each other from the root down, agree:
where one has ended in a piece hash, that hash is the label of what the other
still has there. -/
def Overlays (m m' : Manifest) : Prop := Overlay joinDigest m.tree m'.tree

variable {m m' : Manifest}

theorem root_eq_iff (hcoll : NoCollision (RootTexts m m')) : m.root = m'.root ↔ Overlays m m' := by
  have hfringe : ∀ x ∈ m.tree.fringe, isDigest x = true := by
    rw [m.tree_spec.2]
    exact m.digest_pieces
  have hfringe' : ∀ x ∈ m'.tree.fringe, isDigest x = true := by
    rw [m'.tree_spec.2]
    exact m'.digest_pieces
  rw [root_eq_label, root_eq_label]
  have hinj : ∀ p q : String × String, (isDigest p.1 = true ∧ RootTexts m m' (p.1 ++ p.2)) →
      (isDigest q.1 = true ∧ RootTexts m m' (q.1 ++ q.2)) →
      joinDigest p.1 p.2 = joinDigest q.1 q.2 → p = q := by
    intro p q hp hq h
    obtain ⟨hfirst, hsecond⟩ := append_inj_of_isDigest hp.1 hq.1 (hcoll _ _ hp.2 hq.2 h)
    exact Prod.ext hfirst hsecond
  refine label_eq_iff_overlay hinj ?_ ?_
  · exact fun p hp => ⟨isDigest_joins hfringe hp, .inl (joins_ofLeaves m.tree_spec.1 hp)⟩
  · exact fun p hp => ⟨isDigest_joins hfringe' hp, .inr (joins_ofLeaves m'.tree_spec.1 hp)⟩

omit [Sha256] in
/-- Trees over as many pieces have one shape. -/
theorem shape_tree (hlength : m.pieces.length = m'.pieces.length) : m.tree.shape = m'.tree.shape :=
  shape_ofLeaves hlength m.tree_spec.1 m'.tree_spec.1

/-- A root fixes the pieces unless the piece counts differ and the trees lie over
each other. -/
theorem root_binds_iff (hcoll : NoCollision (RootTexts m m')) :
    (m.root = m'.root → m.pieces = m'.pieces) ↔
      m.pieces.length = m'.pieces.length ∨ ¬ Overlays m m' := by
  rw [root_eq_iff hcoll]
  constructor
  · intro h
    by_cases hover : Overlays m m'
    · exact .inl (congrArg List.length (h hover))
    · exact .inr hover
  · rintro (hlength | hover) h
    · have htree : m.tree = m'.tree := h.eq_of_shape (shape_tree hlength)
      rw [← m.tree_spec.2, ← m'.tree_spec.2, htree]
    · exact absurd h hover

/-! ## A piece on arrival -/

/-- The text spells the SHA-256 of these bytes, with or without the prefix. -/
def Names (hash : String) (bytes : List UInt8) : Prop :=
  ((stripDigestPrefix hash).getD hash).toList =
    hexEncode (Sha256.hash (ByteArray.mk bytes.toArray)).toList

/-- A piece that hashes to its listed hash is accepted exactly where the hash is
listed with its prefix. -/
theorem verifyPiece_iff {index : Nat} {bytes : List UInt8} {hash : String}
    (hlen : m.layout.lenOf index = some bytes.length) (hhash : m.pieceHash index = some hash)
    (hnames : Names hash bytes) :
    m.verifyPiece index bytes = true ↔ (stripDigestPrefix hash).isSome = true := by
  simp only [verifyPiece, hlen, hhash, ne_eq, not_true_eq_false, if_false, beq_iff_eq]
  constructor
  · intro h
    rw [← h, digestOf, stripDigestPrefix_digestBytes]
    rfl
  · intro h
    unfold Names at hnames
    unfold stripDigestPrefix at h hnames
    split_ifs at h hnames with htake
    · rw [Option.getD_some, String.toList_ofList] at hnames
      rw [digestOf, digestBytes, ← hnames]
      refine String.toList_inj.mp ?_
      rw [String.toList_append, String.toList_ofList, ← htake, List.take_append_drop]
    · cases h

/-- Among the manifests that the constructor accepts, a root fixes the pieces
exactly where the piece counts agree or the trees do not lie over each other; and
a piece of the right length that hashes to its listed hash is accepted exactly
where that hash is listed with its prefix. -/
theorem means_iff :
    (∀ m m' : Manifest, NoCollision (RootTexts m m') →
      ((m.root = m'.root → m.pieces = m'.pieces) ↔
        m.pieces.length = m'.pieces.length ∨ ¬ Overlays m m')) ∧
      ∀ (m : Manifest) (index : Nat) (bytes : List UInt8) (hash : String),
        m.layout.lenOf index = some bytes.length → m.pieceHash index = some hash →
          Names hash bytes →
            (m.verifyPiece index bytes = true ↔ (stripDigestPrefix hash).isSome = true) :=
  ⟨fun _ _ hcoll => root_binds_iff hcoll, fun _ _ _ _ hlen hhash hnames =>
    verifyPiece_iff hlen hhash hnames⟩

end Manifest

end Digest

/-! ## Two manifests with one root -/

namespace Sample

def first : String := "sha256:5feceb66ffc86f38d952786c6d696c79c2dbc239dd4e91b46729d73a27fb57e9"

def second : String := "sha256:6b86b273ff34fce19d6b804eff5a3f5747ada4eaa22f1d49c01e52ddb7875b4b"

def third : String := "sha256:d4735e3a265e16eee03f59718b9b5d03019c07d8b6c51f90da3a666eec13ab35"

/-- The digest of the first two hashes joined. -/
def joined : String :=
  DIGEST_PREFIX ++ String.ofList (hexEncode (digestOfNat
    0x5c472b6b0a5369a37f4dfb632f417da009de3f15bcabf00c6010370f91fc5aa7).toList)

/-- The digest of no bytes, listed without its prefix. -/
def plainEmpty : String :=
  String.ofList (hexEncode (digestOfNat
    0xe3b0c44298fc1c149afbf4c8996fb92427ae41e4649b934ca495991b7852b855).toList)

/-- SHA-256 on the two texts under the root and on no bytes. -/
@[reducible] def hash : Sha256 :=
  .ofTable
    [(first ++ second, 0x5c472b6b0a5369a37f4dfb632f417da009de3f15bcabf00c6010370f91fc5aa7),
      (joined ++ third, 0x7fba708b9a36da686eae3cf41021e1da31f3a9105a4312e81d8938b38f0e3a4b),
      ("", 0xe3b0c44298fc1c149afbf4c8996fb92427ae41e4649b934ca495991b7852b855)]

theorem isDigest_joined : isDigest joined = true :=
  isDigest_spelled (by rw [Vector.length_toList])

theorem plainEmpty_spec : stripDigestPrefix plainEmpty = none ∧ isDigest plainEmpty = true :=
  isDigest_of_hex (by rw [length_hexEncode, Vector.length_toList])
    fun _ hc => isHexDigit_of_mem_hexEncode hc

/-- Three pieces. -/
def three : Manifest where
  digest := first
  layout := ⟨3 * MIN_PIECE_LEN, MIN_PIECE_LEN, by decide, by decide⟩
  pieces := [first, second, third]
  length_pieces := by decide
  digest_pieces := by decide

/-- Two pieces, the first listed under the digest of two joined hashes. -/
def two : Manifest where
  digest := first
  layout := ⟨2 * MIN_PIECE_LEN, MIN_PIECE_LEN, by decide, by decide⟩
  pieces := [joined, third]
  length_pieces := by decide
  digest_pieces := by
    intro h hh
    rcases List.mem_pair.mp hh with rfl | rfl
    · exact isDigest_joined
    · decide

/-- The empty blob, its one piece listed without the prefix. -/
def plain : Manifest where
  digest := first
  layout := ⟨0, MIN_PIECE_LEN, by decide, by decide⟩
  pieces := [plainEmpty]
  length_pieces := rfl
  digest_pieces := by
    intro h hh
    rw [List.mem_singleton.mp hh]
    exact plainEmpty_spec.2

theorem joined_ne : (joined ++ third) ≠ first ++ second := by
  intro h
  have hjoined := (append_inj_of_isDigest isDigest_joined (by decide) h).2
  exact absurd hjoined (by decide)

theorem digestText_pair : letI := hash
    digestText (first ++ second) = joined := by
  let _ := hash
  rw [digestText, digestBytes, Sha256.hash_ofTable, List.find?_cons_of_pos (by simp)]
  rfl

theorem digestText_top : letI := hash
    digestText (joined ++ third) = DIGEST_PREFIX ++ String.ofList (hexEncode (digestOfNat
      0x7fba708b9a36da686eae3cf41021e1da31f3a9105a4312e81d8938b38f0e3a4b).toList) := by
  let _ := hash
  rw [digestText, digestBytes, Sha256.hash_ofTable,
    List.find?_cons_of_neg (by simpa using joined_ne.symm), List.find?_cons_of_pos (by simp)]
  rfl

theorem hash_empty : letI := hash
    Sha256.hash (ByteArray.mk #[]) = digestOfNat
      0xe3b0c44298fc1c149afbf4c8996fb92427ae41e4649b934ca495991b7852b855 := by
  let _ := hash
  have hfirst : ∀ a b : String, isDigest a = true → a ++ b ≠ "" := by
    intro a b ha h
    have hlength := isDigest_length ha
    have hnil := congrArg String.toList h
    rw [String.toList_append] at hnil
    rw [(List.append_eq_nil_iff.mp hnil).1] at hlength
    simp at hlength
  rw [show ByteArray.mk #[] = "".toUTF8 from rfl, Sha256.hash_ofTable,
    List.find?_cons_of_neg (by simpa using hfirst first second (by decide)),
    List.find?_cons_of_neg (by simpa using hfirst joined third isDigest_joined),
    List.find?_cons_of_pos (by simp)]
  rfl

theorem names_plainEmpty : letI := hash
    Manifest.Names plainEmpty [] := by
  let _ := hash
  rw [Manifest.Names, plainEmpty_spec.1, Option.getD_none, plainEmpty, String.toList_ofList,
    ← hash_empty]

theorem merkleInputs_three : letI := hash
    merkleInputs three.pieces = [first ++ second, joined ++ third] := by
  let _ := hash
  simp [merkleInputs, reduceInputs, pairInputs, pairLevel, three, digestText_pair]

theorem merkleInputs_two : letI := hash
    merkleInputs two.pieces = [joined ++ third] := by
  let _ := hash
  simp [merkleInputs, reduceInputs, pairInputs, pairLevel, two]

theorem root_eq : letI := hash
    three.root = two.root := by
  let _ := hash
  simp [Manifest.root, merkleRoot, reduceLevels, pairLevel, three, two, digestText_pair]

theorem noCollision : letI := hash
    NoCollision (Manifest.RootTexts three two) := by
  let _ := hash
  have hdigests : digestText (first ++ second) ≠ digestText (joined ++ third) := by
    rw [digestText_pair, digestText_top, joined]
    intro h
    have hlist := congrArg String.toList h
    rw [String.toList_append, String.toList_append, String.toList_ofList,
      String.toList_ofList] at hlist
    have hhead := congrArg List.head? (List.append_cancel_left hlist)
    exact absurd hhead (by decide)
  have hnodup : ([first ++ second, joined ++ third].map digestText).Nodup := by
    simp [hdigests]
  refine noCollision_of_nodup hnodup fun text htext => ?_
  rw [Manifest.RootTexts, merkleInputs_three, merkleInputs_two] at htext
  rcases htext with h | h
  · exact h
  · exact List.mem_cons_of_mem _ h

end Sample

theorem Manifest.means_iff_sample : letI := Sample.hash
    ((Sample.three.root = Sample.two.root → Sample.three.pieces = Sample.two.pieces) ↔
      Sample.three.pieces.length = Sample.two.pieces.length ∨
        ¬ Manifest.Overlays Sample.three Sample.two) ∧
      (Sample.plain.verifyPiece 0 [] = true ↔
        (stripDigestPrefix Sample.plainEmpty).isSome = true) := by
  let _ := Sample.hash
  exact ⟨Manifest.means_iff.1 Sample.three Sample.two Sample.noCollision,
    Manifest.means_iff.2 Sample.plain 0 [] Sample.plainEmpty rfl rfl Sample.names_plainEmpty⟩

/-- Three pieces and two pieces with one root, and the empty piece of the empty
blob refused against its own digest. -/
theorem Manifest.not_means : letI := Sample.hash
    ¬ (∀ m m' : Manifest, NoCollision (Manifest.RootTexts m m') →
        m.root = m'.root → m.pieces = m'.pieces) ∧
      ¬ ∀ (m : Manifest) (index : Nat) (bytes : List UInt8) (hash : String),
        m.layout.lenOf index = some bytes.length → m.pieceHash index = some hash →
          Manifest.Names hash bytes → m.verifyPiece index bytes = true := by
  let _ := Sample.hash
  constructor
  · intro h
    have hpieces := h Sample.three Sample.two Sample.noCollision Sample.root_eq
    exact absurd (congrArg List.length hpieces) (by decide)
  · intro h
    have haccepted := h Sample.plain 0 [] Sample.plainEmpty rfl rfl Sample.names_plainEmpty
    have hsome := (Manifest.verifyPiece_iff rfl rfl Sample.names_plainEmpty).mp haccepted
    rw [Sample.plainEmpty_spec.1] at hsome
    exact absurd hsome (by decide)

end Cairn.Ports.Swarm
