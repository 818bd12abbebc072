import Cairn.Ports.Canonical.RoundTrip
import Mathlib.Data.List.Nodup

/-!
# Content addresses and the Merkle tree

`digest_bytes`, `merkle_root` and `Inclusion::verify` of `src/canonical.rs`.
SHA-256 comes from a crate outside the repository, so it is a parameter: the
class `Sha256` gives 32 bytes for every input and nothing else is known about
it. Collision-freeness can only be asked of the finitely many strings a
computation really hashes, so `NoCollision` is a property of a set of
strings, and `merkleInputs`, `Inclusion.walkInputs` list what the tree and a
path hash.

The tree has no domain separation. What separates a leaf from an inner node
is the *text* hashed: an inner node hashes two digests, which start with
`s` and end in a hexadecimal digit, while every leaf of a log hashes an
object, which starts with `{` and ends with `}` (`Value.BraceDelimited`).
-/

namespace Cairn.Ports.Canonical

open Cairn.Verified

/-- SHA-256: 32 bytes for every input. -/
class Sha256 where
  hash : ByteArray → Vector UInt8 32

/-- A digest given as one number. -/
def digestOfNat (n : Nat) : Vector UInt8 32 :=
  Vector.ofFn fun i => UInt8.ofNat (n >>> (8 * (31 - i.val)))

/-- SHA-256 where only some of its values matter: a table of texts and their
digests, zero elsewhere. -/
@[reducible] def Sha256.ofTable (rows : List (String × Nat)) : Sha256 where
  hash data := digestOfNat (((rows.find? fun row => row.1.toUTF8 = data).map Prod.snd).getD 0)

/-- SHA-256 on texts that differ in length: a table of lengths and digests. -/
@[reducible] def Sha256.ofLengths (rows : List (Nat × Nat)) : Sha256 where
  hash data := digestOfNat (((rows.find? fun row => row.1 = data.size).map Prod.snd).getD 0)

def DIGEST_PREFIX : String := "sha256:"

/-- `hex::encode`: two lowercase digits per byte. -/
def hexEncode (bytes : List UInt8) : List Char :=
  bytes.flatMap fun byte => [Nat.digitChar (byte.toNat / 16), Nat.digitChar (byte.toNat % 16)]

theorem length_hexEncode (bytes : List UInt8) : (hexEncode bytes).length = 2 * bytes.length := by
  induction bytes with
  | nil => rfl
  | cons b bs ih =>
    simp only [hexEncode, List.flatMap_cons, List.length_append, List.length_cons] at ih ⊢
    simp only [ih, List.length_nil]
    omega

/-- Lowercase hexadecimal digits. -/
def isHexDigit (c : Char) : Bool := c.isDigit || ('a' ≤ c && c ≤ 'f')

theorem isHexDigit_digitChar {n : Nat} (h : n < 16) : isHexDigit (Nat.digitChar n) := by
  interval_cases n <;> decide

theorem isHexDigit_of_mem_hexEncode {bytes : List UInt8} {c : Char}
    (h : c ∈ hexEncode bytes) : isHexDigit c := by
  simp only [hexEncode, List.mem_flatMap, List.mem_cons, List.not_mem_nil, or_false] at h
  obtain ⟨b, -, h | h⟩ := h
  · have := b.toNat_lt
    rw [h]
    exact isHexDigit_digitChar (by omega)
  · rw [h]
    exact isHexDigit_digitChar (Nat.mod_lt _ (by decide))

/-- The value of a hexadecimal digit, in either case. -/
def hexDigitValue (c : Char) : Option Nat :=
  if c.isDigit then some (c.toNat - 48)
  else if 'a' ≤ c ∧ c ≤ 'f' then some (c.toNat - 87)
  else if 'A' ≤ c ∧ c ≤ 'F' then some (c.toNat - 55)
  else none

theorem hexDigitValue_lt {c : Char} {n : Nat} (h : hexDigitValue c = some n) : n < 16 := by
  unfold hexDigitValue at h
  split_ifs at h with hdigit hlower hupper
  · have hle : c.toNat ≤ 57 := by
      have hword : 48 ≤ c.val ∧ c.val ≤ 57 := by simpa [Char.isDigit] using hdigit
      exact hword.2
    have hn : c.toNat - 48 = n := Option.some.inj h
    omega
  · have hle : c.toNat ≤ 102 := hlower.2
    have hn : c.toNat - 87 = n := Option.some.inj h
    omega
  · have hle : c.toNat ≤ 70 := hupper.2
    have hn : c.toNat - 55 = n := Option.some.inj h
    omega

/-- `from_str_radix(text, 16)` of an unsigned type of `size` values: at least
one digit after an optional plus sign, and no overflow. -/
def fromStrRadix16 (size : Nat) (text : List Char) : Option Nat := do
  let digits := if text.head? = some '+' then text.tail else text
  let values ← digits.mapM hexDigitValue
  let n := values.foldl (fun n d => 16 * n + d) 0
  if digits.isEmpty ∨ size ≤ n then none else some n

theorem fromStrRadix16_digitChars {a b : Nat} (ha : a < 16) (hb : b < 16) :
    fromStrRadix16 256 [Nat.digitChar a, Nat.digitChar b] = some (16 * a + b) := by
  interval_cases a <;> interval_cases b <;> decide

section Digest

variable [Sha256]

def digestBytes (data : ByteArray) : String :=
  DIGEST_PREFIX ++ String.ofList (hexEncode (Sha256.hash data).toList)

/-- The digest of a text's UTF-8 bytes. -/
def digestText (text : String) : String := digestBytes text.toUTF8

/-- Content address of a value. -/
def Value.digest (v : Value) : String := digestBytes v.canonicalBytes

theorem toList_digestBytes (data : ByteArray) :
    (digestBytes data).toList =
      ['s', 'h', 'a', '2', '5', '6', ':'] ++ hexEncode (Sha256.hash data).toList := by
  rw [digestBytes, String.toList_append, String.toList_ofList]
  rfl

theorem length_digestBytes (data : ByteArray) : (digestBytes data).toList.length = 71 := by
  rw [toList_digestBytes, List.length_append, length_hexEncode, Vector.length_toList]
  rfl

/-- What a digest looks like: 71 characters, the prefix and then hexadecimal
digits. -/
def IsDigest (s : String) : Prop :=
  ∃ hex : List Char, hex.length = 64 ∧ (∀ c ∈ hex, isHexDigit c) ∧
    s.toList = ['s', 'h', 'a', '2', '5', '6', ':'] ++ hex

theorem isDigest_digestBytes (data : ByteArray) : IsDigest (digestBytes data) :=
  ⟨hexEncode (Sha256.hash data).toList, by rw [length_hexEncode, Vector.length_toList],
    fun _ hc => isHexDigit_of_mem_hexEncode hc, toList_digestBytes data⟩

/-- No two of these texts share their SHA-256. -/
def NoCollision (texts : String → Prop) : Prop :=
  ∀ x y, texts x → texts y → digestText x = digestText y → x = y

theorem NoCollision.mono {P Q : String → Prop} (h : NoCollision Q) (hPQ : ∀ x, P x → Q x) :
    NoCollision P :=
  fun x y hx hy => h x y (hPQ x hx) (hPQ y hy)

/-- Texts listed with different digests. -/
theorem noCollision_of_nodup {texts : List String} {P : String → Prop}
    (h : (texts.map digestText).Nodup) (hP : ∀ x, P x → x ∈ texts) : NoCollision P :=
  fun x y hx hy heq => List.inj_on_of_nodup_map h (hP x hx) (hP y hy) heq

end Digest

theorem IsDigest.length {s : String} (h : IsDigest s) : s.toList.length = 71 := by
  obtain ⟨hex, hlen, -, hs⟩ := h
  rw [hs, List.length_append, hlen]
  rfl

theorem IsDigest.head {s : String} (h : IsDigest s) : s.toList.head? = some 's' := by
  obtain ⟨hex, -, -, hs⟩ := h
  rw [hs]
  rfl

theorem IsDigest.last {s : String} (h : IsDigest s) : ∃ c ∈ s.toList.getLast?, isHexDigit c := by
  obtain ⟨hex, hlen, hhex, hs⟩ := h
  have hne : hex ≠ [] := by
    rintro rfl
    simp at hlen
  refine ⟨hex.getLast hne, ?_, hhex _ (List.getLast_mem hne)⟩
  rw [hs, List.getLast?_append, List.getLast?_eq_some_getLast hne]
  rfl

/-! ## The tree -/

section Tree

variable [Sha256]

/-- One level up: pairs are joined and hashed, an odd last node is promoted. -/
def pairLevel : List String → List String
  | a :: b :: rest => digestText (a ++ b) :: pairLevel rest
  | [a] => [a]
  | [] => []

/-- The loop of `merkle_root`; each turn at least halves, rounding up. -/
def reduceLevels : Nat → List String → List String
  | 0, level => level
  | fuel + 1, level => if 1 < level.length then reduceLevels fuel (pairLevel level) else level

/-- Binary Merkle root over pre-hashed leaves. -/
def merkleRoot (leaves : List String) : Option String :=
  (reduceLevels leaves.length leaves).head?

/-- The joined texts one level hashes. -/
def pairInputs : List String → List String
  | a :: b :: rest => (a ++ b) :: pairInputs rest
  | [_] => []
  | [] => []

/-- The joined texts the whole tree hashes. -/
def reduceInputs : Nat → List String → List String
  | 0, _ => []
  | fuel + 1, level =>
    if 1 < level.length then pairInputs level ++ reduceInputs fuel (pairLevel level) else []

def merkleInputs (leaves : List String) : List String := reduceInputs leaves.length leaves

theorem length_pairLevel (level : List String) :
    (pairLevel level).length = (level.length + 1) / 2 := by
  induction level using pairLevel.induct with
  | case1 a b rest ih =>
    simp only [pairLevel, List.length_cons, ih]
    omega
  | case2 a => simp [pairLevel]
  | case3 => simp [pairLevel]

/-- Enough turns leave one node. -/
theorem length_reduceLevels (fuel : Nat) (level : List String) (hfuel : level.length ≤ fuel + 1)
    (hne : level ≠ []) : (reduceLevels fuel level).length = 1 := by
  induction fuel generalizing level with
  | zero =>
    have : level.length ≠ 0 := fun h => hne (List.length_eq_zero_iff.mp h)
    show level.length = 1
    omega
  | succ fuel ih =>
    have hpos : level.length ≠ 0 := fun h => hne (List.length_eq_zero_iff.mp h)
    rw [reduceLevels]
    split_ifs with h
    · have hlen := length_pairLevel level
      refine ih (pairLevel level) (by omega) ?_
      intro h0
      rw [h0] at hlen
      simp at hlen
      omega
    · omega

/-- A non-empty list of leaves has a root. -/
theorem merkleRoot_isSome {leaves : List String} (hne : leaves ≠ []) :
    ∃ root, merkleRoot leaves = some root := by
  have hlen := length_reduceLevels leaves.length leaves (by omega) hne
  obtain ⟨root, hroot⟩ := List.length_eq_one_iff.mp hlen
  exact ⟨root, by rw [merkleRoot, hroot]; rfl⟩

/-- The nodes of a tree over `leaves` whose joined texts are among `inputs`. -/
inductive InTree (leaves inputs : List String) : String → Prop where
  | leaf {h : String} (hmem : h ∈ leaves) : InTree leaves inputs h
  | node {a b : String} (ha : InTree leaves inputs a) (hb : InTree leaves inputs b)
      (hmem : (a ++ b) ∈ inputs) : InTree leaves inputs (digestText (a ++ b))

theorem pairLevel_inTree {leaves inputs level : List String}
    (hlevel : ∀ h ∈ level, InTree leaves inputs h) (hinputs : pairInputs level ⊆ inputs) :
    ∀ h ∈ pairLevel level, InTree leaves inputs h := by
  induction level using pairLevel.induct with
  | case1 a b rest ih =>
    intro h hh
    rcases List.mem_cons.mp hh with rfl | hh
    · exact .node (hlevel a (by simp)) (hlevel b (by simp)) (hinputs (by simp [pairInputs]))
    · refine ih (fun x hx => hlevel x (by simp [hx])) ?_ h hh
      exact fun x hx => hinputs (by simp [pairInputs, hx])
  | case2 a => exact hlevel
  | case3 => exact hlevel

theorem reduceLevels_inTree {leaves inputs : List String} (fuel : Nat) :
    ∀ level : List String, (∀ h ∈ level, InTree leaves inputs h) →
      reduceInputs fuel level ⊆ inputs → ∀ h ∈ reduceLevels fuel level, InTree leaves inputs h := by
  induction fuel with
  | zero => intro level hlevel _; exact hlevel
  | succ fuel ih =>
    intro level hlevel hinputs
    rw [reduceInputs] at hinputs
    rw [reduceLevels]
    split_ifs at hinputs ⊢ with hlen
    · have hpair : pairInputs level ⊆ inputs :=
        fun x hx => hinputs (List.mem_append_left _ hx)
      exact ih _ (pairLevel_inTree hlevel hpair)
        fun x hx => hinputs (List.mem_append_right _ hx)
    · exact hlevel

/-- The root is a node over its leaves. -/
theorem merkleRoot_inTree {leaves : List String} {root : String}
    (h : merkleRoot leaves = some root) : InTree leaves (merkleInputs leaves) root := by
  refine reduceLevels_inTree leaves.length leaves (fun _ => .leaf) (fun _ hx => hx) root ?_
  exact List.mem_of_mem_head? h

/-! ## Paths -/

/-- A path from one leaf to a root, and where in the tree it starts. -/
structure Inclusion where
  index : Nat
  leaves : Nat
  siblings : List String
deriving DecidableEq

/-- Join a node with its sibling on the side the position says. -/
def joinAt (here : Nat) (hash sibling : String) : String :=
  if here % 2 = 0 then hash ++ sibling else sibling ++ hash

/-- The loop of `Inclusion::verify`: the hash arrived at and the siblings left
over, or nothing when the path runs out. -/
def walk : Nat → String → Nat → Nat → List String → Option (String × List String)
  | 0, hash, _, _, steps => some (hash, steps)
  | fuel + 1, hash, here, width, steps =>
    if 1 < width then
      if width % 2 = 1 ∧ here = width - 1 then
        walk fuel hash (here / 2) ((width + 1) / 2) steps
      else
        match steps with
        | [] => none
        | sibling :: steps =>
          walk fuel (digestText (joinAt here hash sibling)) (here / 2) ((width + 1) / 2) steps
    else some (hash, steps)

/-- The joined texts a walk hashes. -/
def walkInputs : Nat → String → Nat → Nat → List String → List String
  | 0, _, _, _, _ => []
  | fuel + 1, hash, here, width, steps =>
    if 1 < width then
      if width % 2 = 1 ∧ here = width - 1 then
        walkInputs fuel hash (here / 2) ((width + 1) / 2) steps
      else
        match steps with
        | [] => []
        | sibling :: steps =>
          joinAt here hash sibling ::
            walkInputs fuel (digestText (joinAt here hash sibling)) (here / 2)
              ((width + 1) / 2) steps
    else []

/-- Walk this path from `leaf` and report whether it arrives at `root`. -/
def Inclusion.verify (p : Inclusion) (leaf root : String) : Bool :=
  if p.leaves ≤ p.index then false
  else
    match walk p.leaves leaf p.index p.leaves p.siblings with
    | none => false
    | some (hash, steps) => steps.isEmpty && hash == root

/-- The loop of `merkle_proof`: the siblings on the way up from a position. -/
def proofSiblings : Nat → List String → Nat → List String
  | 0, _, _ => []
  | fuel + 1, level, here =>
    if 1 < level.length then
      (if level.length % 2 = 1 ∧ here = level.length - 1 then []
        else [level.getD (here ^^^ 1) ""]) ++ proofSiblings fuel (pairLevel level) (here / 2)
    else []

/-- The path from the leaf at `index`. -/
def merkleProof (leaves : List String) (index : Nat) : Option Inclusion :=
  if leaves.length ≤ index then none
  else
    some { index, leaves := leaves.length
           siblings := proofSiblings leaves.length leaves index }

/-- The joined texts checking this path hashes. -/
def Inclusion.inputs (p : Inclusion) (leaf : String) : List String :=
  walkInputs p.leaves leaf p.index p.leaves p.siblings

/-! ## A path that arrives at a node started at a node -/

/-- A text no join of a digest with anything can be: it starts with `{` and
ends with `}`. -/
def BraceDelimited (s : String) : Prop :=
  s.toList.head? = some '{' ∧ s.toList.getLast? = some '}'

omit [Sha256] in
theorem braceDelimited_canonicalString (map : BTreeMap String Value) :
    BraceDelimited (Value.objectOf map).canonicalString := by
  constructor
  · rw [Value.toList_canonicalString, Value.write_objectOf]
    rfl
  · rw [Value.toList_canonicalString, Value.write_objectOf, List.getLast?_cons,
      List.getLast?_append]
    rfl

omit [Sha256] in
theorem joinAt_not_braceDelimited {here : Nat} {hash sibling : String} (hd : IsDigest hash) :
    ¬BraceDelimited (joinAt here hash sibling) := by
  rintro ⟨hfirst, hlast⟩
  rw [joinAt] at hfirst hlast
  split_ifs at hfirst hlast with hpar
  · rw [String.toList_append, List.head?_append, hd.head] at hfirst
    simp at hfirst
  · obtain ⟨c, hc, hhex⟩ := hd.last
    rw [Option.mem_def] at hc
    rw [String.toList_append, List.getLast?_append, hc] at hlast
    obtain rfl : c = '}' := by simpa using hlast
    exact absurd hhex (by decide)

omit [Sha256] in
/-- If joining gives two digests side by side, the node joined was one of
them. -/
theorem joinAt_eq_append {here : Nat} {hash sibling a b : String} (hd : IsDigest hash)
    (ha : IsDigest a) (hb : IsDigest b) (h : joinAt here hash sibling = a ++ b) :
    hash = a ∨ hash = b := by
  rw [joinAt] at h
  have hlist := congrArg String.toList h
  split_ifs at hlist with hpar
  · rw [String.toList_append, String.toList_append] at hlist
    have hlen : hash.toList.length = a.toList.length := by rw [hd.length, ha.length]
    exact .inl (String.toList_inj.mp (List.append_inj hlist hlen).1)
  · rw [String.toList_append, String.toList_append] at hlist
    have hlen : hash.toList.length = b.toList.length := by rw [hd.length, hb.length]
    exact .inr (String.toList_inj.mp (List.append_inj_right' hlist hlen))

section Walk

variable {leaves inputs : List String} {texts : String → Prop}
    (hcoll : NoCollision texts) (hinputs : ∀ x ∈ inputs, texts x)
    (hleaves : ∀ h ∈ leaves, ∃ body, texts body ∧ BraceDelimited body ∧ h = digestText body)

include hleaves in
theorem InTree.isDigest {h : String} (hh : InTree leaves inputs h) : IsDigest h := by
  cases hh with
  | leaf hmem =>
    obtain ⟨body, -, -, rfl⟩ := hleaves h hmem
    exact isDigest_digestBytes _
  | node _ _ _ => exact isDigest_digestBytes _

include hcoll hinputs hleaves

/-- One step down: the node a joined text hashes to has the joined node below
it. -/
theorem inTree_of_joinAt {here : Nat} {hash sibling : String} (hd : IsDigest hash)
    (htext : texts (joinAt here hash sibling))
    (h : InTree leaves inputs (digestText (joinAt here hash sibling))) :
    InTree leaves inputs hash := by
  generalize hg : digestText (joinAt here hash sibling) = g at h
  cases h with
  | leaf hmem =>
    obtain ⟨body, hbody, hbrace, hdigest⟩ := hleaves g hmem
    have heq := hcoll _ _ htext hbody (hg.trans hdigest)
    rw [← heq] at hbrace
    exact absurd hbrace (joinAt_not_braceDelimited hd)
  | @node a b ha hb hmem =>
    have heq := hcoll _ _ htext (hinputs _ hmem) hg
    rcases joinAt_eq_append hd (ha.isDigest hleaves) (hb.isDigest hleaves) heq with rfl | rfl
    · exact ha
    · exact hb

theorem walk_inTree (fuel : Nat) :
    ∀ (hash : String) (here width : Nat) (steps rest : List String) (top : String),
      IsDigest hash → (∀ x ∈ walkInputs fuel hash here width steps, texts x) →
      walk fuel hash here width steps = some (top, rest) → InTree leaves inputs top →
      InTree leaves inputs hash := by
  induction fuel with
  | zero =>
    intro hash here width steps rest top _ _ hwalk htop
    cases hwalk
    exact htop
  | succ fuel ih =>
    intro hash here width steps rest top hd htexts hwalk htop
    unfold walkInputs at htexts
    unfold walk at hwalk
    split_ifs at htexts hwalk with hwidth hpromoted
    · exact ih _ _ _ _ _ _ hd htexts hwalk htop
    · cases steps with
      | nil => cases hwalk
      | cons sibling steps =>
        have hup := ih _ _ _ _ _ _ (isDigest_digestBytes _)
          (fun x hx => htexts x (List.mem_cons_of_mem _ hx)) hwalk htop
        exact inTree_of_joinAt hcoll hinputs hleaves hd (htexts _ (by simp)) hup
    · cases hwalk
      exact htop

/-- A verified path starts at a node of the tree. -/
theorem Inclusion.inTree_of_verify {p : Inclusion} {leaf root : String} (hd : IsDigest leaf)
    (htexts : ∀ x ∈ p.inputs leaf, texts x) (hverify : p.verify leaf root = true)
    (hroot : InTree leaves inputs root) : InTree leaves inputs leaf := by
  rw [Inclusion.verify] at hverify
  split_ifs at hverify with hindex
  split at hverify
  · exact absurd hverify (by decide)
  · next hash steps hwalk =>
      obtain ⟨-, heq⟩ := Bool.and_eq_true_iff.mp hverify
      obtain rfl : hash = root := by simpa using heq
      exact walk_inTree hcoll hinputs hleaves _ _ _ _ _ _ _ hd htexts hwalk hroot

end Walk

end Tree

end Cairn.Ports.Canonical
