import Cairn.Ports.Sync.Peer

/-!
# How an identifier may be spelled

`id_bytes` of `src/p2p/sync.rs` reads the digits of an identifier two at a time with
`u8::from_str_radix`, which takes capitals and a plus sign as well. So there are more
spellings than `Value::digest` produces, and several of them have the same bytes.
-/

namespace Cairn.Ports.Sync

open Cairn.Ports.Canonical

/-- A hexadecimal digit in either case. -/
def isAnyHexDigit (c : Char) : Bool := (hexDigitValue c).isSome

/-- Two characters that `u8::from_str_radix` reads. -/
def ReadablePair (c d : Char) : Prop := (c = '+' ∨ isAnyHexDigit c) ∧ isAnyHexDigit d

/-- Pairs of characters, each of which is read. -/
def ReadablePairs : List Char → Prop
  | [] => True
  | [_] => False
  | c :: d :: rest => ReadablePair c d ∧ ReadablePairs rest

/-- A spelling that is read and is not the one of a digest: a capital or a plus sign stands
somewhere among its digits. -/
def LooselySpelled (id : String) : Prop :=
  ∃ text, id.toList = DIGEST_PREFIX.toList ++ text ∧ text.length = 64 ∧ ReadablePairs text ∧
    ∃ c ∈ text, ¬isHexDigit c

variable {c : Char} {text : List Char}

theorem isAnyHexDigit_of_isHexDigit (h : isHexDigit c) : isAnyHexDigit c := by
  simp only [isHexDigit, Bool.or_eq_true, Bool.and_eq_true, decide_eq_true_eq] at h
  unfold isAnyHexDigit hexDigitValue
  rcases h with hdigit | hletter
  · rw [if_pos hdigit]
    rfl
  · split_ifs <;> rfl

/-- A lowercase digit is the digit of its value. -/
theorem exists_digitChar (h : isHexDigit c) : ∃ a < 16, Nat.digitChar a = c := by
  have hcode : (48 ≤ c.toNat ∧ c.toNat ≤ 57) ∨ (97 ≤ c.toNat ∧ c.toNat ≤ 102) := by
    simpa [isHexDigit, Char.isDigit, Char.le_def, UInt32.le_iff_toNat_le] using h
  have hchar := Char.ofNat_toNat c
  generalize c.toNat = n at hcode hchar
  subst hchar
  rcases hcode with ⟨hlow, hhigh⟩ | ⟨hlow, hhigh⟩
  · refine ⟨n - 48, by omega, ?_⟩
    interval_cases n <;> decide
  · refine ⟨n - 87, by omega, ?_⟩
    interval_cases n <;> decide

theorem fromStrRadix16_plus (d : Char) :
    fromStrRadix16 256 ['+', d] = hexDigitValue d := by
  unfold fromStrRadix16
  cases hvalue : hexDigitValue d with
  | none => simp [hvalue]
  | some v =>
    have hlt := hexDigitValue_lt hvalue
    simp [hvalue]
    omega

theorem fromStrRadix16_isSome {c d : Char} :
    (fromStrRadix16 256 [c, d]).isSome ↔ ReadablePair c d := by
  by_cases hplus : c = '+'
  · subst hplus
    rw [fromStrRadix16_plus]
    simp [ReadablePair, isAnyHexDigit]
  · unfold fromStrRadix16 ReadablePair isAnyHexDigit
    cases hc : hexDigitValue c with
    | none => simp [hplus, hc]
    | some v =>
      cases hd : hexDigitValue d with
      | none => simp [hplus, hc, hd]
      | some w =>
        have hv := hexDigitValue_lt hc
        have hw := hexDigitValue_lt hd
        simp [hplus, hc, hd]
        omega

theorem isSome_bytePairs_iff (text : List Char) :
    (bytePairs text).isSome ↔ ReadablePairs text := by
  induction text using bytePairs.induct with
  | case1 => simp [bytePairs, ReadablePairs]
  | case2 c => simp [bytePairs, ReadablePairs]
  | case3 c d rest ih =>
    rw [ReadablePairs, ← fromStrRadix16_isSome, ← ih, bytePairs]
    cases fromStrRadix16 256 [c, d] <;> cases bytePairs rest <;> simp

theorem ReadablePairs.anyHex_or_plus (h : ReadablePairs text) :
    ∀ c ∈ text, c = '+' ∨ isAnyHexDigit c := by
  induction text using bytePairs.induct with
  | case1 => simp
  | case2 c => exact h.elim
  | case3 c d rest ih =>
    rw [List.forall_mem_cons, List.forall_mem_cons]
    exact ⟨h.1.1, .inr h.1.2, ih h.2⟩

/-- Lowercase digits, two by two. -/
theorem readablePairs_of_isHexDigit (heven : text.length % 2 = 0)
    (h : ∀ c ∈ text, isHexDigit c) : ReadablePairs text := by
  induction text using bytePairs.induct with
  | case1 => trivial
  | case2 c => simp at heven
  | case3 c d rest ih =>
    rw [List.forall_mem_cons, List.forall_mem_cons] at h
    rw [List.length_cons, List.length_cons] at heven
    exact ⟨⟨.inr (isAnyHexDigit_of_isHexDigit h.1), isAnyHexDigit_of_isHexDigit h.2.1⟩,
      ih (by omega) h.2.2⟩

theorem utf8Size_of_readable (h : c = '+' ∨ isAnyHexDigit c) : c.utf8Size = 1 := by
  have hle : c.toNat ≤ 127 := by
    rcases h with rfl | h
    · decide
    · unfold isAnyHexDigit hexDigitValue at h
      split_ifs at h with hdigit hlower hupper
      · have hword : 48 ≤ c.val ∧ c.val ≤ 57 := by simpa [Char.isDigit] using hdigit
        exact le_trans (UInt32.le_iff_toNat_le.mp hword.2) (by decide)
      · exact le_trans (UInt32.le_iff_toNat_le.mp hlower.2) (by decide)
      · exact le_trans (UInt32.le_iff_toNat_le.mp hupper.2) (by decide)
      · cases h
  exact Char.utf8Size_eq_one_iff.mpr hle

theorem utf8ByteSize_of_readable (h : ∀ c ∈ text, c = '+' ∨ isAnyHexDigit c) :
    (String.ofList text).utf8ByteSize = text.length := by
  rw [utf8ByteSize_ofList, List.map_congr_left fun c hc => utf8Size_of_readable (h c hc)]
  simp

theorem length_bytePairs {bytes : List UInt8} (h : bytePairs text = some bytes) :
    text.length = 2 * bytes.length := by
  induction text using bytePairs.induct generalizing bytes with
  | case1 =>
    cases h
    rfl
  | case2 c => cases h
  | case3 c d rest ih =>
    rw [bytePairs] at h
    simp only [Option.bind_eq_bind, Option.bind_eq_some_iff] at h
    obtain ⟨byte, -, tail, htail, hbytes⟩ := h
    cases hbytes
    rw [List.length_cons, List.length_cons, ih htail, List.length_cons]
    omega

theorem isSome_unhex_iff (text : List Char) :
    (unhex (String.ofList text)).isSome ↔ text.length = 64 ∧ ReadablePairs text := by
  rw [← isSome_bytePairs_iff]
  unfold unhex
  rw [String.toList_ofList]
  cases hbytes : bytePairs text with
  | none => simp
  | some bytes =>
    have hreadable : ReadablePairs text := (isSome_bytePairs_iff text).mp (by simp [hbytes])
    have hlength := length_bytePairs hbytes
    rw [utf8ByteSize_of_readable hreadable.anyHex_or_plus]
    by_cases h64 : text.length = 64
    · rw [if_neg (not_not.mpr h64), Option.bind_some, dif_pos (by omega)]
      simp [h64]
    · simp [h64]

/-- The spellings that are read: the prefix and 64 characters, read pair by pair. -/
theorem isSome_idBytes_iff (id : String) :
    (idBytes id).isSome ↔
      ∃ text, id.toList = DIGEST_PREFIX.toList ++ text ∧ text.length = 64 ∧ ReadablePairs text := by
  unfold idBytes
  by_cases hprefix : DIGEST_PREFIX.toList.isPrefixOf id.toList
  · obtain ⟨text, htext⟩ := List.isPrefixOf_iff_prefix.mp hprefix
    rw [if_pos hprefix, ← htext, List.drop_left, isSome_unhex_iff]
    simp
  · rw [if_neg hprefix]
    refine iff_of_false (by simp) ?_
    rintro ⟨text, hid, -⟩
    exact hprefix (List.isPrefixOf_iff_prefix.mpr ⟨text, hid.symm⟩)

/-- A digest is read. -/
theorem isSome_idBytes_of_isDigest {id : String} (h : IsDigest id) : (idBytes id).isSome := by
  obtain ⟨text, hlength, hdigits, hid⟩ := h
  exact (isSome_idBytes_iff id).mpr
    ⟨text, hid, hlength, readablePairs_of_isHexDigit (by omega) hdigits⟩

/-- Whatever else is read is spelled loosely. -/
theorem looselySpelled_iff (id : String) :
    LooselySpelled id ↔ (idBytes id).isSome ∧ ¬IsDigest id := by
  rw [isSome_idBytes_iff]
  constructor
  · rintro ⟨text, hid, hlength, hreadable, c, hc, hloose⟩
    refine ⟨⟨text, hid, hlength, hreadable⟩, ?_⟩
    rintro ⟨digits, -, hdigits, hid'⟩
    have htext : text = digits := List.append_cancel_left (hid.symm.trans hid')
    exact hloose (hdigits c (htext ▸ hc))
  · rintro ⟨⟨text, hid, hlength, hreadable⟩, hdigest⟩
    refine ⟨text, hid, hlength, hreadable, ?_⟩
    by_contra hstrict
    simp only [not_exists, not_and, not_not] at hstrict
    exact hdigest ⟨text, hlength, hstrict, hid⟩

/-- Lowercase digits are what the bytes they stand for are written as. -/
theorem eq_hexEncode {bytes : List UInt8} (hdigits : ∀ c ∈ text, isHexDigit c)
    (h : bytePairs text = some bytes) : text = hexEncode bytes := by
  induction text using bytePairs.induct generalizing bytes with
  | case1 =>
    cases h
    rfl
  | case2 c => cases h
  | case3 c d rest ih =>
    rw [List.forall_mem_cons, List.forall_mem_cons] at hdigits
    obtain ⟨a, ha, rfl⟩ := exists_digitChar hdigits.1
    obtain ⟨b, hb, rfl⟩ := exists_digitChar hdigits.2.1
    rw [bytePairs, fromStrRadix16_digitChars ha hb] at h
    simp only [Option.bind_eq_bind, Option.bind_some, Option.bind_eq_some_iff] at h
    obtain ⟨tail, htail, hbytes⟩ := h
    cases hbytes
    have hbyte : (UInt8.ofNat (16 * a + b)).toNat = 16 * a + b :=
      UInt8.toNat_ofNat_of_lt' (show _ < 2 ^ 8 by omega)
    rw [ih hdigits.2.2 htail]
    show _ = _ :: _ :: hexEncode tail
    rw [hbyte, Nat.mul_add_div (by decide), Nat.div_eq_of_lt hb, Nat.add_zero,
      Nat.mul_add_mod, Nat.mod_eq_of_lt hb]

/-- A digest is the prefix and its bytes. -/
theorem toList_of_idBytes {id : String} {bytes : Vector UInt8 32} (hid : IsDigest id)
    (h : idBytes id = some bytes) :
    id.toList = DIGEST_PREFIX.toList ++ hexEncode bytes.toList := by
  obtain ⟨text, -, hdigits, htext⟩ := hid
  have hprefix : DIGEST_PREFIX.toList.isPrefixOf id.toList :=
    List.isPrefixOf_iff_prefix.mpr ⟨text, htext.symm⟩
  have hdrop : id.toList.drop DIGEST_PREFIX.toList.length = text := by
    rw [htext]
    rfl
  unfold idBytes unhex at h
  rw [if_pos hprefix, hdrop, String.toList_ofList] at h
  split_ifs at h with hsize
  obtain ⟨pairs, hpairs, hvector⟩ := Option.bind_eq_some_iff.mp h
  split_ifs at hvector with hlength
  cases hvector
  rw [htext, eq_hexEncode hdigits hpairs]
  simp [Vector.toList]
  rfl

/-- Reading is exact for an identifier that is read just where it is a digest. -/
theorem decodes_iff_digest (id : String) :
    ((idBytes id).isSome ↔ IsDigest id) ↔ ¬LooselySpelled id := by
  rw [looselySpelled_iff]
  constructor
  · rintro hexact ⟨hread, hdigest⟩
    exact hdigest (hexact.mp hread)
  · intro hloose
    refine ⟨fun hread => ?_, isSome_idBytes_of_isDigest⟩
    by_contra hdigest
    exact hloose ⟨hread, hdigest⟩

/-- Two identifiers are read exactly, and never as the same bytes, just where neither is
spelled loosely. -/
theorem idBytes_exact_iff (s t : String) :
    (((idBytes s).isSome ↔ IsDigest s) ∧ ((idBytes t).isSome ↔ IsDigest t) ∧
        ((idBytes s).isSome → s ≠ t → idBytes s ≠ idBytes t)) ↔
      ¬LooselySpelled s ∧ ¬LooselySpelled t := by
  rw [decodes_iff_digest, decodes_iff_digest]
  refine ⟨fun h => ⟨h.1, h.2.1⟩, fun ⟨hs, ht⟩ => ⟨hs, ht, fun hread hne hsame => hne ?_⟩⟩
  obtain ⟨bytes, hbytes⟩ := Option.isSome_iff_exists.mp hread
  have hdigest : IsDigest s := ((decodes_iff_digest s).mpr hs).mp hread
  have hdigest' : IsDigest t := ((decodes_iff_digest t).mpr ht).mp (hsame ▸ hread)
  have htoList := toList_of_idBytes hdigest hbytes
  rw [← toList_of_idBytes hdigest' (hsame ▸ hbytes)] at htoList
  exact String.toList_injective htoList

/-- One digest, in capitals and as it is produced. -/
def sampleCapital : String := "sha256:" ++ String.ofList (List.replicate 64 'A')

def sampleSmall : String := "sha256:" ++ String.ofList (List.replicate 64 'a')

/-- A second spelling is read, as the same bytes. -/
theorem not_idBytes_exact :
    ¬(((idBytes sampleCapital).isSome ↔ IsDigest sampleCapital) ∧
      ((idBytes sampleSmall).isSome ↔ IsDigest sampleSmall) ∧
      ((idBytes sampleCapital).isSome → sampleCapital ≠ sampleSmall →
        idBytes sampleCapital ≠ idBytes sampleSmall)) := by
  have hread : (idBytes sampleCapital).isSome := by decide
  have hne : sampleCapital ≠ sampleSmall := by decide
  have hsame : idBytes sampleCapital = idBytes sampleSmall := by decide
  exact fun h => h.2.2 hread hne hsame

end Cairn.Ports.Sync
