import Cairn.Ports.Ledger.File

/-!
# Sealed lines

`seal_line` and `open_line` of `src/store/atrest.rs`: every line of an encrypted
log is sealed under the position of its entry. The AEAD is a parameter. One that
opens a ciphertext only under the data it was sealed with binds a line to its
position, and to nothing else: a line of another log that stands where it was
sealed for opens like one of this log.
-/

namespace Cairn.Ports

open Cairn.Verified
open Cairn.Verified.Lines
open Cairn.Ports.Canonical

theorem toList_loop (b : ByteArray) (i : Nat) (taken : List UInt8) :
    ByteArray.toList.loop b i taken = taken.reverse ++ b.data.toList.drop i := by
  fun_induction ByteArray.toList.loop b i taken with
  | case1 i taken hi ih =>
    have hlt : i < b.data.toList.length := by simpa using hi
    have hbyte : b.get! i = b.data.toList[i] := by
      show b.data[i]! = b.data.toList[i]
      rw [getElem!_pos b.data i hi, Array.getElem_toList]
    rw [ih, List.drop_eq_getElem_cons hlt, List.reverse_cons, List.append_assoc,
      List.singleton_append, hbyte]
  | case2 i taken hi =>
    rw [List.drop_eq_nil_of_le (by simpa using hi), List.append_nil]

/-- The list of some bytes gives them back. -/
theorem mk_toList (b : ByteArray) : ByteArray.mk b.toList.toArray = b := by
  have hlist : b.toList = b.data.toList := toList_loop b 0 []
  rw [hlist, Array.toArray_toList]

/-- An AEAD under one key: seal and open with a nonce and associated data. -/
structure LineAead where
  encrypt : List UInt8 → List UInt8 → List UInt8 → Option (List UInt8)
  decrypt : List UInt8 → List UInt8 → List UInt8 → Option (List UInt8)

namespace AtRest

def NONCE_LEN : Nat := 12

def LINE_AAD : String := "cairn-log-v1:"

/-- `line_aad`: associated data for a line. -/
def lineAad (index : UInt64) : String := LINE_AAD ++ toString index.toNat

/-- `hex_decode`, of either case. -/
def hexDecode : List Char → Option (List UInt8)
  | [] => some []
  | [_] => none
  | high :: low :: rest => do
      let high ← hexDigitValue high
      let low ← hexDigitValue low
      let bytes ← hexDecode rest
      return UInt8.ofNat (16 * high + low) :: bytes

/-- `split_once` at a colon. -/
def splitColon : List Char → Option (List Char × List Char)
  | [] => none
  | c :: rest =>
    if c = ':' then some ([], rest)
    else (splitColon rest).map fun parts => (c :: parts.1, parts.2)

/-- `Cipher::seal_line`. -/
def sealLine (aead : LineAead) (index : UInt64) (nonce plaintext : List UInt8) :
    Except AtRestError String :=
  match aead.encrypt nonce (lineAad index).toUTF8.toList plaintext with
  | none =>
    .error (.io ("sealing line " ++ toString index.toNat) "payload too large to encrypt")
  | some sealed =>
    .ok (LINE_PREFIX ++ String.ofList (hexEncode nonce) ++ ":" ++
      String.ofList (hexEncode sealed))

/-- `Cipher::open_line`. -/
def openLine (aead : LineAead) (index : UInt64) (line : String) :
    Except AtRestError (List UInt8) :=
  if LINE_PREFIX.toList.isPrefixOf line.toList then
    match splitColon (line.toList.drop LINE_PREFIX.toList.length) with
    | none => .error (.undecryptable index)
    | some (nonceHex, ciphertextHex) =>
      match hexDecode nonceHex with
      | none => .error (.undecryptable index)
      | some nonce =>
        if nonce.length ≠ NONCE_LEN then .error (.undecryptable index)
        else
          match hexDecode ciphertextHex with
          | none => .error (.undecryptable index)
          | some ciphertext =>
            match aead.decrypt nonce (lineAad index).toUTF8.toList ciphertext with
            | none => .error (.undecryptable index)
            | some plaintext => .ok plaintext
  else .error (.notEncrypted index)

/-- The cipher of an encrypted log. -/
def cipher (aead : LineAead) : Cipher := ⟨sealLine aead, openLine aead⟩

theorem hexDigitValue_digitChar {n : Nat} (h : n < 16) :
    hexDigitValue (Nat.digitChar n) = some n := by
  interval_cases n <;> decide

theorem hexDecode_hexEncode (bytes : List UInt8) : hexDecode (hexEncode bytes) = some bytes := by
  induction bytes with
  | nil => rfl
  | cons byte bytes ih =>
    have hlt := byte.toNat_lt
    have hhigh : hexDigitValue (Nat.digitChar (byte.toNat / 16)) = some (byte.toNat / 16) :=
      hexDigitValue_digitChar (by omega)
    have hlow : hexDigitValue (Nat.digitChar (byte.toNat % 16)) = some (byte.toNat % 16) :=
      hexDigitValue_digitChar (Nat.mod_lt _ (by decide))
    show hexDecode (_ :: _ :: hexEncode bytes) = _
    rw [hexDecode, hhigh, hlow, ih]
    simp only [Option.bind_eq_bind, Option.bind_some, Nat.div_add_mod, UInt8.ofNat_toNat, pure]

theorem splitColon_append {front : List Char} (h : ':' ∉ front) (rest : List Char) :
    splitColon (front ++ ':' :: rest) = some (front, rest) := by
  induction front with
  | nil => rfl
  | cons c front ih =>
    rw [List.mem_cons, not_or] at h
    rw [List.cons_append, splitColon, if_neg (Ne.symm h.1), ih h.2]
    rfl

theorem colon_not_mem_hexEncode (bytes : List UInt8) : ':' ∉ hexEncode bytes := by
  intro h
  exact absurd (isHexDigit_of_mem_hexEncode h) (by decide)

/-- Positions are told apart by their associated data. -/
theorem lineAad_injective {i j : UInt64} (h : lineAad i = lineAad j) : i = j := by
  have htext := congrArg String.toList h
  rw [lineAad, lineAad, String.toList_append, String.toList_append] at htext
  have hdigits : Nat.toDigits 10 i.toNat = Nat.toDigits 10 j.toNat := by
    have hrest := List.append_cancel_left htext
    simpa [toString, Nat.repr] using hrest
  have hvalue := congrArg (fun digits => Nat.ofDigitChars 10 digits 0) hdigits
  simp only [Nat.ofDigitChars_ten_toDigits] at hvalue
  exact UInt64.toNat_inj.mp hvalue

end AtRest

/-! ## Lines in play -/

open AtRest

/-- A line sealed under the key for a position, with the entry in it. -/
structure SealedLine (aead : LineAead) where
  position : UInt64
  nonce : List UInt8
  entry : Entry
  ciphertext : List UInt8
  length_nonce : nonce.length = NONCE_LEN
  sealed : aead.encrypt nonce (lineAad position).toUTF8.toList entry.toJsonLine.toUTF8.toList =
    some ciphertext

namespace SealedLine

variable {aead : LineAead}

def text (s : SealedLine aead) : String :=
  LINE_PREFIX ++ String.ofList (hexEncode s.nonce) ++ ":" ++ String.ofList (hexEncode s.ciphertext)

/-- The AEAD opens the ciphertext to what was sealed, and only under the data it
was sealed with. -/
structure Bound (s : SealedLine aead) : Prop where
  opens : aead.decrypt s.nonce (lineAad s.position).toUTF8.toList s.ciphertext =
    some s.entry.toJsonLine.toUTF8.toList
  only : ∀ aad, aad ≠ (lineAad s.position).toUTF8.toList →
    aead.decrypt s.nonce aad s.ciphertext = none

theorem toList_text (s : SealedLine aead) :
    s.text.toList = LINE_PREFIX.toList ++ (hexEncode s.nonce ++ ':' :: hexEncode s.ciphertext) := by
  simp [text]

/-- A line opens at its position and nowhere else. -/
theorem openLine_text {s : SealedLine aead} (h : s.Bound) (index : UInt64) :
    openLine aead index s.text =
      if index = s.position then .ok s.entry.toJsonLine.toUTF8.toList
      else .error (.undecryptable index) := by
  have hprefix : LINE_PREFIX.toList.isPrefixOf s.text.toList = true := by
    rw [s.toList_text, List.isPrefixOf_iff_prefix]
    exact List.prefix_append _ _
  unfold openLine
  rw [if_pos hprefix, s.toList_text, List.drop_left,
    splitColon_append (colon_not_mem_hexEncode _)]
  dsimp only
  rw [hexDecode_hexEncode, hexDecode_hexEncode]
  dsimp only
  rw [if_neg (not_not.mpr s.length_nonce)]
  by_cases hindex : index = s.position
  · rw [if_pos hindex, hindex, h.opens]
  · have haad : (lineAad index).toUTF8.toList ≠ (lineAad s.position).toUTF8.toList := by
      intro heq
      have htext := congrArg (fun bytes : List UInt8 =>
        String.fromUTF8? (ByteArray.mk bytes.toArray)) heq
      simp only [mk_toList, fromUTF8?_toUTF8] at htext
      exact hindex (lineAad_injective (Option.some.inj htext))
    rw [if_neg hindex, h.only _ haad]

theorem not_white_of_hex {c : Char} {bytes : List UInt8} (h : c ∈ hexEncode bytes) :
    isWhiteSpace c = false := by
  have hdigit : ∀ n < 16, isWhiteSpace (Nat.digitChar n) = false := by decide
  simp only [hexEncode, List.mem_flatMap, List.mem_cons, List.not_mem_nil, or_false] at h
  obtain ⟨byte, -, rfl | rfl⟩ := h
  · have hlt := byte.toNat_lt
    exact hdigit _ (by omega)
  · exact hdigit _ (Nat.mod_lt _ (by decide))

/-- Nothing in a sealed line is white space. -/
theorem not_white_of_mem_text {s : SealedLine aead} {c : Char} (h : c ∈ s.text.toList) :
    isWhiteSpace c = false := by
  have hall : (LINE_PREFIX.toList.all fun c => !isWhiteSpace c) = true := by decide +kernel
  have hprefix : ∀ c ∈ LINE_PREFIX.toList, isWhiteSpace c = false := by simpa using hall
  rw [s.toList_text, List.mem_append, List.mem_append, List.mem_cons] at h
  obtain h | h | rfl | h := h
  · exact hprefix c h
  · exact not_white_of_hex h
  · rfl
  · exact not_white_of_hex h

theorem text_ne_nil (s : SealedLine aead) : s.text.toList ≠ [] := by
  rw [s.toList_text]
  simp

theorem trim_text (s : SealedLine aead) : trim s.text.toList = s.text.toList := by
  have hne := s.text_ne_nil
  exact trim_of_ends (List.head?_eq_some_head hne) (List.getLast?_eq_some_getLast hne)
    (not_white_of_mem_text (List.head_mem hne)) (not_white_of_mem_text (List.getLast_mem hne))

theorem newline_not_mem_text (s : SealedLine aead) : '\n' ∉ s.text.toList := by
  intro h
  exact absurd (not_white_of_mem_text h) (by decide)

theorem getLast_text (s : SealedLine aead) : s.text.toList.getLast? ≠ some '\r' := by
  intro h
  exact absurd (not_white_of_mem_text (List.mem_of_getLast? h)) (by decide)

end SealedLine

/-! ## A file of sealed lines -/

/-- What stands in a line of the file, white space around it aside: nothing or a
sealed line. -/
def ShowsLine {aead : LineAead} (line : List Char) : Option (SealedLine aead) → Prop
  | none => trim line = []
  | some s => trim line = s.text.toList

section Marks

variable {aead : LineAead}

/-- The entries in the lines, blank lines left out. -/
def markEntries (marks : List (Option (SealedLine aead))) : List Entry :=
  marks.filterMap fun mark => mark.map SealedLine.entry

/-- Every line stands where it was sealed for, counted without blank lines. -/
def InPlace : Nat → List (Option (SealedLine aead)) → Prop
  | _, [] => True
  | n, none :: marks => InPlace n marks
  | n, some s :: marks => s.position = UInt64.ofNat n ∧ InPlace (n + 1) marks

variable {s : SealedLine aead} {rows : List (List Char)}

theorem decode_text (h : s.Bound) (index : UInt64) (location : String) :
    (Codec.sealed (cipher aead)).decode index location s.text =
      if index = s.position then .ok s.entry.toJsonLine
      else .error (.sealed location (.undecryptable index)) := by
  unfold Codec.decode
  dsimp only [cipher]
  rw [SealedLine.openLine_text h]
  by_cases hindex : index = s.position
  · rw [if_pos hindex, if_pos hindex]
    dsimp only
    rw [mk_toList, fromUTF8?_toUTF8]
  · rw [if_neg hindex, if_neg hindex]

/-- A line that stands where it was sealed for gives its entry; any other line
ends the load. -/
theorem loadLine_shows {line : List Char} (hline : trim line = s.text.toList) (h : s.Bound)
    (hdepth : s.entry.payload.depth < MAX_DEPTH) (path : String) (index : Nat)
    (entries : List Entry) :
    loadLine (.sealed (cipher aead)) path index entries line =
      if s.position = UInt64.ofNat entries.length then .ok (entries ++ [s.entry])
      else .error (.sealed (path ++ ":" ++ toString (index + 1))
        (.undecryptable (UInt64.ofNat entries.length))) := by
  have hjson : Value.fromJson s.entry.toJsonLine = .ok s.entry.bodyWithHash :=
    Value.fromJson_canonicalString _ (s.entry.depth_bodyWithHash_le.mpr hdepth)
  rw [loadLine, hline, if_neg s.text_ne_nil, String.ofList_toList]
  dsimp only
  rw [decode_text h]
  by_cases hindex : s.position = UInt64.ofNat entries.length
  · rw [if_pos hindex.symm, if_pos hindex]
    simp only [bind, Except.bind, hjson, Except.mapError, Entry.parse_bodyWithHash]
  · rw [if_neg (Ne.symm hindex), if_neg hindex]
    rfl

theorem loadLine_blank {line : List Char} (hline : trim line = []) (codec : Codec)
    (path : String) (index : Nat) (entries : List Entry) :
    loadLine codec path index entries line = .ok entries := by
  rw [loadLine, if_pos hline]

/-- Every sealed line of the file is bound to its position, and its payload is
one the decoder has room for. -/
def Sound (marks : List (Option (SealedLine aead))) : Prop :=
  ∀ s, some s ∈ marks → s.Bound ∧ s.entry.payload.depth < MAX_DEPTH

/-- Lines that stand where they were sealed for load one after another. -/
theorem loadFrom_inPlace {marks : List (Option (SealedLine aead))}
    (hshows : List.Forall₂ ShowsLine rows marks) (hsound : Sound marks) (path : String)
    (index : Nat) (entries : List Entry) (hplace : InPlace entries.length marks)
    (rest : List (List Char)) :
    loadFrom (.sealed (cipher aead)) path index entries (rows ++ rest) =
      loadFrom (.sealed (cipher aead)) path (index + rows.length)
        (entries ++ markEntries marks) rest := by
  induction hshows generalizing index entries with
  | nil => simp [markEntries]
  | @cons line mark rows marks hline _ ih =>
    have hsound' : Sound marks := fun s hs => hsound s (List.mem_cons_of_mem _ hs)
    have hindex : index + 1 + rows.length = index + (line :: rows).length := by
      rw [List.length_cons]
      omega
    rw [List.cons_append, loadFrom]
    cases mark with
    | none =>
      rw [loadLine_blank hline]
      show loadFrom _ path (index + 1) entries (rows ++ rest) = _
      rw [ih hsound' (index + 1) entries hplace, hindex]
      rfl
    | some s =>
      obtain ⟨hbound, hdepth⟩ := hsound s List.mem_cons_self
      obtain ⟨hposition, hplace'⟩ := hplace
      rw [loadLine_shows hline hbound hdepth, if_pos hposition]
      show loadFrom _ path (index + 1) (entries ++ [s.entry]) (rows ++ rest) = _
      rw [ih hsound' (index + 1) (entries ++ [s.entry])
        (by rwa [List.length_append, List.length_singleton]), hindex, List.append_assoc]
      rfl

/-- The load ends at the first line that stands elsewhere. -/
theorem loadFrom_misplaced {before after : List (Option (SealedLine aead))}
    (hshows : List.Forall₂ ShowsLine rows (before ++ some s :: after))
    (hsound : Sound (before ++ some s :: after)) (hplace : InPlace 0 before)
    (hposition : s.position ≠ UInt64.ofNat (markEntries before).length) (path : String) :
    loadFrom (.sealed (cipher aead)) path 0 [] rows =
      .error (.sealed (path ++ ":" ++ toString (before.length + 1))
        (.undecryptable (UInt64.ofNat (markEntries before).length))) := by
  have hfront := List.forall₂_take_append rows before _ hshows
  have hback := List.forall₂_drop_append rows before _ hshows
  have hrows := List.take_append_drop before.length rows
  generalize rows.take before.length = front at hfront hrows
  generalize rows.drop before.length = back at hback hrows
  subst hrows
  cases hback with
  | @cons line _ back _ hline _ =>
    obtain ⟨hbound, hdepth⟩ := hsound s (by simp)
    have hsound' : Sound before := fun t ht => hsound t (List.mem_append_left _ ht)
    rw [loadFrom_inPlace hfront hsound' path 0 [] hplace, Nat.zero_add, List.nil_append,
      hfront.length_eq, loadFrom, loadLine_shows hline hbound hdepth, if_neg hposition]
    rfl

/-- Either every line stands where it was sealed for, or there is a first that
does not. -/
theorem inPlace_or_misplaced (n : Nat) (marks : List (Option (SealedLine aead))) :
    InPlace n marks ∨ ∃ before s after, marks = before ++ some s :: after ∧ InPlace n before ∧
      s.position ≠ UInt64.ofNat (n + (markEntries before).length) := by
  induction marks generalizing n with
  | nil => exact .inl trivial
  | cons mark marks ih =>
    cases mark with
    | none =>
      rcases ih n with h | ⟨before, s, after, rfl, hplace, hposition⟩
      · exact .inl h
      · exact .inr ⟨none :: before, s, after, rfl, hplace, hposition⟩
    | some t =>
      by_cases ht : t.position = UInt64.ofNat n
      · rcases ih (n + 1) with h | ⟨before, s, after, rfl, hplace, hposition⟩
        · exact .inl ⟨ht, h⟩
        · refine .inr ⟨some t :: before, s, after, rfl, ⟨ht, hplace⟩, ?_⟩
          have hcount : (markEntries (some t :: before)).length =
              (markEntries before).length + 1 := rfl
          rw [hcount, show n + ((markEntries before).length + 1) =
            n + 1 + (markEntries before).length by omega]
          exact hposition
      · exact .inr ⟨[], t, marks, rfl, trivial, ht⟩

theorem InPlace.position {n : Nat} {before after : List (Option (SealedLine aead))}
    (h : InPlace n (before ++ some s :: after)) :
    s.position = UInt64.ofNat (n + (markEntries before).length) := by
  induction before generalizing n with
  | nil => exact h.1
  | cons mark before ih =>
    cases mark with
    | none => exact ih h
    | some t =>
      have hcount : (markEntries (some t :: before)).length =
          (markEntries before).length + 1 := rfl
      rw [hcount, show n + ((markEntries before).length + 1) =
        n + 1 + (markEntries before).length by omega]
      exact ih h.2

/-- What a file of sealed lines loads to. -/
theorem loadFrom_marks {marks : List (Option (SealedLine aead))}
    (hshows : List.Forall₂ ShowsLine rows marks) (hsound : Sound marks) (path : String)
    {entries : List Entry} (h : loadFrom (.sealed (cipher aead)) path 0 [] rows = .ok entries) :
    InPlace 0 marks ∧ entries = markEntries marks := by
  rcases inPlace_or_misplaced 0 marks with hplace | ⟨before, s, after, rfl, hplace, hposition⟩
  · have hload := loadFrom_inPlace hshows hsound path 0 [] hplace []
    rw [List.append_nil, h] at hload
    exact ⟨hplace, Except.ok.inj hload⟩
  · rw [Nat.zero_add] at hposition
    rw [loadFrom_misplaced hshows hsound hplace hposition] at h
    cases h

end Marks

/-! ## The file an encrypted log writes -/

section Written

variable [Sha256] {aead : LineAead}

/-- The text of some sealed lines, each ended by a newline. -/
def sealedText (own : List (SealedLine aead)) : List Char :=
  own.flatMap fun s => s.text.toList ++ ['\n']

/-- The log and its file hold these lines, each sealed for its place. -/
structure Store.Writes (s : Store) (own : List (SealedLine aead)) : Prop where
  codec : s.ledger.codec = .sealed (cipher aead)
  entries : s.ledger.entries = own.map SealedLine.entry
  bytes : s.bytes = (String.ofList (sealedText own)).toUTF8
  position : ∀ i s, own[i]? = some s → s.position = UInt64.ofNat i
  length_lt : own.length ≤ UInt64.size

variable {s s' : Store} {own : List (SealedLine aead)}

/-- What an append that succeeds leaves. -/
theorem Store.append_ok {call : AppendCall} {e : Entry} (h : s.append call = (s', .ok e)) :
    ∃ encoded, s.ledger.entries.length < UInt64.size ∧
      s.ledger.codec.encode (s.ledger.nextEntry call.kind call.payload call.ts).seq
        (s.ledger.nextEntry call.kind call.payload call.ts).toJsonLine call.io.nonce =
          .ok encoded ∧
      s' = { ledger := { s.ledger with entries :=
               s.ledger.entries ++ [s.ledger.nextEntry call.kind call.payload call.ts] },
             file := some (s.bytes ++ (encoded ++ "\n").toUTF8) } := by
  unfold Store.append at h
  dsimp only at h
  by_cases hview : s.ledger.readOnlyPrefix = true
  · rw [if_pos hview] at h
    cases h
  · rw [if_neg hview] at h
    by_cases hlong : UInt64.size ≤ s.ledger.entries.length
    · rw [if_pos hlong] at h
      cases h
    · rw [if_neg hlong] at h
      split at h
      · cases h
      · rename_i encoded hencode
        refine ⟨encoded, Nat.lt_of_not_le hlong, hencode, ?_⟩
        split at h
        · cases h
        · split at h
          · cases h
          · split at h
            · cases h
            · split at h
              · cases h
              · cases h
                rfl

omit [Sha256] in
theorem sealedText_concat (own : List (SealedLine aead)) (s : SealedLine aead) :
    sealedText (own ++ [s]) = sealedText own ++ (s.text.toList ++ ['\n']) := by
  simp [sealedText]

theorem Store.Writes.append (h : s.Writes own) {call : AppendCall}
    (hnonce : call.io.nonce.length = NONCE_LEN) {e : Entry} (hok : s.append call = (s', .ok e)) :
    ∃ line, s'.Writes (own ++ [line]) := by
  obtain ⟨encoded, hlong, hencode, rfl⟩ := Store.append_ok hok
  have hcount : s.ledger.entries.length = own.length := by rw [h.entries, List.length_map]
  rw [h.codec] at hencode
  simp only [Codec.encode, cipher, sealLine] at hencode
  split at hencode
  · cases hencode
  · rename_i ciphertext hsealed
    let line : SealedLine aead :=
      ⟨(s.ledger.nextEntry call.kind call.payload call.ts).seq, call.io.nonce,
        s.ledger.nextEntry call.kind call.payload call.ts, ciphertext, hnonce, hsealed⟩
    have hencoded : encoded = line.text := (Except.ok.inj hencode).symm
    refine ⟨line, h.codec, ?_, ?_, ?_, ?_⟩
    · show s.ledger.entries ++ [_] = _
      rw [h.entries, List.map_append]
      rfl
    · have htext : String.ofList (sealedText (own ++ [line])) =
          String.ofList (sealedText own) ++ (encoded ++ "\n") := by
        apply String.toList_inj.mp
        rw [sealedText_concat, hencoded]
        simp
      rw [htext]
      show s.bytes ++ (encoded ++ "\n").toUTF8 = _
      rw [h.bytes]
      rfl
    · intro i t hi
      rcases Nat.lt_trichotomy i own.length with hlt | rfl | hgt
      · rw [List.getElem?_append_left hlt] at hi
        exact h.position i t hi
      · rw [List.getElem?_concat_length] at hi
        cases hi
        show UInt64.ofNat s.ledger.entries.length = _
        rw [hcount]
      · have hout : (own ++ [line]).length ≤ i := by
          rw [List.length_append, List.length_singleton]
          omega
        rw [List.getElem?_eq_none hout] at hi
        cases hi
    · rw [List.length_append, List.length_singleton]
      omega

/-- The file of a log written through the encrypting codec is its sealed lines,
in order. -/
theorem Store.Writes.appendAll (h : s.Writes own) {calls : List AppendCall}
    (hnonce : ∀ call ∈ calls, call.io.nonce.length = NONCE_LEN) (hrun : s.appendAll calls = .ok s') :
    ∃ own' : List (SealedLine aead), s'.Writes own' := by
  induction calls generalizing s own with
  | nil =>
    cases hrun
    exact ⟨own, h⟩
  | cons call calls ih =>
    rw [Store.appendAll] at hrun
    split at hrun
    · rename_i next e hok
      obtain ⟨line, hnext⟩ := h.append (hnonce call List.mem_cons_self) hok
      exact ih hnext (fun c hc => hnonce c (List.mem_cons_of_mem _ hc)) hrun
    · cases hrun

omit [Sha256] in
theorem lines_sealedText (own : List (SealedLine aead)) :
    lines (sealedText own) = own.map fun s => s.text.toList := by
  induction own with
  | nil => rfl
  | cons s own ih =>
    have hcons : sealedText (s :: own) = s.text.toList ++ '\n' :: sealedText own := by
      simp [sealedText]
    rw [hcons, lines_line _ s.newline_not_mem_text s.getLast_text, ih, List.map_cons]

omit [Sha256] in
/-- The lines of an untouched file stand where they were sealed for. -/
theorem inPlace_own {n : Nat} (h : ∀ i s, own[i]? = some s → s.position = UInt64.ofNat (n + i)) :
    InPlace n (own.map some) := by
  induction own generalizing n with
  | nil => trivial
  | cons s own ih =>
    refine ⟨h 0 s rfl, ih fun i t hi => ?_⟩
    rw [show n + 1 + i = n + (i + 1) by omega]
    exact h (i + 1) t hi

end Written

/-! ## What edits of whole lines can do -/

section Edits

variable [Sha256] {aead : LineAead}

/-- What the load of a file makes of lines sealed under the key of a log: it
fails at the first that stands elsewhere than it was sealed for, and otherwise
gives what the lines hold, which is a prefix of the log where no foreign line
stands in its own place. -/
structure SealedOutcome (l : Ledger) (own : List (SealedLine aead)) (raw : ByteArray)
    (marks : List (Option (SealedLine aead))) : Prop where
  inPlace : InPlace 0 marks → l.load raw = .ok { l with entries := markEntries marks }
  misplaced : ∀ before s after, marks = before ++ some s :: after → InPlace 0 before →
    s.position ≠ UInt64.ofNat (markEntries before).length →
      l.load raw = .error (.sealed (l.path ++ ":" ++ toString (before.length + 1))
        (.undecryptable (UInt64.ofNat (markEntries before).length)))
  own_prefix : (∀ before s after, marks = before ++ some s :: after →
      s.position = UInt64.ofNat (markEntries before).length → s ∈ own) →
    ∀ l', l.load raw = .ok l' → l'.entries <+: own.map SealedLine.entry

omit [Sha256] in
theorem load_ok {l : Ledger} (hempty : l.entries = []) {codec : Codec}
    (hcodec : l.codec = codec) (text : List Char) :
    l.load (String.ofList text).toUTF8 =
      (loadFrom codec l.path 0 [] (lines text)).map fun entries => { l with entries } := by
  have htext : (String.ofList text).toList = text := String.toList_ofList
  rw [Ledger.load, fromUTF8?_toUTF8]
  dsimp only
  rw [htext, hcodec, hempty]
  cases loadFrom codec l.path 0 [] (lines text) with
  | error e => rfl
  | ok entries => rfl

omit [Sha256] in
/-- Lines of the log that stand where they were sealed for are its first
entries. -/
theorem markEntries_prefix {own : List (SealedLine aead)}
    (hposition : ∀ i s, own[i]? = some s → s.position = UInt64.ofNat i)
    (hlong : own.length ≤ UInt64.size) {marks : List (Option (SealedLine aead))}
    (hlines : marks.length < UInt64.size) (hplace : InPlace 0 marks)
    (hown : ∀ s, some s ∈ marks → s ∈ own) :
    markEntries marks <+: own.map SealedLine.entry := by
  suffices hstep : ∀ (n : Nat) (marks : List (Option (SealedLine aead))),
      n + marks.length < UInt64.size → InPlace n marks → (∀ s, some s ∈ marks → s ∈ own) →
      markEntries marks <+: (own.map SealedLine.entry).drop n by
    exact hstep 0 marks (by rwa [Nat.zero_add]) hplace hown
  intro n marks
  induction marks generalizing n with
  | nil => exact fun _ _ _ => List.nil_prefix
  | cons mark marks ih =>
    intro hcount hplace hown
    rw [List.length_cons] at hcount
    have hown' : ∀ s, some s ∈ marks → s ∈ own := fun s hs => hown s (List.mem_cons_of_mem _ hs)
    cases mark with
    | none => exact ih n (by omega) hplace hown'
    | some s =>
      obtain ⟨hpos, hplace'⟩ := hplace
      obtain ⟨i, hi⟩ := List.getElem?_of_mem (hown s List.mem_cons_self)
      obtain ⟨hlt, -⟩ := List.getElem?_eq_some_iff.mp hi
      have hsame : i = n := by
        have heq := congrArg UInt64.toNat ((hposition i s hi).symm.trans hpos)
        rwa [UInt64.toNat_ofNat_of_lt' (by omega), UInt64.toNat_ofNat_of_lt' (by omega)] at heq
      subst hsame
      have hdrop : (own.map SealedLine.entry).drop i =
          s.entry :: (own.map SealedLine.entry).drop (i + 1) := by
        have hlen : i < (own.map SealedLine.entry).length := by rwa [List.length_map]
        rw [List.drop_eq_getElem_cons hlen, List.getElem_map]
        have hget : own[i] = s := by
          rw [List.getElem?_eq_getElem hlt] at hi
          exact Option.some.inj hi
        rw [hget]
      rw [hdrop]
      exact List.prefix_cons_inj _ |>.mpr (ih (i + 1) (by omega) hplace' hown')

omit [Sha256] in
theorem sealedOutcome {l : Ledger} (hcodec : l.codec = .sealed (cipher aead))
    (hempty : l.entries = []) {own : List (SealedLine aead)}
    (hposition : ∀ i s, own[i]? = some s → s.position = UInt64.ofNat i)
    (hlong : own.length ≤ UInt64.size) {text : List Char}
    {marks : List (Option (SealedLine aead))} (hshows : List.Forall₂ ShowsLine (lines text) marks)
    (hsound : Sound marks) (hlines : marks.length < UInt64.size) :
    SealedOutcome l own (String.ofList text).toUTF8 marks := by
  have hload := load_ok hempty hcodec text
  constructor
  · intro hplace
    have hinPlace := loadFrom_inPlace hshows hsound l.path 0 [] hplace []
    rw [List.append_nil] at hinPlace
    rw [hload, hinPlace]
    rfl
  · rintro before s after rfl hplace hpos
    rw [hload, loadFrom_misplaced hshows hsound hplace hpos]
    rfl
  · intro hforeign l' hok
    rw [hload] at hok
    cases hrows : loadFrom (.sealed (cipher aead)) l.path 0 [] (lines text) with
    | error e =>
      rw [hrows] at hok
      cases hok
    | ok entries =>
      rw [hrows] at hok
      cases hok
      obtain ⟨hplace, rfl⟩ := loadFrom_marks hshows hsound l.path hrows
      apply markEntries_prefix hposition hlong hlines hplace
      intro s hs
      obtain ⟨before, after, rfl⟩ := List.append_of_mem hs
      refine hforeign before s after rfl ?_
      rw [hplace.position, Nat.zero_add]

/-- What the load of a log's file makes of whole lines that were deleted,
repeated, moved, padded or replaced by other lines sealed under the key; left
alone, the file loads to the log. -/
theorem sealed_log_spec {s s' : Store} {calls : List AppendCall}
    (hcodec : s.ledger.codec = .sealed (cipher aead)) (hempty : s.ledger.entries = [])
    (hfile : s.bytes = .empty) (hnonce : ∀ call ∈ calls, call.io.nonce.length = NONCE_LEN)
    (hrun : s.appendAll calls = .ok s') :
    ∃ own : List (SealedLine aead), own.map SealedLine.entry = s'.ledger.entries ∧
      s'.bytes = (String.ofList (sealedText own)).toUTF8 ∧
      (∀ i t, own[i]? = some t → t.position = UInt64.ofNat i) ∧
      ∀ l : Ledger, l.codec = .sealed (cipher aead) → l.entries = [] →
        (Sound (own.map some) →
          l.load s'.bytes = .ok { l with entries := s'.ledger.entries }) ∧
        ∀ (text : List Char) (marks : List (Option (SealedLine aead))),
          List.Forall₂ ShowsLine (lines text) marks → Sound marks → marks.length < UInt64.size →
          SealedOutcome l own (String.ofList text).toUTF8 marks := by
  have hstart : s.Writes ([] : List (SealedLine aead)) :=
    ⟨hcodec, hempty, hfile, by simp, Nat.zero_le _⟩
  obtain ⟨own, hown⟩ := hstart.appendAll hnonce hrun
  refine ⟨own, hown.entries.symm, hown.bytes, hown.position, fun l hl hl' => ⟨?_, ?_⟩⟩
  · intro hsound
    have hshows : List.Forall₂ ShowsLine (lines (sealedText own)) (own.map some) := by
      rw [lines_sealedText, List.forall₂_map_left_iff, List.forall₂_map_right_iff,
        List.forall₂_same]
      exact fun t _ => t.trim_text
    have hplace : InPlace 0 (own.map some) := inPlace_own fun i t hi => by
      rw [Nat.zero_add]
      exact hown.position i t hi
    have hload := load_ok hl' hl (sealedText own)
    have hinPlace := loadFrom_inPlace hshows hsound l.path 0 [] hplace []
    have hentries : markEntries (own.map some) = own.map SealedLine.entry := by
      rw [markEntries, List.filterMap_map, ← List.filterMap_eq_map]
      rfl
    rw [List.append_nil] at hinPlace
    rw [hown.bytes, hload, hinPlace, hown.entries, ← hentries]
    rfl
  · exact fun text marks hshows hsound hlines =>
      sealedOutcome hl hl' hown.position hown.length_lt hshows hsound hlines

end Edits

/-! ## The sample -/

/-- Whole lines of a log deleted, repeated, moved, padded, or replaced by other
lines sealed for another place. -/
inductive Edited {aead : LineAead} (own : List (SealedLine aead)) :
    List (Option (SealedLine aead)) → Prop where
  | same : Edited own (own.map some)
  | delete {before mark after} : Edited own (before ++ mark :: after) → Edited own (before ++ after)
  | repeated {before mark after} : Edited own (before ++ mark :: after) →
      Edited own (before ++ mark :: mark :: after)
  | moved {marks marks'} : Edited own marks → marks.Perm marks' → Edited own marks'
  | padded {before after} : Edited own (before ++ after) → Edited own (before ++ none :: after)
  | replaced {before mark after} (line : SealedLine aead) : Edited own (before ++ mark :: after) →
      line.position ≠ UInt64.ofNat (markEntries before).length →
      Edited own (before ++ some line :: after)

/-- The associated data, each byte after a one, then a zero and the message. -/
def sampleSeal (aad message : List UInt8) : List UInt8 :=
  aad.flatMap (fun byte => [1, byte]) ++ 0 :: message

def sampleOpen : List UInt8 → List UInt8 → Option (List UInt8)
  | [], 0 :: message => some message
  | byte :: aad, 1 :: other :: rest => if byte = other then sampleOpen aad rest else none
  | _, _ => none

def sampleLineAead : LineAead :=
  ⟨fun _ aad message => some (sampleSeal aad message), fun _ => sampleOpen⟩

theorem sampleOpen_seal (aad message : List UInt8) :
    sampleOpen aad (sampleSeal aad message) = some message := by
  induction aad with
  | nil => rfl
  | cons byte aad ih =>
    show (if byte = byte then sampleOpen aad (sampleSeal aad message) else none) = _
    rw [if_pos rfl, ih]

theorem sampleOpen_only {aad other message : List UInt8} (h : other ≠ aad) :
    sampleOpen other (sampleSeal aad message) = none := by
  induction aad generalizing other with
  | nil =>
    cases other with
    | nil => exact absurd rfl h
    | cons byte other => rfl
  | cons byte aad ih =>
    cases other with
    | nil => rfl
    | cons byte' other =>
      show (if byte' = byte then sampleOpen other (sampleSeal aad message) else none) = none
      split_ifs with hbyte
      · subst hbyte
        exact ih fun heq => h (heq ▸ rfl)
      · rfl

theorem sampleAead_bound (s : SealedLine sampleLineAead) : s.Bound := by
  have hsealed : s.ciphertext = sampleSeal (lineAad s.position).toUTF8.toList
      s.entry.toJsonLine.toUTF8.toList := (Option.some.inj s.sealed).symm
  constructor
  · rw [hsealed]
    exact sampleOpen_seal _ _
  · intro aad hne
    rw [hsealed]
    exact sampleOpen_only hne

/-- An empty encrypted log. -/
def sampleSealedStore : Store :=
  { ledger := .unread "log.jsonl" (.sealed (cipher sampleLineAead)) false, file := none }

/-- An append under a nonce of zeros. -/
def sampleCall (payload : Value) : AppendCall :=
  { kind := "objective", payload, ts := "2026-01-01T00:00:00Z"
    io := { AppendIo.fine with nonce := List.replicate 12 0 } }

/-- A line of another log, sealed for the second place. -/
def sampleForeign : SealedLine sampleLineAead where
  position := 1
  nonce := List.replicate 12 0
  entry := { seq := 1, prev := none, kind := "claim", payload := .null
             ts := "2026-01-01T00:00:00Z", hash := "" }
  ciphertext := _
  length_nonce := rfl
  sealed := rfl

theorem sampleCalls_run [Sha256] (payloads : List Value) (hshort : payloads.length ≤ 3) :
    ∃ s', sampleSealedStore.appendAll (payloads.map sampleCall) = .ok s' ∧
      s'.ledger.entries.map Entry.payload = payloads ∧
      ∀ e ∈ s'.ledger.entries, e.kind = "objective" := by
  match payloads, hshort with
  | [], _ => exact ⟨_, rfl, rfl, by simp [sampleSealedStore, Ledger.unread]⟩
  | [_], _ =>
    exact ⟨_, rfl, rfl,
      by simp [sampleSealedStore, Ledger.unread, Ledger.nextEntry, sampleCall]⟩
  | [_, _], _ =>
    exact ⟨_, rfl, rfl,
      by simp [sampleSealedStore, Ledger.unread, Ledger.nextEntry, sampleCall]⟩
  | [_, _, _], _ =>
    exact ⟨_, rfl, rfl,
      by simp [sampleSealedStore, Ledger.unread, Ledger.nextEntry, sampleCall]⟩

/-- One entry written and read back. -/
theorem sealed_log_sample : letI := sampleSha256
    ∃ s', sampleSealedStore.appendAll [sampleCall .null] = .ok s' ∧
      sampleSealedStore.ledger.load s'.bytes =
        .ok { sampleSealedStore.ledger with entries := s'.ledger.entries } := by
  let _ := sampleSha256
  obtain ⟨s', hrun, hpayloads, -⟩ := sampleCalls_run [.null] (by decide)
  have hnonce : ∀ call ∈ [sampleCall .null], call.io.nonce.length = NONCE_LEN := by
    simp [sampleCall, NONCE_LEN]
  obtain ⟨own, hentries, -, -, hload⟩ :=
    @sealed_log_spec _ sampleLineAead sampleSealedStore s' _ rfl rfl rfl hnonce hrun
  refine ⟨s', hrun, (hload sampleSealedStore.ledger rfl rfl).1 fun t ht => ?_⟩
  refine ⟨sampleAead_bound t, ?_⟩
  have hpayload : t.entry.payload ∈ [Value.null] := by
    rw [← hpayloads, ← hentries, List.map_map]
    exact List.mem_map_of_mem (f := Entry.payload ∘ SealedLine.entry)
      (by simpa using ht)
  rw [List.mem_singleton.mp hpayload]
  decide

/-- A line of another log put into the third place comes to stand in the second
when the line before it is deleted, and loads; and a payload at the ceiling is
written and not read back. -/
theorem not_sealed_log :
    (¬∀ (_ : Sha256) (aead : LineAead) (s s' : Store) (calls : List AppendCall)
      (own : List (SealedLine aead)) (marks : List (Option (SealedLine aead)))
      (text : List Char) (l l' : Ledger), s.ledger.entries = [] →
      s.appendAll calls = .ok s' → s'.Writes own → Edited own marks → Sound marks →
      List.Forall₂ ShowsLine (lines text) marks → l.codec = .sealed (cipher aead) → l.entries = [] →
      l.load (String.ofList text).toUTF8 = .ok l' → l'.entries <+: s'.ledger.entries) ∧
    ¬∀ (_ : Sha256) (aead : LineAead) (s s' : Store) (calls : List AppendCall)
      (own : List (SealedLine aead)) (l : Ledger), s.ledger.entries = [] →
      s.appendAll calls = .ok s' → s'.Writes own → (∀ t ∈ own, t.Bound) →
      l.codec = .sealed (cipher aead) → l.entries = [] →
      l.load s'.bytes = .ok { l with entries := s'.ledger.entries } := by
  let _ := sampleSha256
  have hstart : sampleSealedStore.Writes ([] : List (SealedLine sampleLineAead)) :=
    ⟨rfl, rfl, rfl, by simp, Nat.zero_le _⟩
  have hnonce : ∀ payloads : List Value, ∀ call ∈ payloads.map sampleCall,
      call.io.nonce.length = NONCE_LEN := by
    intro payloads call hcall
    obtain ⟨payload, -, rfl⟩ := List.mem_map.mp hcall
    rfl
  constructor
  · intro hall
    obtain ⟨s', hrun, hpayloads, hkinds⟩ := sampleCalls_run [.null, .null, .null] (by decide)
    obtain ⟨own, hown⟩ := hstart.appendAll (hnonce _) hrun
    have hcount : own.length = 3 := by
      have hlength := congrArg List.length hpayloads
      rwa [List.length_map, hown.entries, List.length_map] at hlength
    match own, hcount, hown with
    | [first, second, third], _, hown =>
      have hreplaced : Edited [first, second, third]
          [some first, some second, some sampleForeign] := by
        refine @Edited.replaced _ _ [some first, some second] (some third) [] _ .same ?_
        show (1 : UInt64) ≠ UInt64.ofNat 2
        decide
      have hedited : Edited [first, second, third] [some first, some sampleForeign] :=
        @Edited.delete _ _ [some first] _ _ hreplaced
      have hentries : s'.ledger.entries = [first.entry, second.entry, third.entry] :=
        hown.entries
      rw [hentries] at hpayloads hkinds
      have hfirst : first.entry.payload = .null := by simpa using congrArg List.head? hpayloads
      have hsound : Sound [some first, some sampleForeign] := by
        intro t ht
        refine ⟨sampleAead_bound t, ?_⟩
        simp only [List.mem_cons, Option.some.injEq, List.not_mem_nil, or_false] at ht
        obtain rfl | rfl := ht
        · rw [hfirst]
          decide
        · decide
      have hshows : List.Forall₂ ShowsLine (lines (sealedText [first, sampleForeign]))
          [some first, some sampleForeign] := by
        rw [lines_sealedText]
        exact .cons first.trim_text (.cons sampleForeign.trim_text .nil)
      have hplace : InPlace 0 [some first, some sampleForeign] :=
        ⟨hown.position 0 first rfl, rfl, trivial⟩
      have hcodec : sampleSealedStore.ledger.codec = .sealed (cipher sampleLineAead) := rfl
      have hload := (sealedOutcome hcodec rfl hown.position hown.length_lt hshows hsound
        (show 2 < UInt64.size by decide)).inPlace hplace
      have hprefix := hall _ sampleLineAead sampleSealedStore s' _ _ _ _ _ _ rfl hrun hown hedited
        hsound hshows rfl rfl hload
      rw [hentries] at hprefix
      have hsecond : [first.entry, sampleForeign.entry] <+:
          [first.entry, second.entry, third.entry] := hprefix
      simp only [List.cons_prefix_cons, true_and] at hsecond
      have hkind := hkinds second.entry (by simp)
      rw [← hsecond.1] at hkind
      exact absurd hkind (by decide)
  · intro hall
    obtain ⟨s', hrun, hpayloads, -⟩ := sampleCalls_run [nested 128] (by decide)
    obtain ⟨own, hown⟩ := hstart.appendAll (hnonce _) hrun
    have hload := hall _ sampleLineAead sampleSealedStore s' _ own sampleSealedStore.ledger rfl hrun
      hown (fun t _ => sampleAead_bound t) rfl rfl
    have hcodec : sampleSealedStore.ledger.codec = .sealed (cipher sampleLineAead) := rfl
    rw [hown.bytes, load_ok rfl hcodec (sealedText own)] at hload
    cases hrows : loadFrom (.sealed (cipher sampleLineAead)) sampleSealedStore.ledger.path 0 []
        (lines (sealedText own)) with
    | error e =>
      rw [hrows] at hload
      cases hload
    | ok entries =>
      rw [hrows] at hload
      have hentries : entries = s'.ledger.entries :=
        congrArg Ledger.entries (Except.ok.inj hload)
      have hdeep : nested 128 ∈ entries.map Entry.payload := by
        rw [hentries, hpayloads]
        exact List.mem_singleton_self _
      obtain ⟨e, he, hpayload⟩ := List.mem_map.mp hdeep
      have hdepth : e.payload.depth ≤ 127 :=
        Nat.le_of_lt_succ (depth_of_loadFrom hrows (by simp) e he)
      rw [hpayload] at hdepth
      exact absurd (depth_nested_le.mp hdepth) (by decide)

end Cairn.Ports
