import Cairn.Ports.Reference.Canonical
import Mathlib.Data.List.TakeWhile
import Mathlib.Data.Nat.Bitwise

/-!
# The two implementations agree on the canonical layer

Both crates write the same bytes for a value, accept the same texts with the
same values, and compute the same roots, paths and verdicts on paths. The error
texts differ, so agreement of the decoders is about what they accept.
-/

namespace Cairn.Ports.Reference

open Cairn.Verified
open Cairn.Ports.Canonical

/-! ## Writing -/

/-- The four digits of a control character. -/
theorem leftpad_toDigits {n : Nat} (h : n < 0x20) :
    (Nat.toDigits 16 n).leftpad 4 '0' = [Nat.digitChar (n / 4096 % 16), Nat.digitChar (n / 256 % 16),
      Nat.digitChar (n / 16 % 16), Nat.digitChar (n % 16)] := by
  interval_cases n <;> rfl

theorem escapeChar_eq (out : List Char) (ch : Char) :
    escapeChar out ch = out ++ Canonical.escapeChar ch := by
  unfold escapeChar Canonical.escapeChar
  split_ifs with hquote hslash hback htab hnewline hform hreturn hcontrol
  all_goals try rfl
  rw [leftpad_toDigits hcontrol]

theorem foldl_escapeChar (text out : List Char) :
    text.foldl escapeChar out = out ++ text.flatMap Canonical.escapeChar := by
  induction text generalizing out with
  | nil => simp
  | cons ch rest ih => rw [List.foldl_cons, ih, escapeChar_eq, List.flatMap_cons, List.append_assoc]

theorem escape_eq (text : String) (out : List Char) : escape text out = out ++ writeEscaped text := by
  unfold escape writeEscaped
  rw [foldl_escapeChar]
  simp

mutual

/-- The second writer appends what the first one writes. -/
theorem write_eq : ∀ (t : Tree) (out : List Char), write t out = out ++ t.writeCanonical
  | .null, out => rfl
  | .bool true, out => rfl
  | .bool false, out => rfl
  | .int value, out => rfl
  | .string text, out => escape_eq text out
  | .array items, out => by
      rw [write, writeItems_eq, Tree.writeCanonical]
      simp
  | .object fields, out => by
      rw [write, writeFields_eq, Tree.writeCanonical]
      simp

theorem writeItems_eq : ∀ (index : Nat) (items : List Tree) (out : List Char),
    writeItems index items out =
      out ++ if index = 0 then Tree.writeItems items else Tree.writeMoreItems items
  | index, [], out => by simp [writeItems, Tree.writeItems, Tree.writeMoreItems]
  | index, item :: items, out => by
      rw [writeItems, writeItems_eq, write_eq]
      by_cases h : index = 0
      · simp [h, Tree.writeItems]
      · simp [h, Nat.pos_of_ne_zero h, Tree.writeMoreItems]

theorem writeFields_eq : ∀ (index : Nat) (fields : List (String × Tree)) (out : List Char),
    writeFields index fields out =
      out ++ if index = 0 then Tree.writeFields fields else Tree.writeMoreFields fields
  | index, [], out => by simp [writeFields, Tree.writeFields, Tree.writeMoreFields]
  | index, (key, item) :: fields, out => by
      rw [writeFields, writeFields_eq, write_eq, escape_eq]
      by_cases h : index = 0
      · simp [h, Tree.writeFields]
      · simp [h, Nat.pos_of_ne_zero h, Tree.writeMoreFields]

end

theorem canonicalBytes_eq (v : Value) : canonicalBytes v = v.canonicalBytes := by
  unfold canonicalBytes canonicalString Value.canonicalBytes Value.canonicalString Value.write
  rw [write_eq, List.nil_append]

/-! ## Decoding -/

/-- Both fail, or both succeed with one result. -/
def Agree {α : Type} (x : Except CanonicalError α) (y : Except Canonical.CanonicalError α) : Prop :=
  x.toOption = y.toOption

namespace Agree

variable {α β : Type}

theorem error (e : CanonicalError) (e' : Canonical.CanonicalError) :
    Agree (.error e : Except CanonicalError α) (.error e') := rfl

theorem ok (a : α) : Agree (.ok a) (.ok a) := rfl

theorem bind {x : Except CanonicalError α} {y : Except Canonical.CanonicalError α}
    {f : α → Except CanonicalError β} {g : α → Except Canonical.CanonicalError β} (h : Agree x y)
    (hf : ∀ a, Agree (f a) (g a)) : Agree (x >>= f) (y >>= g) := by
  cases x with
  | error e =>
    cases y with
    | error e' => exact .error e e'
    | ok b => cases h
  | ok a =>
    cases y with
    | error e' => cases h
    | ok b =>
      cases h
      exact hf a

theorem ite {c c' : Prop} [Decidable c] [Decidable c'] {x x' : Except CanonicalError α}
    {y y' : Except Canonical.CanonicalError α} (hc : c ↔ c') (h : c → Agree x y)
    (h' : ¬c → Agree x' y') : Agree (if c then x else x') (if c' then y else y') := by
  by_cases hcase : c
  · rw [if_pos hcase, if_pos (hc.mp hcase)]
    exact h hcase
  · rw [if_neg hcase, if_neg (hc.not.mp hcase)]
    exact h' hcase

end Agree

namespace Parser

theorem isDigit_eq (c : Char) : isDigit c = c.isDigit := rfl

theorem skipSpace_eq (p : Parser) : skipSpace p = p.skipWhitespace := by
  obtain ⟨rest, pos⟩ := p
  unfold skipSpace Parser.skipWhitespace
  dsimp only
  induction rest generalizing pos with
  | nil => rfl
  | cons c rest ih =>
    rw [skipSpaceFrom]
    by_cases hspace : c = ' ' ∨ c = '\t' ∨ c = '\n' ∨ c = '\r'
    · have hblank : Parser.isWhitespace c = true := by simpa [Parser.isWhitespace, or_assoc] using hspace
      rw [if_pos hspace, ih, List.dropWhile_cons_of_pos hblank, List.takeWhile_cons_of_pos hblank,
        List.length_cons]
      congr 1
      omega
    · have hblank : ¬Parser.isWhitespace c = true := by
        simpa [Parser.isWhitespace, or_assoc] using hspace
      rw [if_neg hspace, List.dropWhile_cons_of_neg hblank, List.takeWhile_cons_of_neg hblank]
      rfl

theorem skipDigits_eq (p : Parser) : skipDigits p = p.takeDigits.2 := by
  obtain ⟨rest, pos⟩ := p
  unfold skipDigits Parser.takeDigits
  dsimp only
  induction rest generalizing pos with
  | nil => rfl
  | cons c rest ih =>
    rw [skipDigitsFrom, isDigit_eq]
    by_cases hdigit : c.isDigit = true
    · rw [if_pos hdigit, ih, List.dropWhile_cons_of_pos hdigit, List.takeWhile_cons_of_pos hdigit,
        List.length_cons]
      congr 1
      omega
    · rw [if_neg hdigit, List.dropWhile_cons_of_neg hdigit, List.takeWhile_cons_of_neg hdigit]
      rfl

theorem atDigit_eq (p : Parser) : atDigit p = p.peekDigit := rfl

theorem literal_agree (p : Parser) (word : String) (v : Value) :
    Agree (literal p word.toList v) (p.literal word v) := by
  unfold Parser.literal Canonical.Parser.literal
  apply Agree.ite
  · rw [List.isPrefixOf_iff_prefix]
  · intro _
    rw [String.length_toList]
    exact .ok _
  · intro _
    exact .error _ _

/-! ### Numbers -/

/-- The digits of the integer part are what stands between the two cursors. -/
structure IntPart (start : Parser) (digits : List Char) (p : Parser) : Prop where
  rest : start.rest = digits ++ p.rest
  pos : p.pos = start.pos + digits.length
  nonempty : digits ≠ []
  digit : ∀ c ∈ digits, c.isDigit = true

theorem intPart_agree (p : Parser) :
    (∃ digits q, intPart p = .ok q ∧ p.parseIntPart = .ok (digits, q) ∧ IntPart p digits q) ∨
      ∃ e e', intPart p = .error e ∧ p.parseIntPart = .error e' := by
  obtain ⟨rest, pos⟩ := p
  cases rest with
  | nil => exact .inr ⟨_, _, rfl, rfl⟩
  | cons c rest =>
    by_cases hzero : c = '0'
    · rw [hzero]
      unfold intPart Parser.parseIntPart
      simp only [Parser.peek, List.head?_cons]
      rw [atDigit_eq]
      by_cases hmore : (Parser.bump ⟨'0' :: rest, pos⟩).peekDigit = true
      · rw [if_pos hmore, if_pos hmore]
        exact .inr ⟨_, _, rfl, rfl⟩
      · rw [if_neg hmore, if_neg hmore]
        refine .inl ⟨_, _, rfl, rfl, rfl, rfl, by simp, ?_⟩
        intro d hd
        rw [List.mem_singleton.mp hd]
        rfl
    · have hpart : intPart ⟨c :: rest, pos⟩ =
          if isDigit c then .ok (skipDigits ⟨c :: rest, pos⟩)
          else .error (bad ⟨c :: rest, pos⟩ "expected a digit") := by
        unfold intPart
        split
        · simp_all [Canonical.Parser.peek]
        · simp_all [Canonical.Parser.peek]
        · simp_all [Canonical.Parser.peek]
      have hpart' : Canonical.Parser.parseIntPart ⟨c :: rest, pos⟩ =
          if c.isDigit then .ok (Canonical.Parser.takeDigits ⟨c :: rest, pos⟩)
          else .error (Canonical.Parser.malformed ⟨c :: rest, pos⟩ "expected a digit") := by
        unfold Canonical.Parser.parseIntPart
        split
        · simp_all [Canonical.Parser.peek]
        · simp_all [Canonical.Parser.peek]
        · simp_all [Canonical.Parser.peek]
      rw [hpart, hpart', isDigit_eq]
      by_cases hdigit : c.isDigit = true
      · rw [if_pos hdigit, if_pos hdigit, skipDigits_eq]
        refine .inl ⟨_, _, rfl, rfl, List.takeWhile_append_dropWhile.symm, rfl, ?_, ?_⟩
        · simp [hdigit]
        · intro d hd
          exact List.mem_takeWhile_imp hd
      · rw [if_neg hdigit, if_neg hdigit]
        exact .inr ⟨_, _, rfl, rfl⟩

/-- A fraction moves the cursor only where there is one. -/
theorem fraction_agree (p : Parser) :
    (fraction p).toOption = p.parseFraction.toOption ∧
      ∀ q, fraction p = .ok (false, q) → q = p := by
  unfold fraction Parser.parseFraction
  rw [atDigit_eq, skipDigits_eq]
  split_ifs <;> simp_all [Except.toOption]

theorem exponent_agree (isFloat : Bool) (p : Parser) :
    (exponent isFloat p).toOption =
        p.parseExponent.toOption.map (fun r => (isFloat || r.1, r.2)) ∧
      ∀ q, exponent isFloat p = .ok (false, q) → q = p := by
  unfold exponent Parser.parseExponent
  dsimp only
  simp only [atDigit_eq, skipDigits_eq]
  split_ifs <;> simp_all [Except.toOption]

/-- A sign and digits are the number they spell. -/
theorem parseI128_digits {digits : List Char} (hne : digits ≠ [])
    (hdigit : ∀ c ∈ digits, c.isDigit = true) :
    parseI128 ('-' :: digits) = I128.ofInt? (Parser.intOfDigits true digits) ∧
      parseI128 digits = I128.ofInt? (Parser.intOfDigits false digits) := by
  have hall : digits.all isDigit = true := List.all_eq_true.mpr hdigit
  have hempty : digits.isEmpty = false := List.isEmpty_eq_false_iff.mpr hne
  constructor
  · simp [parseI128, hall, hempty]
  · obtain ⟨c, rest, rfl⟩ := List.exists_cons_of_ne_nil hne
    have hc := hdigit c (by simp)
    have hminus : c ≠ '-' := by
      rintro rfl
      exact absurd hc (by decide)
    have hplus : c ≠ '+' := by
      rintro rfl
      exact absurd hc (by decide)
    have hnegative : (c == '-') = false := by simpa using hminus
    simp [parseI128, hnegative, hplus, hall]

/-- The slice between two cursors is what was read. -/
theorem take_of_read {start p : Parser} {read : List Char} (hrest : start.rest = read ++ p.rest)
    (hpos : p.pos = start.pos + read.length) : start.rest.take (p.pos - start.pos) = read := by
  rw [hrest, hpos, Nat.add_sub_cancel_left, List.take_left]

/-- The number between the cursor of a number and the one past its digits. -/
theorem parseI128_slice {p q : Parser} {digits : List Char}
    (h : IntPart (if p.peek = some '-' then p.bump else p) digits q) :
    parseI128 (p.rest.take (q.pos - p.pos)) =
      I128.ofInt? (Parser.intOfDigits (p.peek == some '-') digits) := by
  obtain ⟨hminus, hdigits⟩ := parseI128_digits h.nonempty h.digit
  by_cases hsign : p.peek = some '-'
  · rw [if_pos hsign] at h
    have hread : p.rest = '-' :: digits ++ q.rest := by
      obtain ⟨rest, pos⟩ := p
      cases rest with
      | nil => cases hsign
      | cons c rest =>
        cases hsign
        rw [List.cons_append, ← h.rest]
        rfl
    have hpos : q.pos = p.pos + ('-' :: digits).length := by
      rw [h.pos, List.length_cons, Canonical.Parser.bump]
      dsimp only
      omega
    rw [take_of_read hread hpos, hminus, hsign]
    rfl
  · rw [if_neg hsign] at h
    have hnegative : (p.peek == some '-') = false := by simpa using hsign
    rw [take_of_read h.rest h.pos, hdigits, hnegative]

theorem number_agree (path : String) (p : Parser) : Agree (number path p) (p.parseNumber path) := by
  unfold number Canonical.Parser.parseNumber
  have hstart : (if (p.peek == some '-') = true then p.bump else p) =
      if p.peek = some '-' then p.bump else p := by
    simp only [beq_iff_eq]
  dsimp only
  rw [hstart]
  obtain ⟨digits, q, hpart, hpart', hread⟩ | ⟨e, e', hpart, hpart'⟩ :=
    intPart_agree (if p.peek = some '-' then p.bump else p)
  · rw [hpart, hpart']
    show Agree (fraction q >>= _) (q.parseFraction >>= _)
    obtain ⟨hfraction, hstays⟩ := fraction_agree q
    cases hf : fraction q with
    | error e =>
      cases hf' : q.parseFraction with
      | error e' => exact .error _ _
      | ok r => simp [hf, hf', Except.toOption] at hfraction
    | ok r =>
      cases hf' : q.parseFraction with
      | error e' => simp [hf, hf', Except.toOption] at hfraction
      | ok r' =>
        have hsame : r = r' := by simpa [hf, hf', Except.toOption] using hfraction
        subst hsame
        obtain ⟨isFloat, q'⟩ := r
        show Agree (exponent isFloat q' >>= _) (q'.parseExponent >>= _)
        obtain ⟨hexponent, hstays'⟩ := exponent_agree isFloat q'
        cases he : exponent isFloat q' with
        | error e =>
          cases he' : q'.parseExponent with
          | error e' => exact .error _ _
          | ok r => simp [he, he', Except.toOption] at hexponent
        | ok r =>
          cases he' : q'.parseExponent with
          | error e' => simp [he, he', Except.toOption] at hexponent
          | ok r' =>
            have hsame : r = (isFloat || r'.1, r'.2) := by
              simpa [he, he', Except.toOption] using hexponent
            subst hsame
            obtain ⟨more, q''⟩ := r'
            show Agree (if (isFloat || more) = true then _ else _)
              (if (isFloat || more) = true then _ else _)
            apply Agree.ite Iff.rfl
            · intro _
              exact .error _ _
            · intro hfloat
              rw [Bool.not_eq_true, Bool.or_eq_false_iff] at hfloat
              obtain ⟨rfl, rfl⟩ := hfloat
              -- the cursor has not moved past the digits
              have hq'' : q'' = q' := hstays' q'' he
              have hq' : q' = q := hstays q' hf
              rw [hq'', hq', parseI128_slice hread]
              cases I128.ofInt? (Parser.intOfDigits (p.peek == some '-') digits) with
              | none => exact .error _ _
              | some i => exact .ok _
  · rw [hpart, hpart']
    exact .error _ _

/-! ### Strings -/

theorem hexDigitVal_eq (c : Char) : Parser.hexDigitVal? c = hexDigitValue c := by
  unfold Parser.hexDigitVal? hexDigitValue
  have hdigit : c.isDigit = true ↔ '0' ≤ c ∧ c ≤ '9' := by
    simp [Char.isDigit, Char.le_def]
  by_cases h : '0' ≤ c ∧ c ≤ '9'
  · rw [if_pos h, if_pos (hdigit.mpr h)]
    rfl
  · rw [if_neg h, if_neg (hdigit.not.mpr h)]
    split_ifs with hlower hupper
    · have hle : 97 ≤ c.toNat := hlower.1
      congr 1
      show c.toNat - 97 + 10 = c.toNat - 87
      omega
    · have hle : 65 ≤ c.toNat := hupper.1
      congr 1
      show c.toNat - 65 + 10 = c.toNat - 55
      omega
    · rfl

theorem isHexDigit_eq (c : Char) : isHexDigit c = (hexDigitValue c).isSome := by
  rw [← hexDigitVal_eq]
  unfold isHexDigit Parser.hexDigitVal?
  split_ifs with hdigit hlower hupper
  · simp [hdigit]
  · simp [hlower]
  · simp [hupper]
  · simp_all

theorem fromStrRadix16_four {a b c d : Char} {x y z w : Nat} (ha : hexDigitValue a = some x)
    (hb : hexDigitValue b = some y) (hc : hexDigitValue c = some z) (hd : hexDigitValue d = some w) :
    fromStrRadix16 (2 ^ 32) [a, b, c, d] = some (((x * 16 + y) * 16 + z) * 16 + w) := by
  have hx := hexDigitValue_lt ha
  have hy := hexDigitValue_lt hb
  have hz := hexDigitValue_lt hc
  have hw := hexDigitValue_lt hd
  have hplus : a ≠ '+' := by
    rintro rfl
    have hnone : hexDigitValue '+' = none := by decide
    rw [hnone] at ha
    cases ha
  unfold fromStrRadix16
  simp [hplus, ha, hb, hc, hd]
  omega

theorem hex4_agree (p : Parser) : Agree (hex4 p) (Canonical.Parser.hex4 p) := by
  obtain ⟨rest, pos⟩ := p
  unfold hex4 Canonical.Parser.hex4
  rcases rest with _ | ⟨a, _ | ⟨b, _ | ⟨c, _ | ⟨d, rest⟩⟩⟩⟩
  · exact .error _ _
  · exact .error _ _
  · exact .error _ _
  · exact .error _ _
  · simp only [List.take_succ_cons, List.take_zero, List.drop_succ_cons, List.drop_zero,
      List.length_cons, List.length_nil, List.all_cons, List.all_nil, Bool.and_true, isHexDigit_eq,
      hexDigitVal_eq]
    cases ha : hexDigitValue a with
    | none => exact .error _ _
    | some x =>
    cases hb : hexDigitValue b with
    | none => exact .error _ _
    | some y =>
    cases hc : hexDigitValue c with
    | none => exact .error _ _
    | some z =>
    cases hd : hexDigitValue d with
    | none => exact .error _ _
    | some w =>
      rw [fromStrRadix16_four ha hb hc hd]
      exact .ok _

theorem charFromU32_agree (p : Parser) (code : Nat) :
    Agree (charFromU32 p code) (Canonical.Parser.charFromU32 p code) := by
  unfold charFromU32 Canonical.Parser.charFromU32
  exact Agree.ite Iff.rfl (fun _ => .ok _) fun _ => .error _ _

theorem unicodeEscape_agree (p : Parser) : Agree (unicodeEscape p) p.parseUnicodeEscape := by
  unfold unicodeEscape Canonical.Parser.parseUnicodeEscape
  apply (hex4_agree p).bind
  rintro ⟨high, q⟩
  apply Agree.ite Iff.rfl
  · intro _
    exact .error _ _
  intro _
  apply Agree.ite Iff.rfl
  · intro _
    apply Agree.ite Iff.rfl
    · intro _
      exact .error _ _
    intro _
    apply Agree.ite Iff.rfl
    · intro _
      exact .error _ _
    intro _
    apply (hex4_agree _).bind
    rintro ⟨low, r⟩
    by_cases hlow : 0xDC00 ≤ low ∧ low ≤ 0xDFFF
    · dsimp only
      rw [if_pos hlow, if_neg (not_not_intro hlow), Nat.shiftLeft_eq]
      exact charFromU32_agree _ _
    · dsimp only
      rw [if_neg hlow, if_pos hlow]
      exact .error _ _
  · intro _
    exact charFromU32_agree _ _

theorem escaped_agree (letter : Char) (p : Parser) :
    Agree (escaped letter p) (Canonical.Parser.parseEscape letter p) := by
  unfold escaped
  split_ifs with hquote hback hslash hb hf hn hr ht hu
  · rw [hquote]
    exact .ok _
  · rw [hback]
    exact .ok _
  · rw [hslash]
    exact .ok _
  · rw [hb]
    exact .ok _
  · rw [hf]
    exact .ok _
  · rw [hn]
    exact .ok _
  · rw [hr]
    exact .ok _
  · rw [ht]
    exact .ok _
  · rw [hu]
    exact unicodeEscape_agree p
  · have hother : Canonical.Parser.parseEscape letter p = .error (p.malformed "unknown escape") := by
      unfold Canonical.Parser.parseEscape
      split <;> simp_all
    rw [hother]
    exact .error _ _

theorem stringLoop_agree (fuel : Nat) (out : List Char) (p : Parser) :
    Agree (stringLoop fuel out p) (Canonical.Parser.parseStringLoop fuel out p) := by
  induction fuel generalizing out p with
  | zero => exact .error _ _
  | succ fuel ih =>
    obtain ⟨rest, pos⟩ := p
    cases rest with
    | nil => exact .error _ _
    | cons c rest =>
      rw [stringLoop]
      simp only [Canonical.Parser.peek, List.head?_cons]
      by_cases hquote : c = '"'
      · subst hquote
        exact .ok _
      rw [if_neg hquote]
      by_cases hback : c = '\\'
      · subst hback
        rw [if_pos rfl]
        cases rest with
        | nil => exact .error _ _
        | cons letter rest =>
          show Agree (escaped letter _ >>= _) (Canonical.Parser.parseEscape letter _ >>= _)
          exact (escaped_agree letter _).bind fun a => ih _ _
      · have hplain : Canonical.Parser.parseStringLoop (fuel + 1) out ⟨c :: rest, pos⟩ =
            if c.toNat < 0x20 then
              .error (Canonical.Parser.malformed ⟨c :: rest, pos⟩ "raw control character in string")
            else Canonical.Parser.parseStringLoop fuel (out ++ [c]) ⟨rest, pos + c.utf8Size⟩ := by
          simp [Canonical.Parser.parseStringLoop, hback]
        rw [if_neg hback, hplain]
        apply Agree.ite Iff.rfl
        · intro _
          exact .error _ _
        · intro _
          exact ih _ _

theorem string_agree {p : Parser} (h : p.peek = some '"') : Agree (string p) p.parseString := by
  unfold string Canonical.Parser.parseString Canonical.Parser.expect
  rw [if_pos h]
  show Agree (stringLoop _ [] p.bump >>= _) (Canonical.Parser.parseStringLoop _ [] p.bump >>= _)
  exact (stringLoop_agree _ _ _).bind fun a => .ok _

/-! ### Containers -/

section Items

variable {item : ItemParser} {item' : Canonical.Parser.ItemParser}
  (hitem : ∀ path p, Agree (item path p) (item' path p))
include hitem

theorem arrayLoop_agree (path : String) (fuel : Nat) (out : List Value) (p : Parser) :
    Agree (arrayLoop item path fuel out p) (Canonical.Parser.parseItems item' path fuel out p) := by
  induction fuel generalizing out p with
  | zero => exact .error _ _
  | succ fuel ih =>
    rw [arrayLoop, Canonical.Parser.parseItems]
    apply (hitem _ p).bind
    rintro ⟨v, q⟩
    simp only [skipSpace_eq]
    by_cases hcomma : q.skipWhitespace.peek = some ','
    · rw [if_pos hcomma, hcomma]
      exact ih _ _
    by_cases hclose : q.skipWhitespace.peek = some ']'
    · rw [if_neg hcomma, if_pos hclose, hclose]
      exact .ok _
    rw [if_neg hcomma, if_neg hclose]
    split
    · next h => exact absurd h hcomma
    · next h => exact absurd h hclose
    · exact .error _ _

theorem array_agree {path : String} {p : Parser} (h : p.peek = some '[') :
    Agree (array item path p) (Canonical.Parser.parseArray item' path p) := by
  unfold array Canonical.Parser.parseArray Canonical.Parser.expect
  rw [if_pos h]
  simp only [skipSpace_eq]
  apply Agree.ite Iff.rfl
  · intro _
    exact .ok _
  · intro _
    exact arrayLoop_agree hitem path _ _ _

theorem mapLoop_agree (path : String) (fuel : Nat) (out : BTreeMap String Value) (p : Parser) :
    Agree (mapLoop item path fuel out p) (Canonical.Parser.parseFields item' path fuel out p) := by
  induction fuel generalizing out p with
  | zero => exact .error _ _
  | succ fuel ih =>
    rw [mapLoop, Canonical.Parser.parseFields]
    apply Agree.ite Iff.rfl
    · intro _
      exact .error _ _
    intro hkey
    apply (string_agree (not_not.mp hkey)).bind
    rintro ⟨key, q⟩
    simp only [skipSpace_eq]
    unfold Canonical.Parser.expect
    by_cases hcolon : q.skipWhitespace.peek = some ':'
    · rw [if_neg (not_not_intro hcolon), if_pos hcolon]
      apply (hitem _ _).bind
      rintro ⟨v, r⟩
      dsimp only
      by_cases hcomma : r.skipWhitespace.peek = some ','
      · rw [if_pos hcomma, hcomma]
        exact ih _ _
      by_cases hclose : r.skipWhitespace.peek = some '\x7d'
      · rw [if_neg hcomma, if_pos hclose, hclose]
        exact .ok _
      rw [if_neg hcomma, if_neg hclose]
      split
      · next h => exact absurd h hcomma
      · next h => exact absurd h hclose
      · exact .error _ _
    · rw [if_pos hcolon, if_neg hcolon]
      exact .error _ _

theorem map_agree {path : String} {p : Parser} (h : p.peek = some '\x7b') :
    Agree (map item path p) (Canonical.Parser.parseObject item' path p) := by
  unfold map Canonical.Parser.parseObject Canonical.Parser.expect
  rw [if_pos h]
  simp only [skipSpace_eq]
  apply Agree.ite Iff.rfl
  · intro _
    exact .ok _
  · intro _
    exact mapLoop_agree hitem path _ _ _

end Items

/-- The decoders accept the same values, with the same text left over. -/
theorem value_agree (room : Nat) (path : String) (p : Parser) :
    Agree (value room path p) (Canonical.Parser.parseValue room path p) := by
  induction room generalizing path p with
  | zero => exact .error _ _
  | succ room ih =>
    rw [value, Canonical.Parser.parseValue.eq_def]
    dsimp only
    cases hpeek : p.peek with
    | none => exact .error _ _
    | some c =>
      dsimp only
      by_cases hn : c = 'n'
      · subst hn
        exact literal_agree p "null" .null
      by_cases ht : c = 't'
      · subst ht
        exact literal_agree p "true" (.bool true)
      by_cases hf : c = 'f'
      · subst hf
        exact literal_agree p "false" (.bool false)
      by_cases hquote : c = '"'
      · subst hquote
        exact (string_agree hpeek).bind fun a => .ok _
      by_cases hbracket : c = '['
      · subst hbracket
        exact array_agree ih hpeek
      by_cases hbrace : c = '\x7b'
      · subst hbrace
        exact map_agree ih hpeek
      rw [if_neg hn, if_neg ht, if_neg hf, if_neg hquote, if_neg hbracket, if_neg hbrace]
      by_cases hnumber : c = '-' ∨ isDigit c = true
      · rw [if_pos hnumber]
        split
        all_goals try simp_all
        rw [if_pos (by simpa [isDigit_eq] using hnumber)]
        exact number_agree path p
      · rw [if_neg hnumber]
        split
        all_goals try simp_all
        rw [if_neg (by simpa [isDigit_eq] using hnumber.2)]
        exact .error _ _

end Parser

theorem fromJson_agree (text : String) : Agree (fromJson text) (Value.fromJson text) := by
  unfold fromJson Value.fromJson Value.fromJsonWithin
  dsimp only
  rw [Parser.skipSpace_eq]
  apply (Parser.value_agree _ _ _).bind
  rintro ⟨v, p⟩
  dsimp only
  rw [Parser.skipSpace_eq]
  apply Agree.ite Iff.rfl
  · intro _
    exact .error _ _
  · intro _
    exact .ok _

/-! ## The tree -/

section Tree

variable [Sha256]

omit [Sha256] in
theorem hexLower_eq (bytes : List UInt8) : hexLower bytes = hexEncode bytes := by
  have hbyte : ∀ n < 256, (Nat.toDigits 16 n).leftpad 2 '0' =
      [Nat.digitChar (n / 16), Nat.digitChar (n % 16)] := by decide +kernel
  unfold hexLower hexEncode
  rw [List.flatMap_def]
  congr 1
  exact List.map_congr_left fun b _ => hbyte _ b.toNat_lt

theorem digestBytes_eq (data : ByteArray) : digestBytes data = Canonical.digestBytes data := by
  unfold digestBytes Canonical.digestBytes
  rw [hexLower_eq]

theorem digest_eq (v : Value) : digest v = v.digest := by
  unfold digest
  rw [digestBytes_eq, canonicalBytes_eq]
  rfl

theorem nextLevel_eq (level : List String) : nextLevel level.length level = pairLevel level := by
  induction level using pairLevel.induct with
  | case1 a b rest ih =>
    have hhalf : (rest.length + 2) / 2 = rest.length / 2 + 1 := by omega
    have hparity : (rest.length + 2) % 2 = rest.length % 2 := by omega
    rw [pairLevel, ← ih]
    unfold nextLevel
    rw [List.length_cons, List.length_cons, hhalf, hparity, List.range_succ_eq_map, List.map_cons,
      List.map_map, List.cons_append]
    congr 1
    · rw [digestBytes_eq]
      rfl
    · congr 1
      split_ifs with hodd
      · congr 1
        have hpos : rest.length - 1 + 2 = rest.length + 2 - 1 := by omega
        rw [← hpos]
        rfl
      · rfl
  | case2 a => simp [nextLevel, pairLevel]
  | case3 => rfl

theorem rootLoop_eq (fuel : Nat) (level : List String) :
    rootLoop fuel level = reduceLevels fuel level := by
  induction fuel generalizing level with
  | zero => rfl
  | succ fuel ih =>
    rw [rootLoop, reduceLevels, nextLevel_eq, ih]

theorem merkleRoot_eq (leaves : List String) : merkleRoot leaves = Canonical.merkleRoot leaves := by
  unfold merkleRoot Canonical.merkleRoot
  rw [rootLoop_eq]
  cases leaves with
  | nil => rfl
  | cons a rest => rfl

omit [Sha256] in
/-- The other half of a pair. -/
theorem xor_one (here : Nat) : (if here % 2 = 0 then here + 1 else here - 1) = here ^^^ 1 := by
  split_ifs with heven
  · exact (Nat.xor_one_of_even (Nat.even_iff.mpr heven)).symm
  · exact (Nat.xor_one_of_odd (Nat.odd_iff.mpr (by omega))).symm

theorem siblingsFrom_eq (fuel : Nat) (level : List String) (here : Nat) :
    siblingsFrom (widthsFrom fuel level.length) level here = proofSiblings fuel level here := by
  induction fuel generalizing level here with
  | zero => rfl
  | succ fuel ih =>
    rw [widthsFrom, proofSiblings]
    by_cases hwide : 1 < level.length
    · rw [if_pos hwide, if_pos hwide, siblingsFrom, nextLevel_eq, xor_one, ← length_pairLevel, ih]
    · rw [if_neg hwide, if_neg hwide, siblingsFrom]

theorem merkleProof_eq (leaves : List String) (index : Nat) :
    merkleProof leaves index = Canonical.merkleProof leaves index := by
  unfold merkleProof Canonical.merkleProof levelWidths
  rw [siblingsFrom_eq]

theorem climb_eq (fuel : Nat) (hash : String) (here width : Nat) (supplied : List String) :
    climb (widthsFrom fuel width) hash here supplied = walk fuel hash here width supplied := by
  induction fuel generalizing hash here width supplied with
  | zero => rfl
  | succ fuel ih =>
    rw [widthsFrom, walk.eq_def]
    dsimp only
    by_cases hwide : 1 < width
    · rw [if_pos hwide, if_pos hwide, climb.eq_def]
      dsimp only
      by_cases hodd : width % 2 = 1 ∧ here = width - 1
      · rw [if_pos hodd, if_pos hodd, ih]
      · rw [if_neg hodd, if_neg hodd]
        cases supplied with
        | nil => rfl
        | cons sibling supplied =>
          dsimp only
          rw [ih, digestBytes_eq]
          rfl
    · rw [if_neg hwide, if_neg hwide, climb]

theorem verify_eq (p : Inclusion) (leaf root : String) : verify p leaf root = p.verify leaf root := by
  unfold verify levelWidths
  rw [climb_eq]
  exact rfl

/-- One canonical layer: the decoders accept the same texts with the same
values, the writers write the same bytes, and the trees have the same roots,
paths and verdicts on paths. -/
theorem canonical_agree :
    (∀ text, (fromJson text).toOption = (Value.fromJson text).toOption) ∧
      (∀ v, canonicalBytes v = v.canonicalBytes) ∧
      (∀ leaves, merkleRoot leaves = Canonical.merkleRoot leaves) ∧
      (∀ leaves index, merkleProof leaves index = Canonical.merkleProof leaves index) ∧
      ∀ (p : Inclusion) (leaf root : String), verify p leaf root = p.verify leaf root :=
  ⟨fromJson_agree, canonicalBytes_eq, merkleRoot_eq, merkleProof_eq, verify_eq⟩

end Tree

end Cairn.Ports.Reference
