import Cairn.Ports.Canonical.Grammar

/-!
# The decoder recognises the grammar

The decoder is related to the grammar in two directions. *Sound*: the
characters a parser function consumed spell a tree that denotes what it
returned. *Complete*: every spelling of a tree with a denotation is read back, in
any context that does not extend a number (`NumberEnds`, from the round trip).
Both go by induction on the levels left, with one lemma for each loop.
-/

namespace Cairn.Ports.Canonical

open Cairn.Verified

namespace Parser

/-! ## Whitespace -/

theorem skipWhitespace_split (p : Parser) : ∃ a, Ws a ∧ p.rest = a ++ p.skipWhitespace.rest :=
  ⟨p.rest.takeWhile isWhitespace, List.all_eq_true.mp List.all_takeWhile,
    List.takeWhile_append_dropWhile.symm⟩

theorem skipWhitespace_append {a : List Char} (ha : Ws a) {rest : List Char}
    (hrest : ∀ c ∈ rest.head?, isWhitespace c = false) (pos : Nat) :
    ∃ pos', skipWhitespace ⟨a ++ rest, pos⟩ = ⟨rest, pos'⟩ := by
  have hdrop : (a ++ rest).dropWhile isWhitespace = rest := by
    rw [List.dropWhile_append_of_pos ha]
    cases rest with
    | nil => rfl
    | cons c cs =>
      have hc := hrest c (by simp)
      simp [hc]
  refine ⟨pos + ((a ++ rest).takeWhile isWhitespace).length, ?_⟩
  rw [skipWhitespace, hdrop]

theorem rest_of_peek {p : Parser} {c : Char} (h : p.peek = some c) :
    p.rest = c :: p.bump.rest := by
  obtain ⟨cs, hcs⟩ := List.head?_eq_some_iff.mp h
  rw [bump, hcs, List.tail_cons]

/-! ## Strings -/

theorem hexDigitVal?_lt {c : Char} {n : Nat} (h : hexDigitVal? c = some n) : n < 16 := by
  rw [hexDigitVal?] at h
  split_ifs at h with h1 h2 h3
  · cases h
    have : c.toNat ≤ '9'.toNat := h1.2
    have : '9'.toNat = 57 := rfl
    have : '0'.toNat = 48 := rfl
    omega
  · cases h
    have : c.toNat ≤ 'f'.toNat := h2.2
    have : 'f'.toNat = 102 := rfl
    have : 'a'.toNat = 97 := rfl
    omega
  · cases h
    have : c.toNat ≤ 'F'.toNat := h3.2
    have : 'F'.toNat = 70 := rfl
    have : 'A'.toNat = 65 := rfl
    omega

end Parser

theorem CodeUnit.val_lt (u : CodeUnit) : u.val < 65536 := by
  have ha := Parser.hexDigitVal?_lt u.a.spells
  have hb := Parser.hexDigitVal?_lt u.b.spells
  have hc := Parser.hexDigitVal?_lt u.c.spells
  have hd := Parser.hexDigitVal?_lt u.d.spells
  rw [CodeUnit.val]
  omega

namespace Parser

variable {p q : Parser} {u v : CodeUnit} {ch : Char}

theorem hex4_sound {n : Nat} (h : hex4 p = .ok (n, q)) :
    ∃ u : CodeUnit, u.val = n ∧ p.rest = u.digits ++ q.rest := by
  rw [hex4] at h
  split at h
  · next a b c d rest hrest =>
      split at h
      · next a' b' c' d' ha hb hc hd =>
          cases h
          exact ⟨⟨⟨a, a', ha⟩, ⟨b, b', hb⟩, ⟨c, c', hc⟩, ⟨d, d', hd⟩⟩, rfl, hrest⟩
      · cases h
  · cases h

theorem hex4_complete (u : CodeUnit) (rest : List Char) (pos : Nat) :
    hex4 ⟨u.digits ++ rest, pos⟩ = .ok (u.val, ⟨rest, pos + 4⟩) := by
  simp only [hex4, CodeUnit.digits, List.cons_append, List.nil_append, u.a.spells, u.b.spells,
    u.c.spells, u.d.spells]
  rfl

theorem charFromU32_eq {n : Nat} (h : n.isValidChar) : p.charFromU32 n = .ok (Char.ofNat n, p) :=
  if_pos h

theorem isValidChar_of_scalar (hlead : ¬u.Leading) (htrail : ¬u.Trailing) : u.val.isValidChar := by
  have hlt := u.val_lt
  rw [CodeUnit.Leading] at hlead
  rw [CodeUnit.Trailing] at htrail
  rw [Nat.isValidChar]
  omega

theorem isValidChar_of_pair (hlead : u.Leading) (htrail : v.Trailing) :
    (0x10000 + (u.val - 0xD800) * 1024 + (v.val - 0xDC00)).isValidChar := by
  rw [CodeUnit.Leading] at hlead
  rw [CodeUnit.Trailing] at htrail
  rw [Nat.isValidChar]
  omega

/-- The pieces read at one turn of the string loop denote the character it adds. -/
def Spells (ps : List Piece) (c : Char) : Prop :=
  ∀ more, textOf? (ps ++ more) = (c :: ·) <$> textOf? more

theorem spells_plain (c : Char) (h : Unescaped c) : Spells [.plain c h] c := fun more => by
  rw [List.singleton_append, textOf?]

theorem spells_short (e : ShortEscape) : Spells [.short e] e.char := fun more => by
  rw [List.singleton_append, textOf?]

theorem textOf?_scalar (hlead : ¬u.Leading) (htrail : ¬u.Trailing) (more : List Piece) :
    textOf? (.unicode u :: more) = (Char.ofNat u.val :: ·) <$> textOf? more := by
  rw [textOf?.eq_def]
  simp only [htrail, hlead, if_false]

theorem textOf?_pair (hlead : u.Leading) (htrail : v.Trailing) (more : List Piece) :
    textOf? (.unicode u :: .unicode v :: more) =
      (Char.ofNat (0x10000 + (u.val - 0xD800) * 1024 + (v.val - 0xDC00)) :: ·) <$>
        textOf? more := by
  have hnot : ¬u.Trailing := fun h => by
    have h1 := hlead.2
    have h2 := h.1
    omega
  rw [textOf?.eq_def]
  simp only [hnot, hlead, htrail, if_true, if_false]

theorem parseUnicodeEscape_sound (h : parseUnicodeEscape p = .ok (ch, q)) :
    ∃ ps : List Piece, '\\' :: 'u' :: p.rest = ps.flatMap Piece.text ++ q.rest ∧
      Spells ps ch := by
  rw [parseUnicodeEscape] at h
  obtain ⟨⟨high, p1⟩, hhigh, h⟩ := bind_eq_ok.mp h
  obtain ⟨u, rfl, hu⟩ := hex4_sound hhigh
  simp only at h
  split_ifs at h with htrail hlead hback hletter
  · -- A leading surrogate: the second escape follows.
    obtain ⟨⟨low, p2⟩, hlow, h⟩ := bind_eq_ok.mp h
    obtain ⟨v, rfl, hv⟩ := hex4_sound hlow
    simp only at h
    split_ifs at h with hrange
    rw [charFromU32_eq (isValidChar_of_pair hlead hrange)] at h
    simp only [Except.ok.injEq, Prod.mk.injEq] at h
    obtain ⟨rfl, rfl⟩ := h
    refine ⟨[.unicode u, .unicode v], ?_, fun more => textOf?_pair hlead hrange more⟩
    rw [hu, rest_of_peek (not_not.mp hback), rest_of_peek (not_not.mp hletter), hv]
    simp [Piece.text]
  · rw [charFromU32_eq (isValidChar_of_scalar hlead htrail)] at h
    cases h
    refine ⟨[.unicode u], ?_, fun more => textOf?_scalar hlead htrail more⟩
    rw [hu]
    simp [Piece.text]

theorem parseUnicodeEscape_scalar (hlead : ¬u.Leading) (htrail : ¬u.Trailing) (rest : List Char)
    (pos : Nat) : parseUnicodeEscape ⟨u.digits ++ rest, pos⟩ =
      .ok (Char.ofNat u.val, ⟨rest, pos + 4⟩) := by
  rw [parseUnicodeEscape, hex4_complete]
  show (if u.Trailing then _ else if u.Leading then _ else charFromU32 _ u.val) = _
  rw [if_neg htrail, if_neg hlead, charFromU32_eq (isValidChar_of_scalar hlead htrail)]

theorem parseUnicodeEscape_pair (hlead : u.Leading) (htrail : v.Trailing) (rest : List Char)
    (pos : Nat) :
    parseUnicodeEscape ⟨u.digits ++ '\\' :: 'u' :: (v.digits ++ rest), pos⟩ =
      .ok (Char.ofNat (0x10000 + (u.val - 0xD800) * 1024 + (v.val - 0xDC00)),
        ⟨rest, pos + 10⟩) := by
  have hnot : ¬u.Trailing := fun h => by
    have h1 := hlead.2
    have h2 := h.1
    omega
  rw [CodeUnit.Trailing] at hnot htrail
  rw [CodeUnit.Leading] at hlead
  rw [parseUnicodeEscape, hex4_complete]
  simp only [bind, Except.bind, hnot, hlead, htrail, if_true, if_false, peek, bump,
    List.head?_cons, List.tail_cons, hex4_complete, ne_eq, not_true_eq_false, and_self]
  rw [charFromU32_eq (isValidChar_of_pair hlead htrail)]

theorem parseEscape_sound {escape : Char} (h : parseEscape escape p = .ok (ch, q)) :
    ∃ ps : List Piece, '\\' :: escape :: p.rest = ps.flatMap Piece.text ++ q.rest ∧
      Spells ps ch := by
  unfold parseEscape at h
  split at h
  case h_9 => exact parseUnicodeEscape_sound h
  case h_10 => cases h
  · cases h; exact ⟨[.short .quote], rfl, spells_short .quote⟩
  · cases h; exact ⟨[.short .backslash], rfl, spells_short .backslash⟩
  · cases h; exact ⟨[.short .slash], rfl, spells_short .slash⟩
  · cases h; exact ⟨[.short .b], rfl, spells_short .b⟩
  · cases h; exact ⟨[.short .f], rfl, spells_short .f⟩
  · cases h; exact ⟨[.short .n], rfl, spells_short .n⟩
  · cases h; exact ⟨[.short .r], rfl, spells_short .r⟩
  · cases h; exact ⟨[.short .t], rfl, spells_short .t⟩

theorem parseEscape_short (e : ShortEscape) (p : Parser) :
    parseEscape e.letter p = .ok (e.char, p) := by
  cases e <;> rfl

theorem parseEscape_u (p : Parser) : parseEscape 'u' p = p.parseUnicodeEscape := rfl

/-- What one turn of the string loop reads, and how the loop goes on. -/
theorem parseStringLoop_sound (fuel : Nat) :
    ∀ (out res : List Char) (p q : Parser), parseStringLoop fuel out p = .ok (res, q) →
      ∃ ps cs, p.rest = ps.flatMap Piece.text ++ '"' :: q.rest ∧ textOf? ps = some cs ∧
        res = out ++ cs := by
  induction fuel with
  | zero => intro out res p q h; cases h
  | succ fuel ih =>
    intro out res p q h
    -- The pieces of this turn, in front of those of the turns after it.
    have hnext : ∀ {ps : List Piece} {c : Char} {p1 : Parser},
        p.rest = ps.flatMap Piece.text ++ p1.rest → Spells ps c →
        parseStringLoop fuel (out ++ [c]) p1 = .ok (res, q) →
        ∃ ps cs, p.rest = ps.flatMap Piece.text ++ '"' :: q.rest ∧ textOf? ps = some cs ∧
          res = out ++ cs := by
      intro ps c p1 hrest hspells hloop
      obtain ⟨ps', cs, hrest', htext, rfl⟩ := ih _ _ _ _ hloop
      refine ⟨ps ++ ps', c :: cs, ?_, ?_, ?_⟩
      · rw [hrest, hrest', List.flatMap_append, List.append_assoc]
      · rw [hspells, htext]
        rfl
      · rw [List.append_assoc]
        rfl
    rw [parseStringLoop] at h
    split at h
    · cases h
    · next rest hrest =>
        cases h
        refine ⟨[], [], ?_, rfl, (List.append_nil _).symm⟩
        rw [hrest, bump, hrest]
        rfl
    · cases h
    · next escape rest hrest =>
        obtain ⟨⟨c, p1⟩, hescape, h⟩ := bind_eq_ok.mp h
        obtain ⟨ps, hps, hspells⟩ := parseEscape_sound hescape
        exact hnext (hrest.trans hps) hspells h
    · next c rest hquote hslash hslash' hrest =>
        split_ifs at h with hcontrol
        have hplain : Unescaped c := by
          refine ⟨hquote, fun hc => ?_, Nat.le_of_not_lt hcontrol⟩
          cases rest with
          | nil => exact hslash hc rfl
          | cons escape rest => exact hslash' escape rest hc rfl
        exact @hnext [.plain c hplain] _ _ (by rw [hrest]; rfl) (spells_plain c hplain) h

theorem parseStringLoop_plain {c : Char} (hc : Unescaped c) (fuel : Nat) (out rest : List Char)
    (pos : Nat) : parseStringLoop (fuel + 1) out ⟨c :: rest, pos⟩ =
      parseStringLoop fuel (out ++ [c]) ⟨rest, pos + c.utf8Size⟩ := by
  obtain ⟨hquote, hslash, hcontrol⟩ := hc
  rw [parseStringLoop]
  split
  · next h => cases h
  · next h => cases h; exact absurd rfl hquote
  · next h => cases h; exact absurd rfl hslash
  · next h => cases h; exact absurd rfl hslash
  · next h =>
      cases h
      rw [if_neg (Nat.not_lt.mpr hcontrol)]

theorem parseStringLoop_escape {escape : Char} {rest : List Char} {pos : Nat}
    (h : parseEscape escape ⟨rest, pos + 2⟩ = .ok (ch, q)) (fuel : Nat) (out : List Char) :
    parseStringLoop (fuel + 1) out ⟨'\\' :: escape :: rest, pos⟩ =
      parseStringLoop fuel (out ++ [ch]) q := by
  show (parseEscape escape ⟨rest, pos + 2⟩ >>= _) = _
  rw [h]
  rfl

theorem parseStringLoop_complete (rest : List Char) (ps : List Piece) :
    ∀ (cs out : List Char) (fuel pos : Nat), textOf? ps = some cs → ps.length < fuel →
      ∃ pos', parseStringLoop fuel out ⟨ps.flatMap Piece.text ++ '"' :: rest, pos⟩ =
        .ok (out ++ cs, ⟨rest, pos'⟩) := by
  fun_induction textOf? ps with
  | case1 =>
    intro cs out fuel pos htext hfuel
    obtain ⟨fuel, rfl⟩ : ∃ n, fuel = n + 1 := ⟨fuel - 1, by simp at hfuel; omega⟩
    cases htext
    exact ⟨pos + 1, by rw [List.append_nil]; rfl⟩
  | case2 c hc ps ih =>
    intro cs out fuel pos htext hfuel
    obtain ⟨fuel, rfl⟩ : ∃ n, fuel = n + 1 := ⟨fuel - 1, by simp at hfuel; omega⟩
    obtain ⟨cs, hps, rfl⟩ := Option.map_eq_some_iff.mp htext
    obtain ⟨pos', h⟩ := ih cs (out ++ [c]) fuel (pos + c.utf8Size) hps (by simp at hfuel; omega)
    refine ⟨pos', ?_⟩
    rw [List.append_assoc] at h
    exact (parseStringLoop_plain hc fuel out _ pos).trans h
  | case3 e ps ih =>
    intro cs out fuel pos htext hfuel
    obtain ⟨fuel, rfl⟩ : ∃ n, fuel = n + 1 := ⟨fuel - 1, by simp at hfuel; omega⟩
    obtain ⟨cs, hps, rfl⟩ := Option.map_eq_some_iff.mp htext
    obtain ⟨pos', h⟩ := ih cs (out ++ [e.char]) fuel (pos + 2) hps (by simp at hfuel; omega)
    refine ⟨pos', ?_⟩
    rw [List.append_assoc] at h
    exact (parseStringLoop_escape (parseEscape_short e _) fuel out).trans h
  | case4 => intro cs out fuel pos htext; cases htext
  | case5 u htrail hlead v ps hv ih =>
    intro cs out fuel pos htext hfuel
    obtain ⟨fuel, rfl⟩ : ∃ n, fuel = n + 1 := ⟨fuel - 1, by simp at hfuel; omega⟩
    obtain ⟨cs, hps, rfl⟩ := Option.map_eq_some_iff.mp htext
    obtain ⟨pos', h⟩ := ih cs (out ++ [Char.ofNat _]) fuel (pos + 2 + 10) hps
      (by simp at hfuel; omega)
    refine ⟨pos', ?_⟩
    rw [List.append_assoc] at h
    have hshape : (Piece.unicode u :: .unicode v :: ps).flatMap Piece.text ++ '"' :: rest =
        '\\' :: 'u' :: (u.digits ++ '\\' :: 'u' :: (v.digits ++
          (ps.flatMap Piece.text ++ '"' :: rest))) := by
      simp [Piece.text]
    rw [hshape]
    have hescape := parseUnicodeEscape_pair hlead hv (ps.flatMap Piece.text ++ '"' :: rest)
      (pos + 2)
    exact (parseStringLoop_escape ((parseEscape_u _).trans hescape) fuel out).trans h
  | case6 => intro cs out fuel pos htext; cases htext
  | case7 => intro cs out fuel pos htext; cases htext
  | case8 u ps htrail hlead ih =>
    intro cs out fuel pos htext hfuel
    obtain ⟨fuel, rfl⟩ : ∃ n, fuel = n + 1 := ⟨fuel - 1, by simp at hfuel; omega⟩
    obtain ⟨cs, hps, rfl⟩ := Option.map_eq_some_iff.mp htext
    obtain ⟨pos', h⟩ := ih cs (out ++ [Char.ofNat u.val]) fuel (pos + 2 + 4) hps
      (by simp at hfuel; omega)
    refine ⟨pos', ?_⟩
    rw [List.append_assoc] at h
    have hshape : (Piece.unicode u :: ps).flatMap Piece.text ++ '"' :: rest =
        '\\' :: 'u' :: (u.digits ++ (ps.flatMap Piece.text ++ '"' :: rest)) := by
      simp [Piece.text]
    rw [hshape]
    have hescape := parseUnicodeEscape_scalar hlead htrail (ps.flatMap Piece.text ++ '"' :: rest)
      (pos + 2)
    exact (parseStringLoop_escape ((parseEscape_u _).trans hescape) fuel out).trans h

theorem length_le_flatMap_text (ps : List Piece) : ps.length ≤ (ps.flatMap Piece.text).length := by
  induction ps with
  | nil => simp
  | cons p ps ih =>
    have hp : 1 ≤ p.text.length := by cases p <;> simp [Piece.text]
    simp only [List.flatMap_cons, List.length_append, List.length_cons]
    omega

theorem expect_eq_ok_iff {c : Char} : p.expect c = .ok q ↔ p.peek = some c ∧ q = p.bump := by
  rw [expect]
  split_ifs with h
  · simp [h, eq_comm]
  · simp [h]

theorem parseString_sound {s : String} (h : parseString p = .ok (s, q)) :
    ∃ ps cs, p.rest = stringText ps ++ q.rest ∧ textOf? ps = some cs ∧ s = String.ofList cs := by
  rw [parseString] at h
  obtain ⟨p1, hquote, h⟩ := bind_eq_ok.mp h
  obtain ⟨⟨out, p2⟩, hloop, hout⟩ := bind_eq_ok.mp h
  obtain ⟨hpeek, rfl⟩ := expect_eq_ok_iff.mp hquote
  obtain ⟨ps, cs, hrest, htext, hres⟩ := parseStringLoop_sound _ _ _ _ _ hloop
  cases hout
  refine ⟨ps, cs, ?_, htext, congrArg String.ofList hres⟩
  rw [rest_of_peek hpeek, hrest]
  simp [stringText]

theorem parseString_complete {ps : List Piece} {cs : List Char} (h : textOf? ps = some cs)
    (rest : List Char) (pos : Nat) :
    ∃ pos', parseString ⟨stringText ps ++ rest, pos⟩ = .ok (String.ofList cs, ⟨rest, pos'⟩) := by
  have hfuel : ps.length < (ps.flatMap Piece.text ++ '"' :: rest).length + 1 := by
    have := length_le_flatMap_text ps
    simp only [List.length_append]
    omega
  obtain ⟨pos', hloop⟩ := parseStringLoop_complete rest ps cs [] _ (pos + 1) h hfuel
  refine ⟨pos', ?_⟩
  have hshape : stringText ps ++ rest = '"' :: (ps.flatMap Piece.text ++ '"' :: rest) := by
    simp [stringText]
  rw [hshape, parseString]
  simp only [expect, peek, bump, List.head?_cons, if_true, List.tail_cons, bind, Except.bind,
    hloop]
  rfl

/-! ## Numbers -/

theorem takeDigits_split (p : Parser) :
    (∀ c ∈ p.takeDigits.1, c.isDigit) ∧ p.rest = p.takeDigits.1 ++ p.takeDigits.2.rest :=
  ⟨List.all_eq_true.mp List.all_takeWhile, List.takeWhile_append_dropWhile.symm⟩

theorem parseIntPart_sound {p q : Parser} {ds : List Char} (h : parseIntPart p = .ok (ds, q)) :
    ((∀ c ∈ ds, c.isDigit) ∧ ds ≠ [] ∧ (ds.head? = some '0' → ds = ['0'])) ∧
      p.rest = ds ++ q.rest := by
  rw [parseIntPart] at h
  split at h
  · next hpeek =>
      split_ifs at h
      cases h
      refine ⟨⟨List.forall_mem_singleton.mpr rfl, List.cons_ne_nil _ _, fun _ => rfl⟩, ?_⟩
      rw [rest_of_peek hpeek]
      rfl
  · next c hzero hpeek =>
      split_ifs at h with hdigit
      have hds : p.takeDigits = (ds, q) := Except.ok.inj h
      obtain ⟨hall, hsplit⟩ := takeDigits_split p
      rw [hds] at hall hsplit
      -- The run starts with the digit that was seen, which is not a zero.
      have htake : ds = c :: p.bump.rest.takeWhile Char.isDigit := by
        rw [← show p.takeDigits.1 = ds from congrArg Prod.fst hds, takeDigits,
          rest_of_peek hpeek, List.takeWhile_cons, if_pos hdigit]
      have hhead : ds.head? = some c := by rw [htake, List.head?_cons]
      refine ⟨⟨hall, ?_, fun h0 => ?_⟩, hsplit⟩
      · rw [htake]
        exact List.cons_ne_nil _ _
      · rw [hhead, Option.some.injEq] at h0
        exact absurd h0 hzero
  · cases h

theorem parseFraction_sound (h : parseFraction p = .ok (false, q)) : q = p := by
  rw [parseFraction] at h
  split_ifs at h
  · cases h
  · cases h
    rfl

theorem parseExponent_sound (h : parseExponent p = .ok (false, q)) : q = p := by
  rw [parseExponent] at h
  split_ifs at h
  · simp only at h
    split_ifs at h <;> cases h
  · cases h
    rfl

theorem parseNumber_sound {path : String} {v : Value} (h : parseNumber path p = .ok (v, q)) :
    ∃ (n : Numeral) (i : I128), p.rest = n.text ++ q.rest ∧ n.value? = some i ∧ v = .int i := by
  rw [parseNumber] at h
  obtain ⟨⟨digits, p1⟩, hint, h1⟩ := bind_eq_ok.mp h
  obtain ⟨⟨fraction, p2⟩, hfrac, h2⟩ := bind_eq_ok.mp h1
  obtain ⟨⟨exponent, p3⟩, hexp, h3⟩ := bind_eq_ok.mp h2
  clear h h1 h2
  simp only at h3
  split_ifs at h3 with hfloat
  obtain ⟨rfl, rfl⟩ : fraction = false ∧ exponent = false := by simpa using hfloat
  obtain rfl := parseExponent_sound hexp
  obtain rfl := parseFraction_sound hfrac
  obtain ⟨⟨hdigits, hne, hzero⟩, hrest⟩ := parseIntPart_sound hint
  split at h3
  · next i hi =>
      cases h3
      refine ⟨⟨p.peek == some '-', ⟨digits, hdigits, hne⟩, hzero, none, none⟩, i, ?_,
        Numeral.value?_eq_some_iff.mpr ⟨rfl, rfl, hi⟩, rfl⟩
      simp only [Numeral.text, Numeral.sign, Numeral.fracText, Numeral.expText, List.append_nil,
        List.append_assoc]
      rw [← hrest]
      split_ifs with hneg
      · exact rest_of_peek (beq_iff_eq.mp hneg)
      · rfl
  · cases h3

theorem parseNumber_complete {n : Numeral} {i : I128} (h : n.value? = some i) (path : String)
    {rest : List Char} (hrest : NumberEnds rest) (pos : Nat) :
    ∃ pos', parseNumber path ⟨n.text ++ rest, pos⟩ = .ok (.int i, ⟨rest, pos'⟩) := by
  obtain ⟨hfrac, hexp, hi⟩ := Numeral.value?_eq_some_iff.mp h
  obtain ⟨pos', hparse⟩ := parseNumber_digits n.int.digit n.int.nonempty n.noLeadingZero hi path
    hrest pos
  refine ⟨pos', ?_⟩
  have hshape : n.text ++ rest =
      (if n.negative then ['-'] else []) ++ (n.int.chars ++ rest) := by
    simp only [Numeral.text, Numeral.sign, Numeral.fracText, Numeral.expText, hfrac, hexp,
      List.append_nil, List.append_assoc]
  rw [hshape]
  exact hparse

end Parser

/-! ## Containers -/

theorem Ws.nil : Ws [] := by simp [Ws]

variable {a : List Char}

theorem Ws.append {b : List Char} (ha : Ws a) (hb : Ws b) : Ws (a ++ b) :=
  List.forall_mem_append.mpr ⟨ha, hb⟩

theorem DerivesItems.ws_append {body : List Char} {items : List Json} (ha : Ws a)
    (h : DerivesItems body items) : DerivesItems (a ++ body) items := by
  cases h with
  | one ha' ht hb =>
    rw [← List.append_assoc]
    exact .one (ha.append ha') ht hb
  | more ha' ht hb hrest =>
    rw [← List.append_assoc]
    exact .more (ha.append ha') ht hb hrest

theorem DerivesFields.ws_append {body : List Char} {fields : List (List Piece × Json)} (ha : Ws a)
    (h : DerivesFields body fields) : DerivesFields (a ++ body) fields := by
  cases h with
  | one ha' hb hc ht hd =>
    rw [← List.append_assoc]
    exact .one (ha.append ha') hb hc ht hd
  | more ha' hb hc ht hd hrest =>
    rw [← List.append_assoc]
    exact .more (ha.append ha') hb hc ht hd hrest

namespace Json

variable {s : Json}

theorem values?_cons {v : Value} {items : List Json} {vs : List Value} (hv : s.value? = some v)
    (hvs : values? items = some vs) : values? (s :: items) = some (v :: vs) := by
  rw [values?, hv, hvs]
  rfl

theorem members?_cons {k : List Piece} {cs : List Char} {v : Value}
    {fields : List (List Piece × Json)} {members : List (String × Value)} (hk : textOf? k = some cs)
    (hv : s.value? = some v) (hms : members? fields = some members) :
    members? ((k, s) :: fields) = some ((String.ofList cs, v) :: members) := by
  rw [members?, hk, hv, hms]
  rfl

theorem values?_cons_eq_some {items : List Json} {vs : List Value}
    (h : values? (s :: items) = some vs) :
    ∃ v, s.value? = some v ∧ ∃ vs', values? items = some vs' ∧ vs = v :: vs' := by
  rw [values?] at h
  obtain ⟨v, hv, h1⟩ := Option.bind_eq_some_iff.mp h
  obtain ⟨vs', hvs', h2⟩ := Option.bind_eq_some_iff.mp h1
  exact ⟨v, hv, vs', hvs', (Option.some.inj h2).symm⟩

theorem members?_cons_eq_some {k : List Piece} {fields : List (List Piece × Json)}
    {members : List (String × Value)} (h : members? ((k, s) :: fields) = some members) :
    ∃ cs, textOf? k = some cs ∧ ∃ v, s.value? = some v ∧ ∃ members',
      members? fields = some members' ∧ members = (String.ofList cs, v) :: members' := by
  rw [members?] at h
  obtain ⟨cs, hcs, h1⟩ := Option.bind_eq_some_iff.mp h
  obtain ⟨v, hv, h2⟩ := Option.bind_eq_some_iff.mp h1
  obtain ⟨members', hms, h3⟩ := Option.bind_eq_some_iff.mp h2
  exact ⟨cs, hcs, v, hv, members', hms, (Option.some.inj h3).symm⟩

end Json

namespace Parser

/-- What `item` consumes spells a value that denotes what it returns, within `n` levels. -/
def Sound (item : ItemParser) (n : Nat) : Prop :=
  ∀ path p v q, item path p = .ok (v, q) →
    ∃ t s, p.rest = t ++ q.rest ∧ Derives t s ∧ s.value? = some v ∧ s.depth + 1 ≤ n

variable {item : ItemParser} {n : Nat} {p q : Parser} {v : Value} {b a t : List Char} {c : Char}
  {s : Json}

theorem parseItems_sound (hitem : Sound item n) (path : String) (fuel : Nat) :
    ∀ (out : List Value) (p q : Parser) (v : Value),
      parseItems item path fuel out p = .ok (v, q) →
      ∃ body items vs, p.rest = body ++ ']' :: q.rest ∧ DerivesItems body items ∧
        Json.values? items = some vs ∧ v = .array (out ++ vs) ∧
        ∀ s ∈ items, s.depth + 1 ≤ n := by
  induction fuel with
  | zero => intro out p q v h; cases h
  | succ fuel ih =>
    intro out p q v h
    rw [parseItems] at h
    obtain ⟨⟨w, p1⟩, hw, hmore⟩ := bind_eq_ok.mp h
    obtain ⟨t, s, ht, hs, hval, hdepth⟩ := hitem _ _ _ _ hw
    obtain ⟨b, hb, hskip⟩ := skipWhitespace_split p1
    simp only at hmore
    split at hmore
    · next hpeek =>
        obtain ⟨a, ha, hskip'⟩ := skipWhitespace_split p1.skipWhitespace.bump
        obtain ⟨body, items, vs, hbody, hitems, hvals, rfl, hall⟩ := ih _ _ _ _ hmore
        refine ⟨t ++ (b ++ ',' :: (a ++ body)), s :: items, w :: vs, ?_, ?_,
          Json.values?_cons hval hvals, by simp, List.forall_mem_cons.mpr ⟨hdepth, hall⟩⟩
        · rw [ht, hskip, rest_of_peek hpeek, hskip', hbody]
          simp
        · exact .more Ws.nil hs hb (hitems.ws_append ha)
    · next hpeek =>
        cases hmore
        refine ⟨t ++ b, [s], [w], ?_, .one Ws.nil hs hb, Json.values?_cons hval rfl, rfl,
          List.forall_mem_singleton.mpr hdepth⟩
        rw [ht, hskip, rest_of_peek hpeek, List.append_assoc]
    · cases hmore

theorem parseFields_sound (hitem : Sound item n) (path : String) (fuel : Nat) :
    ∀ (out : BTreeMap String Value) (p q : Parser) (v : Value),
      parseFields item path fuel out p = .ok (v, q) →
      ∃ body fields members, p.rest = body ++ '}' :: q.rest ∧ DerivesFields body fields ∧
        Json.members? fields = some members ∧
        v = .objectOf (members.foldl (fun map e => map.insert e.1 e.2) out) ∧
        ∀ e ∈ fields, e.2.depth + 1 ≤ n := by
  induction fuel with
  | zero => intro out p q v h; cases h
  | succ fuel ih =>
    intro out p q v h
    rw [parseFields] at h
    split_ifs at h with hquote
    obtain ⟨⟨key, p1⟩, hkey, h1⟩ := bind_eq_ok.mp h
    obtain ⟨p2, hcolon, h2⟩ := bind_eq_ok.mp h1
    obtain ⟨⟨w, p3⟩, hw, hmore⟩ := bind_eq_ok.mp h2
    clear h h1 h2
    obtain ⟨k, cs, hk, htext, rfl⟩ := parseString_sound hkey
    obtain ⟨b, hb, hskip1⟩ := skipWhitespace_split p1
    obtain ⟨hpeek1, rfl⟩ := expect_eq_ok_iff.mp hcolon
    obtain ⟨c, hc, hskip2⟩ := skipWhitespace_split p1.skipWhitespace.bump
    obtain ⟨t, s, ht, hs, hval, hdepth⟩ := hitem _ _ _ _ hw
    obtain ⟨d, hd, hskip3⟩ := skipWhitespace_split p3
    have hrest : p.rest =
        stringText k ++ (b ++ ':' :: (c ++ (t ++ (d ++ p3.skipWhitespace.rest)))) := by
      rw [hk, hskip1, rest_of_peek hpeek1, hskip2, ht, hskip3]
    simp only at hmore
    split at hmore
    · next hpeek =>
        obtain ⟨a, ha, hskip4⟩ := skipWhitespace_split p3.skipWhitespace.bump
        obtain ⟨body, fields, members, hbody, hfields, hvals, rfl, hall⟩ := ih _ _ _ _ hmore
        refine ⟨stringText k ++ (b ++ ':' :: (c ++ (t ++ (d ++ ',' :: (a ++ body))))),
          (k, s) :: fields, (String.ofList cs, w) :: members, ?_, ?_,
          Json.members?_cons htext hval hvals, rfl, List.forall_mem_cons.mpr ⟨hdepth, hall⟩⟩
        · rw [hrest, rest_of_peek hpeek, hskip4, hbody]
          simp
        · exact .more Ws.nil hb hc hs hd (hfields.ws_append ha)
    · next hpeek =>
        cases hmore
        refine ⟨stringText k ++ (b ++ ':' :: (c ++ (t ++ d))), [(k, s)],
          [(String.ofList cs, w)], ?_, .one Ws.nil hb hc hs hd,
          Json.members?_cons htext hval rfl, rfl, List.forall_mem_singleton.mpr hdepth⟩
        rw [hrest, rest_of_peek hpeek]
        simp
    · cases hmore

theorem parseArray_sound (hitem : Sound item n) {path : String}
    (h : parseArray item path p = .ok (v, q)) :
    ∃ t s, p.rest = t ++ q.rest ∧ Derives t s ∧ s.value? = some v ∧ s.depth ≤ n := by
  rw [parseArray] at h
  obtain ⟨p1, hopen, hmore⟩ := bind_eq_ok.mp h
  obtain ⟨hpeek, rfl⟩ := expect_eq_ok_iff.mp hopen
  obtain ⟨a, ha, hskip⟩ := skipWhitespace_split p.bump
  simp only at hmore
  split_ifs at hmore with hclose
  · cases hmore
    refine ⟨'[' :: (a ++ [']']), .array [], ?_, .emptyArray ha, rfl, Nat.zero_le n⟩
    rw [rest_of_peek hpeek, hskip, rest_of_peek hclose]
    simp
  · obtain ⟨body, items, vs, hbody, hitems, hvals, rfl, hall⟩ :=
      parseItems_sound hitem _ _ _ _ _ _ hmore
    refine ⟨'[' :: ((a ++ body) ++ [']']), .array items, ?_, .array (hitems.ws_append ha), ?_,
      Json.depth_array_le.mpr hall⟩
    · rw [rest_of_peek hpeek, hskip, hbody]
      simp
    · rw [Json.value?, hvals]
      rfl

theorem parseObject_sound (hitem : Sound item n) {path : String}
    (h : parseObject item path p = .ok (v, q)) :
    ∃ t s, p.rest = t ++ q.rest ∧ Derives t s ∧ s.value? = some v ∧ s.depth ≤ n := by
  rw [parseObject] at h
  obtain ⟨p1, hopen, hmore⟩ := bind_eq_ok.mp h
  obtain ⟨hpeek, rfl⟩ := expect_eq_ok_iff.mp hopen
  obtain ⟨a, ha, hskip⟩ := skipWhitespace_split p.bump
  simp only at hmore
  split_ifs at hmore with hclose
  · cases hmore
    refine ⟨'{' :: (a ++ ['}']), .object [], ?_, .emptyObject ha, rfl, Nat.zero_le n⟩
    rw [rest_of_peek hpeek, hskip, rest_of_peek hclose]
    simp
  · obtain ⟨body, fields, members, hbody, hfields, hvals, rfl, hall⟩ :=
      parseFields_sound hitem _ _ _ _ _ _ hmore
    refine ⟨'{' :: ((a ++ body) ++ ['}']), .object fields, ?_,
      .object (hfields.ws_append ha), ?_, Json.depth_object_le.mpr hall⟩
    · rw [rest_of_peek hpeek, hskip, hbody]
      simp
    · rw [Json.value?, hvals]
      rfl

theorem literal_sound {word : String} {w : Value} (h : p.literal word w = .ok (v, q)) :
    p.rest = word.toList ++ q.rest ∧ v = w := by
  rw [literal] at h
  split_ifs at h with hprefix
  cases h
  obtain ⟨tail, htail⟩ := List.isPrefixOf_iff_prefix.mp hprefix
  refine ⟨?_, rfl⟩
  rw [← htail, ← String.length_toList, List.drop_left]

/-- **Soundness**: the characters consumed spell the value returned. -/
theorem parseValue_sound (room : Nat) : Sound (parseValue room) room := by
  induction room with
  | zero => intro path p v q h; cases h
  | succ room ih =>
    intro path p v q h
    rw [parseValue] at h
    split at h
    · obtain ⟨hrest, rfl⟩ := literal_sound h
      exact ⟨_, _, hrest, .null, rfl, Nat.succ_le_succ (Nat.zero_le room)⟩
    · obtain ⟨hrest, rfl⟩ := literal_sound h
      exact ⟨_, _, hrest, .true, rfl, Nat.succ_le_succ (Nat.zero_le room)⟩
    · obtain ⟨hrest, rfl⟩ := literal_sound h
      exact ⟨_, _, hrest, .false, rfl, Nat.succ_le_succ (Nat.zero_le room)⟩
    · obtain ⟨⟨s, p1⟩, hs, hmore⟩ := bind_eq_ok.mp h
      cases hmore
      obtain ⟨ps, cs, hrest, htext, rfl⟩ := parseString_sound hs
      refine ⟨_, .string ps, hrest, .string ps, ?_, Nat.succ_le_succ (Nat.zero_le room)⟩
      rw [Json.value?, htext]
      rfl
    · obtain ⟨t, s, hrest, ht, hval, hdepth⟩ := parseArray_sound ih h
      exact ⟨t, s, hrest, ht, hval, Nat.succ_le_succ hdepth⟩
    · obtain ⟨t, s, hrest, ht, hval, hdepth⟩ := parseObject_sound ih h
      exact ⟨t, s, hrest, ht, hval, Nat.succ_le_succ hdepth⟩
    · split_ifs at h
      obtain ⟨n, i, hrest, hval, rfl⟩ := parseNumber_sound h
      refine ⟨_, .number n, hrest, .number n, ?_, Nat.succ_le_succ (Nat.zero_le room)⟩
      rw [Json.value?, hval]
      rfl
    · cases h

/-! ## Every spelling is read back -/

theorem numberEnds_ws (hb : Ws b) (hc : ¬c.isDigit ∧ c ≠ '.' ∧ c ≠ 'e' ∧ c ≠ 'E') (rest : List Char) :
    NumberEnds (b ++ c :: rest) := by
  cases b with
  | nil => exact numberEnds_cons hc rest
  | cons d ds =>
    have hd : isWhitespace d := hb d (by simp)
    refine numberEnds_cons ?_ _
    simp only [isWhitespace, Bool.or_eq_true, decide_eq_true_eq] at hd
    rcases hd with ((rfl | rfl) | rfl) | rfl <;> decide

theorem numberEnds_of_ws (hb : Ws b) : NumberEnds b := by
  cases b with
  | nil => exact numberEnds_nil
  | cons d ds =>
    have hd : isWhitespace d := hb d (by simp)
    refine numberEnds_cons ?_ _
    simp only [isWhitespace, Bool.or_eq_true, decide_eq_true_eq] at hd
    rcases hd with ((rfl | rfl) | rfl) | rfl <;> decide

/-- Whitespace in front of a character that is none is skipped. -/
theorem skipWhitespace_append_cons (ha : Ws a) (hc : isWhitespace c = false) (rest : List Char)
    (pos : Nat) : ∃ pos', skipWhitespace ⟨a ++ c :: rest, pos⟩ = ⟨c :: rest, pos'⟩ :=
  skipWhitespace_append ha (by simpa using hc) pos

theorem head_numeral (n : Numeral) : ∃ c cs, n.text = c :: cs ∧ (c = '-' ∨ c.isDigit) := by
  rw [Numeral.text, Numeral.sign]
  split_ifs
  · exact ⟨'-', _, rfl, .inl rfl⟩
  · obtain ⟨c, cs, hcs⟩ := List.exists_cons_of_ne_nil n.int.nonempty
    rw [hcs]
    exact ⟨c, _, rfl, .inr (n.int.digit c (by rw [hcs]; simp))⟩

theorem head_derives (h : Derives t s) :
    ∃ c cs, t = c :: cs ∧ isWhitespace c = false ∧ c ≠ ']' := by
  cases h with
  | null => exact ⟨_, _, rfl, by decide, by decide⟩
  | true => exact ⟨_, _, rfl, by decide, by decide⟩
  | false => exact ⟨_, _, rfl, by decide, by decide⟩
  | number n =>
    obtain ⟨c, cs, hcs, hc⟩ := head_numeral n
    have hne : ∀ d : Char, ¬(d = '-' ∨ d.isDigit) → c ≠ d := by
      rintro d hd rfl
      exact hd hc
    refine ⟨c, cs, hcs, ?_, hne ']' (by decide)⟩
    simp [isWhitespace, hne ' ' (by decide), hne '\t' (by decide), hne '\n' (by decide),
      hne '\r' (by decide)]
  | string ps => exact ⟨_, _, rfl, by decide, by decide⟩
  | emptyArray ha => exact ⟨_, _, rfl, by decide, by decide⟩
  | array hitems => exact ⟨_, _, rfl, by decide, by decide⟩
  | emptyObject ha => exact ⟨_, _, rfl, by decide, by decide⟩
  | object hfields => exact ⟨_, _, rfl, by decide, by decide⟩

/-- `item` reads every spelling of `s` as `v`, in a context that does not extend a number. -/
def Reads (item : ItemParser) (s : Json) (v : Value) : Prop :=
  ∀ t, Derives t s → ∀ (path : String) (rest : List Char) (pos : Nat), NumberEnds rest →
    ∃ pos', item path ⟨t ++ rest, pos⟩ = .ok (v, ⟨rest, pos'⟩)

/-- Past the whitespace, a value is read and the whitespace after it skipped. -/
theorem item_complete (hitem : Reads item s v) (ha : Ws a) (ht : Derives t s) (hb : Ws b)
    (path : String) (hc : ¬c.isDigit ∧ c ≠ '.' ∧ c ≠ 'e' ∧ c ≠ 'E') (hws : isWhitespace c = false)
    (rest : List Char) (pos : Nat) :
    ∃ p pos', item path (skipWhitespace ⟨a ++ (t ++ (b ++ c :: rest)), pos⟩) = .ok (v, p) ∧
      p.skipWhitespace = ⟨c :: rest, pos'⟩ := by
  obtain ⟨d, ds, hd, hdws, -⟩ := head_derives ht
  obtain ⟨pos1, h1⟩ := @skipWhitespace_append _ ha (t ++ (b ++ c :: rest))
    (by simpa [hd] using hdws) pos
  obtain ⟨pos2, h2⟩ := hitem t ht path (b ++ c :: rest) pos1 (numberEnds_ws hb hc rest)
  obtain ⟨pos3, h3⟩ := skipWhitespace_append_cons hb hws rest pos2
  exact ⟨_, pos3, by rw [h1, h2], h3⟩

theorem parseItems_complete (item : ItemParser) (path : String) (rest : List Char)
    (items : List Json) :
    ∀ (body : List Char) (vs : List Value) (fuel : Nat) (out : List Value) (pos : Nat),
      DerivesItems body items → Json.values? items = some vs →
      (∀ s ∈ items, ∀ v, s.value? = some v → Reads item s v) → items.length ≤ fuel →
      ∃ pos', parseItems item path fuel out (skipWhitespace ⟨body ++ ']' :: rest, pos⟩) =
        .ok (.array (out ++ vs), ⟨rest, pos'⟩) := by
  induction items with
  | nil => intro body vs fuel out pos h; cases h
  | cons s items ih =>
    intro body vs fuel out pos h hvals hitem hfuel
    obtain ⟨fuel, rfl⟩ : ∃ n, fuel = n + 1 := ⟨fuel - 1, by simp at hfuel; omega⟩
    obtain ⟨v, hv, vs', hvs', rfl⟩ := Json.values?_cons_eq_some hvals
    cases h with
    | one ha ht hb =>
      next a t b =>
      obtain ⟨p1, pos1, h1, h2⟩ := item_complete (hitem s (by simp) v hv) ha ht hb
        (path ++ "[" ++ toString out.length ++ "]") (c := ']') (by decide) (by decide) rest pos
      cases hvs'
      refine ⟨pos1 + 1, ?_⟩
      have hshape : a ++ (t ++ b) ++ ']' :: rest = a ++ (t ++ (b ++ ']' :: rest)) := by simp
      rw [hshape, parseItems]
      simp only [bind, Except.bind, h1, h2, peek, bump, List.head?_cons, List.tail_cons]
    | more ha ht hb hrest =>
      next a t b body =>
      obtain ⟨p1, pos1, h1, h2⟩ := item_complete (hitem s (by simp) v hv) ha ht hb
        (path ++ "[" ++ toString out.length ++ "]") (c := ',') (by decide) (by decide)
        (body ++ ']' :: rest) pos
      obtain ⟨pos2, h3⟩ := ih body vs' fuel (out ++ [v]) (pos1 + 1) hrest hvs'
        (fun u hu => hitem u (List.mem_cons_of_mem _ hu)) (by simp at hfuel; omega)
      refine ⟨pos2, ?_⟩
      have hshape : a ++ (t ++ (b ++ ',' :: body)) ++ ']' :: rest =
          a ++ (t ++ (b ++ ',' :: (body ++ ']' :: rest))) := by simp
      rw [hshape, parseItems]
      simp only [bind, Except.bind, h1, h2, peek, bump, List.head?_cons, List.tail_cons, h3,
        List.append_assoc, List.singleton_append]

/-- One member: its key, its colon and its value, up to the character after it. -/
theorem member_complete {k : List Piece} {cs : List Char} (hk : textOf? k = some cs)
    (hitem : Reads item s v) {c d : List Char} (ha : Ws a) (hb : Ws b) (hc : Ws c)
    (ht : Derives t s) (hd : Ws d) (path : String) {mark : Char}
    (hmark : ¬mark.isDigit ∧ mark ≠ '.' ∧ mark ≠ 'e' ∧ mark ≠ 'E') (hws : isWhitespace mark = false)
    (tail : List Char) (pos : Nat) :
    ∃ p1 p2 p3 p4 pos', skipWhitespace
        ⟨a ++ (stringText k ++ (b ++ ':' :: (c ++ (t ++ (d ++ mark :: tail))))), pos⟩ = p1 ∧
      p1.peek = some '"' ∧ parseString p1 = .ok (String.ofList cs, p2) ∧
      p2.skipWhitespace.expect ':' = .ok p3 ∧
      item (path ++ "." ++ String.ofList cs) p3.skipWhitespace = .ok (v, p4) ∧
      p4.skipWhitespace = ⟨mark :: tail, pos'⟩ := by
  let rest := b ++ ':' :: (c ++ (t ++ (d ++ mark :: tail)))
  have hquote : ∀ x ∈ (stringText k ++ rest).head?, isWhitespace x = false := by
    intro x hx
    obtain rfl : '"' = x := by simpa [stringText] using hx
    decide
  obtain ⟨pos1, h1⟩ := skipWhitespace_append ha hquote pos
  obtain ⟨pos2, h2⟩ := parseString_complete hk rest pos1
  obtain ⟨pos3, h3⟩ := skipWhitespace_append_cons hb (c := ':') (by decide)
    (c ++ (t ++ (d ++ mark :: tail))) pos2
  obtain ⟨p4, pos4, h4, h5⟩ := item_complete hitem hc ht hd
    (path ++ "." ++ String.ofList cs) hmark hws tail (pos3 + 1)
  exact ⟨_, _, _, p4, pos4, h1, by simp [peek, stringText], h2, by rw [h3]; rfl, h4, h5⟩

theorem parseFields_complete (item : ItemParser) (path : String) (rest : List Char)
    (fields : List (List Piece × Json)) :
    ∀ (body : List Char) (members : List (String × Value)) (fuel : Nat)
      (out : BTreeMap String Value) (pos : Nat),
      DerivesFields body fields → Json.members? fields = some members →
      (∀ e ∈ fields, ∀ v, e.2.value? = some v → Reads item e.2 v) → fields.length ≤ fuel →
      ∃ pos', parseFields item path fuel out (skipWhitespace ⟨body ++ '}' :: rest, pos⟩) =
        .ok (.objectOf (members.foldl (fun map e => map.insert e.1 e.2) out), ⟨rest, pos'⟩) := by
  induction fields with
  | nil => intro body members fuel out pos h; cases h
  | cons e fields ih =>
    intro body members fuel out pos h hvals hitem hfuel
    obtain ⟨fuel, rfl⟩ : ∃ n, fuel = n + 1 := ⟨fuel - 1, by simp at hfuel; omega⟩
    obtain ⟨k, s⟩ := e
    obtain ⟨cs, hk, v, hv, members', hms, rfl⟩ := Json.members?_cons_eq_some hvals
    have hread := hitem (k, s) (by simp) v hv
    cases h with
    | one ha hb hc ht hd =>
      next a b c t d =>
      obtain ⟨p1, p2, p3, p4, pos4, h1, hpeek, h2, h3, h4, h5⟩ := member_complete hk hread
        ha hb hc ht hd path
        (show ¬('}').isDigit ∧ '}' ≠ '.' ∧ '}' ≠ 'e' ∧ '}' ≠ 'E' by decide) (by decide) rest pos
      cases hms
      refine ⟨pos4 + 1, ?_⟩
      have hshape : a ++ (stringText k ++ (b ++ ':' :: (c ++ (t ++ d)))) ++ '}' :: rest =
          a ++ (stringText k ++ (b ++ ':' :: (c ++ (t ++ (d ++ '}' :: rest))))) := by simp
      rw [hshape, h1, parseFields, if_neg (not_not.mpr hpeek)]
      simp only [bind, Except.bind, h2, h3, h4, h5, peek, bump, List.head?_cons,
        List.tail_cons, List.foldl_cons, List.foldl_nil]
    | more ha hb hc ht hd hrest =>
      next a b c t d body =>
      obtain ⟨p1, p2, p3, p4, pos4, h1, hpeek, h2, h3, h4, h5⟩ := member_complete hk hread
        ha hb hc ht hd path
        (show ¬(',').isDigit ∧ ',' ≠ '.' ∧ ',' ≠ 'e' ∧ ',' ≠ 'E' by decide) (by decide) (body ++ '}' :: rest) pos
      obtain ⟨pos5, h6⟩ := ih body members' fuel (out.insert (String.ofList cs) v) (pos4 + 1)
        hrest hms (fun u hu => hitem u (List.mem_cons_of_mem _ hu)) (by simp at hfuel; omega)
      refine ⟨pos5, ?_⟩
      have hshape : a ++ (stringText k ++ (b ++ ':' :: (c ++ (t ++ (d ++ ',' :: body))))) ++
          '}' :: rest = a ++ (stringText k ++ (b ++ ':' :: (c ++ (t ++
            (d ++ ',' :: (body ++ '}' :: rest)))))) := by simp
      rw [hshape, h1, parseFields, if_neg (not_not.mpr hpeek)]
      simp only [bind, Except.bind, h2, h3, h4, h5, peek, bump, List.head?_cons,
        List.tail_cons, List.foldl_cons]
      exact h6

theorem length_le_of_derivesItems (items : List Json) :
    ∀ {body : List Char}, DerivesItems body items → items.length ≤ body.length := by
  induction items with
  | nil => intro body h; cases h
  | cons s items ih =>
    intro body h
    cases h with
    | one ha ht hb =>
      obtain ⟨c, cs, rfl, -⟩ := head_derives ht
      simp only [List.length_append, List.length_cons, List.length_nil]
      omega
    | more ha ht hb hrest =>
      have := ih hrest
      simp only [List.length_append, List.length_cons]
      omega

theorem length_le_of_derivesFields (fields : List (List Piece × Json)) :
    ∀ {body : List Char}, DerivesFields body fields → fields.length ≤ body.length := by
  induction fields with
  | nil => intro body h; cases h
  | cons e fields ih =>
    intro body h
    cases h with
    | one ha hb hc ht hd =>
      simp only [List.length_append, List.length_cons, List.length_nil]
      omega
    | more ha hb hc ht hd hrest =>
      have := ih hrest
      simp only [List.length_append, List.length_cons]
      omega

/-- Past the whitespace, items start with something other than a closing bracket, and the loop
has turns for all of them. -/
theorem skip_items {body : List Char} {items : List Json} (h : DerivesItems body items)
    (rest : List Char) (pos : Nat) :
    (skipWhitespace ⟨body ++ ']' :: rest, pos⟩).peek ≠ some ']' ∧
      items.length ≤ (skipWhitespace ⟨body ++ ']' :: rest, pos⟩).rest.length + 1 := by
  have hstart : ∃ a t tail s, Ws a ∧ Derives t s ∧ body = a ++ (t ++ tail) ∧
      items.length ≤ tail.length + 1 := by
    cases h with
    | one ha ht hb => exact ⟨_, _, _, _, ha, ht, rfl, by simp⟩
    | more ha ht hb hrest =>
      have := length_le_of_derivesItems _ hrest
      exact ⟨_, _, _, _, ha, ht, rfl, by simp; omega⟩
  obtain ⟨a, t, tail, s, ha, ht, rfl, hlen⟩ := hstart
  obtain ⟨c, cs, rfl, hws, hne⟩ := head_derives ht
  have hshape : a ++ (c :: cs ++ tail) ++ ']' :: rest =
      a ++ c :: (cs ++ (tail ++ ']' :: rest)) := by simp
  obtain ⟨pos', hskip⟩ := skipWhitespace_append_cons ha hws (cs ++ (tail ++ ']' :: rest)) pos
  rw [hshape, hskip]
  refine ⟨by simpa [peek] using hne, ?_⟩
  simp only [List.length_cons, List.length_append]
  omega

theorem skip_fields {body : List Char} {fields : List (List Piece × Json)}
    (h : DerivesFields body fields) (rest : List Char) (pos : Nat) :
    (skipWhitespace ⟨body ++ '}' :: rest, pos⟩).peek ≠ some '}' ∧
      fields.length ≤ (skipWhitespace ⟨body ++ '}' :: rest, pos⟩).rest.length + 1 := by
  have hstart : ∃ a tail, Ws a ∧ body = a ++ '"' :: tail ∧ fields.length ≤ tail.length + 1 := by
    cases h with
    | one ha hb hc ht hd => exact ⟨_, _, ha, rfl, by simp⟩
    | more ha hb hc ht hd hrest =>
      have := length_le_of_derivesFields _ hrest
      exact ⟨_, _, ha, rfl, by simp; omega⟩
  obtain ⟨a, tail, ha, rfl, hlen⟩ := hstart
  have hshape : a ++ '"' :: tail ++ '}' :: rest = a ++ '"' :: (tail ++ '}' :: rest) := by simp
  obtain ⟨pos', hskip⟩ := skipWhitespace_append_cons ha (c := '"') (by decide)
    (tail ++ '}' :: rest) pos
  rw [hshape, hskip]
  refine ⟨by simp [peek], ?_⟩
  simp only [List.length_cons, List.length_append]
  omega

theorem parseArray_complete {items : List Json} {vs : List Value} (ht : Derives t (.array items))
    (hvals : Json.values? items = some vs)
    (hitem : ∀ s ∈ items, ∀ v, s.value? = some v → Reads item s v) (path : String)
    (rest : List Char) (pos : Nat) :
    ∃ pos', parseArray item path ⟨t ++ rest, pos⟩ = .ok (.array vs, ⟨rest, pos'⟩) := by
  cases ht with
  | emptyArray ha =>
    next a =>
    obtain ⟨pos1, h1⟩ := skipWhitespace_append_cons ha (c := ']') (by decide) rest (pos + 1)
    cases hvals
    refine ⟨pos1 + 1, ?_⟩
    have hshape : '[' :: (a ++ [']']) ++ rest = '[' :: (a ++ ']' :: rest) := by simp
    rw [hshape, parseArray]
    simp only [expect, peek, bump, List.head?_cons, if_true, List.tail_cons, bind, Except.bind,
      h1]
  | array hitems =>
    next body =>
    obtain ⟨hpeek, hfuel⟩ := skip_items hitems rest (pos + 1)
    obtain ⟨pos1, h1⟩ := parseItems_complete item path rest items body vs _ [] (pos + 1) hitems
      hvals hitem hfuel
    refine ⟨pos1, ?_⟩
    have hshape : '[' :: (body ++ [']']) ++ rest = '[' :: (body ++ ']' :: rest) := by simp
    rw [hshape, parseArray]
    simp only [expect, peek, bump, List.head?_cons, if_true, List.tail_cons, bind, Except.bind]
    exact (if_neg hpeek).trans h1

theorem parseObject_complete {fields : List (List Piece × Json)} {members : List (String × Value)}
    (ht : Derives t (.object fields)) (hvals : Json.members? fields = some members)
    (hitem : ∀ e ∈ fields, ∀ v, e.2.value? = some v → Reads item e.2 v) (path : String)
    (rest : List Char) (pos : Nat) :
    ∃ pos', parseObject item path ⟨t ++ rest, pos⟩ = .ok (.object members, ⟨rest, pos'⟩) := by
  cases ht with
  | emptyObject ha =>
    next a =>
    obtain ⟨pos1, h1⟩ := skipWhitespace_append_cons ha (c := '}') (by decide) rest (pos + 1)
    cases hvals
    refine ⟨pos1 + 1, ?_⟩
    have hshape : '{' :: (a ++ ['}']) ++ rest = '{' :: (a ++ '}' :: rest) := by simp
    rw [hshape, parseObject]
    simp only [expect, peek, bump, List.head?_cons, if_true, List.tail_cons, bind, Except.bind,
      h1]
    rfl
  | object hfields =>
    next body =>
    obtain ⟨hpeek, hfuel⟩ := skip_fields hfields rest (pos + 1)
    obtain ⟨pos1, h1⟩ := parseFields_complete item path rest fields body members _ .empty
      (pos + 1) hfields hvals hitem hfuel
    refine ⟨pos1, ?_⟩
    have hshape : '{' :: (body ++ ['}']) ++ rest = '{' :: (body ++ '}' :: rest) := by simp
    rw [hshape, parseObject]
    simp only [expect, peek, bump, List.head?_cons, if_true, List.tail_cons, bind, Except.bind]
    exact (if_neg hpeek).trans h1

/-- **Completeness**: every spelling of a value that denotes something is read back, in any
context that does not extend a number. -/
theorem parseValue_complete (room : Nat) :
    ∀ (s : Json) (v : Value), s.depth < room → s.value? = some v →
      Reads (parseValue room) s v := by
  induction room with
  | zero => intro s v h; exact absurd h (Nat.not_lt_zero _)
  | succ room ih =>
    intro s v hdepth hval t ht path rest pos hrest
    cases s with
    | null =>
      cases ht
      cases hval
      exact ⟨pos + 4, rfl⟩
    | bool b =>
      cases ht <;> cases hval
      · exact ⟨pos + 4, rfl⟩
      · exact ⟨pos + 5, rfl⟩
    | number n =>
      cases ht
      rw [Json.value?] at hval
      obtain ⟨i, hi, rfl⟩ := Option.map_eq_some_iff.mp hval
      obtain ⟨pos', h⟩ := parseNumber_complete hi path hrest pos
      refine ⟨pos', ?_⟩
      obtain ⟨c, cs, hcs, hc⟩ := head_numeral n
      rw [hcs, List.cons_append] at h ⊢
      rw [parseValue_number hc]
      exact h
    | string ps =>
      cases ht
      rw [Json.value?] at hval
      obtain ⟨cs, hcs, rfl⟩ := Option.map_eq_some_iff.mp hval
      obtain ⟨pos', h⟩ := parseString_complete hcs rest pos
      refine ⟨pos', ?_⟩
      show (parseString ⟨stringText ps ++ rest, pos⟩ >>= _) = _
      rw [h]
      rfl
    | array items =>
      rw [Json.value?] at hval
      obtain ⟨vs, hvs, rfl⟩ := Option.map_eq_some_iff.mp hval
      have hitem : ∀ s ∈ items, ∀ v, s.value? = some v → Reads (parseValue room) s v :=
        fun s hs v hv => ih s v (Json.depth_array_le.mp (Nat.le_of_lt_succ hdepth) s hs) hv
      obtain ⟨pos', h⟩ := parseArray_complete ht hvs hitem path rest pos
      refine ⟨pos', ?_⟩
      have hhead : ∃ cs, t = '[' :: cs := by cases ht <;> exact ⟨_, rfl⟩
      obtain ⟨cs, rfl⟩ := hhead
      exact h
    | object fields =>
      rw [Json.value?] at hval
      obtain ⟨members, hms, rfl⟩ := Option.map_eq_some_iff.mp hval
      have hitem : ∀ e ∈ fields, ∀ v, e.2.value? = some v → Reads (parseValue room) e.2 v :=
        fun e he v hv => ih e.2 v (Json.depth_object_le.mp (Nat.le_of_lt_succ hdepth) e he) hv
      obtain ⟨pos', h⟩ := parseObject_complete ht hms hitem path rest pos
      refine ⟨pos', ?_⟩
      have hhead : ∃ cs, t = '{' :: cs := by cases ht <;> exact ⟨_, rfl⟩
      obtain ⟨cs, rfl⟩ := hhead
      exact h

end Parser

/-! ## Whole texts -/

/-- The characters of a text spell a value within the recursion limit exactly when the decoder
returns what that value denotes. -/
theorem Value.fromJson_eq_ok_iff {text : String} {v : Value} :
    fromJson text = .ok v ↔
      ∃ s, JsonText text s ∧ s.depth ≤ MAX_DEPTH ∧ s.value? = some v := by
  rw [fromJson, fromJsonWithin]
  constructor
  · intro h
    obtain ⟨⟨w, p⟩, hw, hmore⟩ := bind_eq_ok.mp h
    simp only at hmore
    split_ifs at hmore with hend
    cases hmore
    obtain ⟨t, s, ht, hs, hval, hdepth⟩ := Parser.parseValue_sound _ _ _ _ _ hw
    obtain ⟨a, ha, hskip⟩ := Parser.skipWhitespace_split ⟨text.toList, 0⟩
    obtain ⟨b, hb, hskip'⟩ := Parser.skipWhitespace_split p
    refine ⟨s, ⟨a, t, b, ha, hs, hb, ?_⟩, Nat.le_of_succ_le_succ hdepth, hval⟩
    have hrest : p.rest = b := by rw [hskip', not_not.mp hend, List.append_nil]
    rw [← hrest, ← ht]
    exact hskip
  · rintro ⟨s, ⟨a, t, b, ha, ht, hb, htext⟩, hdepth, hval⟩
    obtain ⟨c, cs, hcs, hws, -⟩ := Parser.head_derives ht
    obtain ⟨pos1, h1⟩ := @Parser.skipWhitespace_append _ ha (t ++ b)
      (by simpa [hcs] using hws) 0
    obtain ⟨pos2, h2⟩ := Parser.parseValue_complete _ s v (Nat.lt_succ_of_le hdepth) hval t ht
      "$" b pos1 (Parser.numberEnds_of_ws hb)
    obtain ⟨pos3, h3⟩ := @Parser.skipWhitespace_append _ hb [] (by simp) pos2
    rw [List.append_nil] at h3
    rw [htext, h1]
    simp only [bind, Except.bind, h2, h3]
    rfl

end Cairn.Ports.Canonical
