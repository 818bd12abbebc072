import Cairn.Ports.Canonical.Parser
import Cairn.Verified.Checks
import Mathlib.Tactic.IntervalCases

/-!
# Encode, then decode

The decoder inverts the encoder. The argument is an induction on values
whose hypothesis is phrased for a value *in context*: reading `v.write ++
rest` yields `v` and leaves exactly `rest`, whenever `rest` cannot be taken
for a continuation of a number (`NumberEnds`) and the decoder has room for
`v.depth` levels. Strings, numbers and the two container loops each have one
such lemma.

The recursion ceiling is an argument of `fromJsonWithin`, which is what makes
injectivity hold for *all* values: two values with equal encodings are
decoded under a ceiling that admits both.
-/

namespace Cairn.Ports.Canonical

open Cairn.Verified

namespace Parser

/-! ## Strings -/

/-- One escaped character is read back as the character it spells. -/
theorem parseStringLoop_escapeChar (c : Char) (fuel : Nat) (out tail : List Char) (pos : Nat) :
    ∃ pos', parseStringLoop (fuel + 1) out ⟨escapeChar c ++ tail, pos⟩ =
      parseStringLoop fuel (out ++ [c]) ⟨tail, pos'⟩ := by
  unfold escapeChar
  split_ifs with h1 h2 h3 h4 h5 h6 h7 h8
  · subst h1; exact ⟨_, rfl⟩
  · subst h2; exact ⟨_, rfl⟩
  · subst h3; exact ⟨_, rfl⟩
  · subst h4; exact ⟨_, rfl⟩
  · subst h5; exact ⟨_, rfl⟩
  · subst h6; exact ⟨_, rfl⟩
  · subst h7; exact ⟨_, rfl⟩
  · have hc : c = Char.ofNat c.toNat := (Char.ofNat_toNat c).symm
    generalize hn : c.toNat = n at *
    subst hc
    interval_cases n <;> exact ⟨_, rfl⟩
  · refine ⟨pos + c.utf8Size, ?_⟩
    rw [List.singleton_append, parseStringLoop]
    split
    · next h => simp at h
    · next h => simp only [List.cons.injEq] at h; exact absurd h.1 h1
    · next h => simp only [List.cons.injEq] at h; exact absurd h.1 h2
    · next h => simp only [List.cons.injEq] at h; exact absurd h.1 h2
    · next ch rest _ _ _ h =>
        simp only [List.cons.injEq] at h
        obtain ⟨rfl, rfl⟩ := h
        rw [if_neg h8]

theorem parseStringLoop_flatMap (s : List Char) (rest : List Char) :
    ∀ (fuel : Nat) (out : List Char) (pos : Nat), s.length < fuel →
    ∃ pos', parseStringLoop fuel out ⟨s.flatMap escapeChar ++ '"' :: rest, pos⟩ =
      .ok (out ++ s, ⟨rest, pos'⟩) := by
  induction s with
  | nil =>
    intro fuel out pos hfuel
    obtain ⟨fuel, rfl⟩ : ∃ n, fuel = n + 1 := ⟨fuel - 1, by simp at hfuel; omega⟩
    exact ⟨pos + 1, by rw [List.append_nil]; rfl⟩
  | cons c s ih =>
    intro fuel out pos hfuel
    obtain ⟨fuel, rfl⟩ : ∃ n, fuel = n + 1 := ⟨fuel - 1, by simp at hfuel; omega⟩
    obtain ⟨pos1, h1⟩ := parseStringLoop_escapeChar c fuel out
      (s.flatMap escapeChar ++ '"' :: rest) pos
    obtain ⟨pos2, h2⟩ := ih fuel (out ++ [c]) pos1 (by simp at hfuel; omega)
    refine ⟨pos2, ?_⟩
    rw [List.flatMap_cons, List.append_assoc, h1, h2, List.append_assoc]
    rfl

theorem length_le_flatMap_escapeChar (s : List Char) :
    s.length ≤ (s.flatMap escapeChar).length := by
  induction s with
  | nil => simp
  | cons c s ih =>
    have hc : 1 ≤ (escapeChar c).length := by
      unfold escapeChar
      split_ifs <;> simp
    simp only [List.flatMap_cons, List.length_append, List.length_cons]
    omega

theorem parseString_writeEscaped (s : String) (rest : List Char) (pos : Nat) :
    ∃ pos', parseString ⟨writeEscaped s ++ rest, pos⟩ = .ok (s, ⟨rest, pos'⟩) := by
  have hfuel : s.toList.length < (s.toList.flatMap escapeChar ++ '"' :: rest).length + 1 := by
    have := length_le_flatMap_escapeChar s.toList
    simp only [List.length_append]
    omega
  obtain ⟨pos', h⟩ := parseStringLoop_flatMap s.toList rest _ [] (pos + 1) hfuel
  refine ⟨pos', ?_⟩
  have hshape : writeEscaped s ++ rest =
      '"' :: (s.toList.flatMap escapeChar ++ '"' :: rest) := by
    simp [writeEscaped]
  rw [hshape, parseString]
  simp only [expect, peek, bump, List.head?_cons, if_true, List.tail_cons, bind, Except.bind, h]
  simp

/-! ## Numbers -/

/-- What follows cannot be read as a continuation of a number. -/
def NumberEnds (rest : List Char) : Prop :=
  ∀ c ∈ rest.head?, ¬c.isDigit ∧ c ≠ '.' ∧ c ≠ 'e' ∧ c ≠ 'E'

variable {ds rest : List Char} {c : Char} {n : Nat} {item : ItemParser} {p p' : Parser}
  {path : String} {v : Value}

theorem takeWhile_digits (hds : ∀ c ∈ ds, c.isDigit) (hrest : NumberEnds rest) :
    (ds ++ rest).takeWhile Char.isDigit = ds ∧ (ds ++ rest).dropWhile Char.isDigit = rest := by
  induction ds with
  | nil =>
    cases rest with
    | nil => exact ⟨rfl, rfl⟩
    | cons c cs =>
      have hc := (hrest c (by simp)).1
      simp [hc]
  | cons d ds ih =>
    obtain ⟨ih1, ih2⟩ := ih fun c hc => hds c (List.mem_cons_of_mem _ hc)
    have hd := hds d (by simp)
    simp [hd, ih1, ih2]

/-- A positive number's digits do not start with a zero. -/
theorem head_toDigits_ne_zero (n : Nat) (hn : 0 < n) :
    ∃ c cs, Nat.toDigits 10 n = c :: cs ∧ c ≠ '0' := by
  induction n using Nat.strongRecOn with
  | ind n ih =>
    by_cases hlt : n < 10
    · rw [Nat.toDigits_of_lt_base hlt]
      refine ⟨_, [], rfl, ?_⟩
      interval_cases n <;> decide
    · obtain ⟨c, cs, hcs, hc⟩ := ih (n / 10) (by omega) (by omega)
      rw [Nat.toDigits_of_base_le (by decide) (by omega), hcs]
      exact ⟨c, cs ++ [(n % 10).digitChar], rfl, hc⟩

/-- A run of digits without a superfluous zero is read to its end. -/
theorem parseIntPart_digits (hds : ∀ c ∈ ds, c.isDigit) (hne : ds ≠ [])
    (hzero : ds.head? = some '0' → ds = ['0']) (hrest : NumberEnds rest) (pos : Nat) :
    ∃ pos', parseIntPart ⟨ds ++ rest, pos⟩ = .ok (ds, ⟨rest, pos'⟩) := by
  obtain ⟨c, cs, rfl⟩ := List.exists_cons_of_ne_nil hne
  by_cases hc : c = '0'
  · subst hc
    rw [hzero rfl]
    have hnext : (peekDigit ⟨rest, pos + 1⟩) = false := by
      cases rest with
      | nil => rfl
      | cons c cs =>
        have := (hrest c (by simp)).1
        simpa [peekDigit, peek] using this
    refine ⟨pos + 1, ?_⟩
    show (if peekDigit ⟨rest, pos + 1⟩ then _ else _) = _
    rw [hnext]
    rfl
  · have hcd : c.isDigit := hds c (by simp)
    obtain ⟨htake, hdrop⟩ := takeWhile_digits hds hrest
    refine ⟨pos + (c :: cs).length, ?_⟩
    have hpeek : peek ⟨c :: cs ++ rest, pos⟩ = some c := rfl
    rw [parseIntPart, hpeek]
    split
    · next h => simp only [Option.some.injEq] at h; exact absurd h hc
    · next h =>
        simp only [Option.some.injEq] at h
        subst h
        rw [if_pos hcd, takeDigits, htake, hdrop]
    · next h => simp at h

theorem isDigit_of_mem_toDigits (h : c ∈ Nat.toDigits 10 n) : c.isDigit :=
  Nat.isDigit_of_mem_toDigits (by decide) (by decide) h

theorem toDigits_eq_of_head_zero (h : (Nat.toDigits 10 n).head? = some '0') :
    Nat.toDigits 10 n = ['0'] := by
  rcases Nat.eq_zero_or_pos n with rfl | hn
  · exact Nat.toDigits_zero 10
  · obtain ⟨c, cs, hcs, hc⟩ := head_toDigits_ne_zero n hn
    rw [hcs] at h
    simp only [List.head?_cons, Option.some.injEq] at h
    exact absurd h hc

/-- A decimal numeral starts with a digit or a sign. -/
theorem head_writeInt (i : Int) : ∃ c cs, writeInt i = c :: cs ∧ (c = '-' ∨ c.isDigit) := by
  rw [writeInt]
  split_ifs with hneg
  · exact ⟨_, _, rfl, .inl rfl⟩
  · cases hd : Nat.toDigits 10 i.natAbs with
    | nil => exact absurd hd Nat.toDigits_ne_nil
    | cons c cs =>
      exact ⟨c, cs, rfl, .inr (Nat.isDigit_of_mem_toDigits (b := 10) (n := i.natAbs)
        (by decide) (by decide) (by rw [hd]; simp))⟩

/-- An integer in range, written with an optional minus sign. -/
theorem parseNumber_digits (hds : ∀ c ∈ ds, c.isDigit) (hne : ds ≠ [])
    (hzero : ds.head? = some '0' → ds = ['0']) {negative : Bool} {i : I128}
    (hi : I128.ofInt? (intOfDigits negative ds) = some i) (path : String) (hrest : NumberEnds rest)
    (pos : Nat) :
    ∃ pos', parseNumber path ⟨(if negative then ['-'] else []) ++ (ds ++ rest), pos⟩ =
      .ok (.int i, ⟨rest, pos'⟩) := by
  have hfrac : ∀ pos, parseFraction ⟨rest, pos⟩ = .ok (false, ⟨rest, pos⟩) := by
    intro pos
    rw [parseFraction, if_neg]
    intro h
    exact (hrest '.' (by simpa [peek] using h)).2.1 rfl
  have hexp : ∀ pos, parseExponent ⟨rest, pos⟩ = .ok (false, ⟨rest, pos⟩) := by
    intro pos
    rw [parseExponent, if_neg]
    rintro (h | h)
    · exact (hrest 'e' (by simpa [peek] using h)).2.2.1 rfl
    · exact (hrest 'E' (by simpa [peek] using h)).2.2.2 rfl
  cases negative with
  | true =>
    obtain ⟨pos', h⟩ := parseIntPart_digits hds hne hzero hrest (pos + 1)
    refine ⟨pos', ?_⟩
    rw [if_pos rfl, parseNumber]
    simp only [peek, List.cons_append, List.nil_append, List.head?_cons, beq_self_eq_true,
      if_true, bump, List.tail_cons, bind, Except.bind, h, hfrac, hexp, hi, Bool.or_self,
      Bool.false_eq_true, if_false]
  | false =>
    obtain ⟨pos', h⟩ := parseIntPart_digits hds hne hzero hrest pos
    refine ⟨pos', ?_⟩
    have hhead : (peek ⟨ds ++ rest, pos⟩ == some '-') = false := by
      obtain ⟨c, cs, rfl⟩ := List.exists_cons_of_ne_nil hne
      have hc : c.isDigit := hds c (by simp)
      have hminus : c ≠ '-' := by rintro rfl; exact absurd hc (by decide)
      simpa [peek] using hminus
    rw [if_neg (by decide), List.nil_append, parseNumber]
    simp only [hhead, Bool.false_eq_true, if_false, bind, Except.bind, h, hfrac, hexp, hi,
      Bool.or_self]

theorem parseNumber_writeInt (i : I128) (path : String) (rest : List Char)
    (hrest : NumberEnds rest) (pos : Nat) :
    ∃ pos', parseNumber path ⟨writeInt i.val ++ rest, pos⟩ = .ok (.int i, ⟨rest, pos'⟩) := by
  have hi : I128.ofInt? (intOfDigits (decide (i.val < 0)) (Nat.toDigits 10 i.val.natAbs)) =
      some i := by
    have hval : intOfDigits (decide (i.val < 0)) (Nat.toDigits 10 i.val.natAbs) = i.val := by
      rw [intOfDigits, Nat.ofDigitChars_ten_toDigits]
      split_ifs with h
      · have := of_decide_eq_true h
        omega
      · have : ¬i.val < 0 := by simpa using h
        omega
    rw [hval, I128.ofInt?_val]
  obtain ⟨pos', h⟩ := parseNumber_digits (fun _ => isDigit_of_mem_toDigits)
    Nat.toDigits_ne_nil toDigits_eq_of_head_zero hi path hrest pos
  refine ⟨pos', ?_⟩
  have hshape : writeInt i.val ++ rest =
      (if decide (i.val < 0) = true then ['-'] else []) ++
        (Nat.toDigits 10 i.val.natAbs ++ rest) := by
    rw [writeInt]
    by_cases hneg : i.val < 0 <;> simp [hneg]
  rw [hshape]
  exact h

theorem numberEnds_cons (hc : ¬c.isDigit ∧ c ≠ '.' ∧ c ≠ 'e' ∧ c ≠ 'E') (rest : List Char) :
    NumberEnds (c :: rest) := by
  intro d hd
  obtain rfl : c = d := by simpa using hd
  exact hc

theorem numberEnds_nil : NumberEnds [] := by
  intro c hc
  simp at hc

/-! ## Values in context -/

theorem skipWhitespace_cons (hc : isWhitespace c = false) (cs : List Char) (pos : Nat) :
    skipWhitespace ⟨c :: cs, pos⟩ = ⟨c :: cs, pos⟩ := by
  simp [skipWhitespace, hc]

/-- No encoding starts with whitespace or with a closing bracket. -/
theorem head_write (v : Value) :
    ∃ c cs, v.write = c :: cs ∧ isWhitespace c = false ∧ c ≠ ']' := by
  induction v using Value.induct with
  | hnull => exact ⟨_, _, rfl, by decide, by decide⟩
  | hbool b => cases b <;> exact ⟨_, _, rfl, by decide, by decide⟩
  | hint i =>
    obtain ⟨c, cs, hcs, hc⟩ := head_writeInt i.val
    have hne : ∀ d : Char, ¬(d = '-' ∨ d.isDigit) → c ≠ d := by
      rintro d hd rfl
      exact hd hc
    refine ⟨c, cs, hcs, ?_, hne ']' (by decide)⟩
    simp [isWhitespace, hne ' ' (by decide), hne '\t' (by decide), hne '\n' (by decide),
      hne '\r' (by decide)]
  | hstring s => exact ⟨_, _, rfl, by decide, by decide⟩
  | harray items ih => exact ⟨_, _, rfl, by decide, by decide⟩
  | hobject map ih => exact ⟨_, _, rfl, by decide, by decide⟩

/-- `item` reads `v` back in any context that does not extend a number. -/
def ReadsBack (item : ItemParser) (v : Value) : Prop :=
  ∀ (path : String) (rest : List Char) (pos : Nat), NumberEnds rest →
    ∃ pos', item path ⟨v.write ++ rest, pos⟩ = .ok (v, ⟨rest, pos'⟩)

theorem parseItems_write (item : ItemParser) (path : String) (rest : List Char)
    (vs : List Value) :
    ∀ (v : Value) (fuel : Nat) (out : List Value) (pos : Nat), vs.length < fuel →
      (∀ w ∈ v :: vs, ReadsBack item w) →
    ∃ pos', parseItems item path fuel out
        ⟨v.write ++ (Value.writeMore vs ++ ']' :: rest), pos⟩ =
      .ok (.array (out ++ v :: vs), ⟨rest, pos'⟩) := by
  induction vs with
  | nil =>
    intro v fuel out pos hfuel hitem
    obtain ⟨fuel, rfl⟩ : ∃ n, fuel = n + 1 := ⟨fuel - 1, by omega⟩
    obtain ⟨pos1, h1⟩ := hitem v (by simp) (path ++ "[" ++ toString out.length ++ "]")
      (']' :: rest) pos (numberEnds_cons (by decide) _)
    refine ⟨pos1 + 1, ?_⟩
    have hmore : Value.writeMore [] ++ ']' :: rest = ']' :: rest := rfl
    rw [hmore, parseItems]
    simp only [bind, Except.bind, h1, skipWhitespace_cons (c := ']') (by decide), peek, bump,
      List.head?_cons, List.tail_cons]
  | cons w vs ih =>
    intro v fuel out pos hfuel hitem
    obtain ⟨fuel, rfl⟩ : ∃ n, fuel = n + 1 := ⟨fuel - 1, by simp at hfuel; omega⟩
    have hmore : Value.writeMore (w :: vs) ++ ']' :: rest =
        ',' :: (w.write ++ (Value.writeMore vs ++ ']' :: rest)) := by
      simp [Value.writeMore]
    obtain ⟨pos1, h1⟩ := hitem v (by simp) (path ++ "[" ++ toString out.length ++ "]")
      (',' :: (w.write ++ (Value.writeMore vs ++ ']' :: rest))) pos
      (numberEnds_cons (by decide) _)
    obtain ⟨pos2, h2⟩ := ih w fuel (out ++ [v]) (pos1 + 1) (by simp at hfuel; omega)
      fun u hu => hitem u (List.mem_cons_of_mem _ hu)
    refine ⟨pos2, ?_⟩
    obtain ⟨c, cs, hcs, hws, -⟩ := head_write w
    have hskip : skipWhitespace ⟨w.write ++ (Value.writeMore vs ++ ']' :: rest), pos1 + 1⟩ =
        ⟨w.write ++ (Value.writeMore vs ++ ']' :: rest), pos1 + 1⟩ := by
      rw [hcs, List.cons_append]
      exact skipWhitespace_cons hws _ _
    rw [hmore, parseItems]
    simp only [bind, Except.bind, h1, skipWhitespace_cons (c := ',') (by decide), peek, bump,
      List.head?_cons, List.tail_cons, hskip, h2, List.append_assoc, List.singleton_append]

theorem parseFields_write (item : ItemParser) (path : String) (rest : List Char)
    (es : List (String × Value)) :
    ∀ (e : String × Value) (fuel : Nat) (out map : BTreeMap String Value) (pos : Nat),
      es.length < fuel → map.entries = out.entries ++ e :: es →
      (∀ f ∈ e :: es, ReadsBack item f.2) →
    ∃ pos', parseFields item path fuel out
        ⟨Value.writeField e ++ (Value.writeMoreFields es ++ '}' :: rest), pos⟩ =
      .ok (.objectOf map, ⟨rest, pos'⟩) := by
  -- The keys come in increasing order, so each insertion lands at the end.
  induction es with
  | nil =>
    intro e fuel out map pos hfuel hmap hitem
    obtain ⟨fuel, rfl⟩ : ∃ n, fuel = n + 1 := ⟨fuel - 1, by omega⟩
    have hinsert : out.insert e.1 e.2 = map := BTreeMap.insert_eq_of_entries hmap
    obtain ⟨pos1, h1⟩ := parseString_writeEscaped e.1 (':' :: (e.2.write ++ '}' :: rest)) pos
    obtain ⟨pos2, h2⟩ := hitem e (by simp) (path ++ "." ++ e.1) ('}' :: rest) (pos1 + 1)
      (numberEnds_cons (by decide) _)
    refine ⟨pos2 + 1, ?_⟩
    obtain ⟨c, cs, hcs, hws, -⟩ := head_write e.2
    have hskip : skipWhitespace ⟨e.2.write ++ '}' :: rest, pos1 + 1⟩ =
        ⟨e.2.write ++ '}' :: rest, pos1 + 1⟩ := by
      rw [hcs, List.cons_append]
      exact skipWhitespace_cons hws _ _
    have hshape : Value.writeField e ++ (Value.writeMoreFields [] ++ '}' :: rest) =
        writeEscaped e.1 ++ ':' :: (e.2.write ++ '}' :: rest) := by
      simp [Value.writeField, Value.writeMoreFields]
    have hpeek : ¬peek ⟨writeEscaped e.1 ++ ':' :: (e.2.write ++ '}' :: rest), pos⟩ ≠
        some '"' := by
      simp [peek, writeEscaped]
    rw [hshape, parseFields, if_neg hpeek]
    simp only [bind, Except.bind, h1, skipWhitespace_cons (c := ':') (by decide), expect, peek,
      bump, List.head?_cons, List.tail_cons, if_true, hskip, h2,
      skipWhitespace_cons (c := '}') (by decide), hinsert]
  | cons f es ih =>
    intro e fuel out map pos hfuel hmap hitem
    obtain ⟨fuel, rfl⟩ : ∃ n, fuel = n + 1 := ⟨fuel - 1, by simp at hfuel; omega⟩
    have hinsert : (out.insert e.1 e.2).entries = out.entries ++ [e] :=
      BTreeMap.entries_insert_of_append hmap
    let tail := Value.writeField f ++ (Value.writeMoreFields es ++ '}' :: rest)
    obtain ⟨pos1, h1⟩ := parseString_writeEscaped e.1 (':' :: (e.2.write ++ ',' :: tail)) pos
    obtain ⟨pos2, h2⟩ := hitem e (by simp) (path ++ "." ++ e.1) (',' :: tail) (pos1 + 1)
      (numberEnds_cons (by decide) _)
    obtain ⟨pos3, h3⟩ := ih f fuel (out.insert e.1 e.2) map (pos2 + 1)
      (by simp at hfuel; omega) (by rw [hinsert, hmap]; simp)
      fun g hg => hitem g (List.mem_cons_of_mem _ hg)
    refine ⟨pos3, ?_⟩
    obtain ⟨c, cs, hcs, hws, -⟩ := head_write e.2
    have hskip : skipWhitespace ⟨e.2.write ++ ',' :: tail, pos1 + 1⟩ =
        ⟨e.2.write ++ ',' :: tail, pos1 + 1⟩ := by
      rw [hcs, List.cons_append]
      exact skipWhitespace_cons hws _ _
    have hskip' : skipWhitespace ⟨tail, pos2 + 1⟩ = ⟨tail, pos2 + 1⟩ := by
      have htail : tail = '"' :: tail.tail := by simp [tail, Value.writeField, writeEscaped]
      rw [htail]
      exact skipWhitespace_cons (by decide) _ _
    have hshape : Value.writeField e ++ (Value.writeMoreFields (f :: es) ++ '}' :: rest) =
        writeEscaped e.1 ++ ':' :: (e.2.write ++ ',' :: tail) := by
      simp [Value.writeField, Value.writeMoreFields, tail]
    have hpeek : ¬peek ⟨writeEscaped e.1 ++ ':' :: (e.2.write ++ ',' :: tail), pos⟩ ≠
        some '"' := by
      simp [peek, writeEscaped]
    rw [hshape, parseFields, if_neg hpeek]
    simp only [bind, Except.bind, h1, skipWhitespace_cons (c := ':') (by decide), expect, peek,
      bump, List.head?_cons, List.tail_cons, if_true, hskip, h2,
      skipWhitespace_cons (c := ',') (by decide), hskip']
    exact h3

theorem length_le_writeMore (vs : List Value) : vs.length ≤ (Value.writeMore vs).length := by
  induction vs with
  | nil => simp
  | cons v vs ih =>
    simp only [Value.writeMore, List.flatMap_cons, List.length_append, List.length_cons] at ih ⊢
    omega

theorem length_le_writeMoreFields (es : List (String × Value)) :
    es.length ≤ (Value.writeMoreFields es).length := by
  induction es with
  | nil => simp
  | cons e es ih =>
    simp only [Value.writeMoreFields, List.flatMap_cons, List.length_append,
      List.length_cons] at ih ⊢
    omega

theorem parseArray_write (item : ItemParser) (path : String) (vs : List Value)
    (hitem : ∀ v ∈ vs, ReadsBack item v) (rest : List Char) (pos : Nat) :
    ∃ pos', parseArray item path ⟨(Value.array vs).write ++ rest, pos⟩ =
      .ok (.array vs, ⟨rest, pos'⟩) := by
  cases vs with
  | nil => exact ⟨pos + 2, rfl⟩
  | cons v vs =>
    let body := v.write ++ (Value.writeMore vs ++ ']' :: rest)
    have hfuel : vs.length < body.length + 1 := by
      have := length_le_writeMore vs
      simp only [body, List.length_append]
      omega
    obtain ⟨pos', h⟩ := parseItems_write item path rest vs v (body.length + 1) [] (pos + 1)
      hfuel hitem
    refine ⟨pos', ?_⟩
    obtain ⟨c, cs, hcs, hws, hne⟩ := head_write v
    have hskip : skipWhitespace ⟨body, pos + 1⟩ = ⟨body, pos + 1⟩ := by
      simp only [body, hcs, List.cons_append]
      exact skipWhitespace_cons hws _ _
    have hpeek : body.head? ≠ some ']' := by simp [body, hcs, hne]
    have hshape : (Value.array (v :: vs)).write ++ rest = '[' :: body := by
      simp [Value.write_array_cons, body]
    rw [hshape, parseArray]
    simp only [expect, peek, bump, List.head?_cons, if_true, List.tail_cons, bind, Except.bind,
      hskip]
    rw [if_neg hpeek]
    exact h

theorem parseObject_write (item : ItemParser) (path : String) (map : BTreeMap String Value)
    (hitem : ∀ e ∈ map.entries, ReadsBack item e.2) (rest : List Char) (pos : Nat) :
    ∃ pos', parseObject item path ⟨(Value.objectOf map).write ++ rest, pos⟩ =
      .ok (.objectOf map, ⟨rest, pos'⟩) := by
  cases hentries : map.entries with
  | nil =>
    have hmap : map = BTreeMap.empty := BTreeMap.entries_injective hentries
    subst hmap
    exact ⟨pos + 2, rfl⟩
  | cons e es =>
    let body := Value.writeField e ++ (Value.writeMoreFields es ++ '}' :: rest)
    have hfuel : es.length < body.length + 1 := by
      have := length_le_writeMoreFields es
      simp only [body, List.length_append]
      omega
    obtain ⟨pos', h⟩ := parseFields_write item path rest es e (body.length + 1) .empty map
      (pos + 1) hfuel hentries (hentries ▸ hitem)
    refine ⟨pos', ?_⟩
    have hbody : body = '"' :: body.tail := by simp [body, Value.writeField, writeEscaped]
    have hskip : skipWhitespace ⟨body, pos + 1⟩ = ⟨body, pos + 1⟩ := by
      rw [hbody]
      exact skipWhitespace_cons (by decide) _ _
    have hpeek : body.head? ≠ some '}' := by rw [hbody]; simp
    have hshape : (Value.objectOf map).write ++ rest = '{' :: body := by
      simp [Value.write_objectOf_cons hentries, body]
    rw [hshape, parseObject]
    simp only [expect, peek, bump, List.head?_cons, if_true, List.tail_cons, bind, Except.bind,
      hskip]
    rw [if_neg hpeek]
    exact h

/-- The character that opens a number sends `parse_value` to `parse_number`. -/
theorem parseValue_number {cs : List Char} (hc : c = '-' ∨ c.isDigit) (room : Nat) (path : String)
    (pos : Nat) : parseValue (room + 1) path ⟨c :: cs, pos⟩ = parseNumber path ⟨c :: cs, pos⟩ := by
  rw [parseValue]
  simp only [peek, List.head?_cons]
  split
  all_goals first
    | (next h =>
      simp only [Option.some.injEq] at h
      subst h
      exact absurd hc (by decide))
    | (next h =>
      simp only [Option.some.injEq] at h
      subst h
      rw [if_pos hc])
    | (next h => simp at h)

/-- **A value in context**: its encoding is read back, and nothing else is. -/
theorem parseValue_write (v : Value) :
    ∀ room : Nat, v.depth < room → ReadsBack (parseValue room) v := by
  induction v using Value.induct with
  | hnull =>
    intro room hroom path rest pos _
    obtain ⟨room, rfl⟩ : ∃ n, room = n + 1 := ⟨room - 1, by omega⟩
    exact ⟨pos + 4, rfl⟩
  | hbool b =>
    intro room hroom path rest pos _
    obtain ⟨room, rfl⟩ : ∃ n, room = n + 1 := ⟨room - 1, by omega⟩
    cases b with
    | true => exact ⟨pos + 4, rfl⟩
    | false => exact ⟨pos + 5, rfl⟩
  | hint i =>
    intro room hroom path rest pos hrest
    obtain ⟨room, rfl⟩ : ∃ n, room = n + 1 := ⟨room - 1, by omega⟩
    obtain ⟨pos', h⟩ := parseNumber_writeInt i path rest hrest pos
    refine ⟨pos', ?_⟩
    obtain ⟨c, cs, hcs, hc⟩ := head_writeInt i.val
    rw [Value.write_int, hcs, List.cons_append, parseValue_number hc]
    rw [hcs, List.cons_append] at h
    exact h
  | hstring s =>
    intro room hroom path rest pos _
    obtain ⟨room, rfl⟩ : ∃ n, room = n + 1 := ⟨room - 1, by omega⟩
    obtain ⟨pos', h⟩ := parseString_writeEscaped s rest pos
    refine ⟨pos', ?_⟩
    show (parseString ⟨writeEscaped s ++ rest, pos⟩ >>= _) = _
    rw [h]
    rfl
  | harray vs ih =>
    intro room hroom path rest pos _
    obtain ⟨room, rfl⟩ : ∃ n, room = n + 1 := ⟨room - 1, by omega⟩
    have hitem : ∀ v ∈ vs, ReadsBack (parseValue room) v := fun v hv =>
      ih v hv room (Value.depth_array_le.mp (Nat.le_of_lt_succ hroom) v hv)
    exact parseArray_write (parseValue room) path vs hitem rest pos
  | hobject map ih =>
    intro room hroom path rest pos _
    obtain ⟨room, rfl⟩ : ∃ n, room = n + 1 := ⟨room - 1, by omega⟩
    have hitem : ∀ e ∈ map.entries, ReadsBack (parseValue room) e.2 := fun e he =>
      ih e he room (Value.depth_objectOf_le.mp (Nat.le_of_lt_succ hroom) e he)
    exact parseObject_write (parseValue room) path map hitem rest pos

/-! ## What the decoder returns is within its ceiling -/

/-- Every value `item` returns has at most `n` levels. -/
def ReturnsWithin (item : ItemParser) (n : Nat) : Prop :=
  ∀ path p v p', item path p = .ok (v, p') → v.depth + 1 ≤ n

theorem parseItems_depth (hitem : ReturnsWithin item n) (path : String) (fuel : Nat) :
    ∀ (out : List Value) (p p' : Parser) (v : Value), (∀ w ∈ out, w.depth + 1 ≤ n) →
      parseItems item path fuel out p = .ok (v, p') → v.depth ≤ n := by
  induction fuel with
  | zero => intro out p p' v _ h; cases h
  | succ fuel ih =>
    intro out p p' v hout h
    rw [parseItems] at h
    obtain ⟨⟨w, q⟩, hw, h⟩ := bind_eq_ok.mp h
    have hall : ∀ u ∈ out ++ [w], u.depth + 1 ≤ n := by
      intro u hu
      rcases List.mem_append.mp hu with hu | hu
      · exact hout u hu
      · rw [List.mem_singleton.mp hu]
        exact hitem _ _ _ _ hw
    simp only at h
    split at h
    · exact ih _ _ _ _ hall h
    · cases h
      exact Value.depth_array_le.mpr hall
    · cases h

theorem parseFields_depth (hitem : ReturnsWithin item n) (path : String) (fuel : Nat) :
    ∀ (out : BTreeMap String Value) (p p' : Parser) (v : Value),
      (∀ e ∈ out.entries, e.2.depth + 1 ≤ n) →
      parseFields item path fuel out p = .ok (v, p') → v.depth ≤ n := by
  induction fuel with
  | zero => intro out p p' v _ h; cases h
  | succ fuel ih =>
    intro out p p' v hout h
    rw [parseFields] at h
    split_ifs at h with hquote
    obtain ⟨⟨key, q⟩, -, h⟩ := bind_eq_ok.mp h
    obtain ⟨q1, -, h⟩ := bind_eq_ok.mp h
    obtain ⟨⟨w, q2⟩, hw, h⟩ := bind_eq_ok.mp h
    have hall : ∀ e ∈ (out.insert key w).entries, e.2.depth + 1 ≤ n := by
      intro e he
      rcases BTreeMap.mem_insertEntry he with rfl | he
      · exact hitem _ _ _ _ hw
      · exact hout e he
    simp only at h
    split at h
    · exact ih _ _ _ _ hall h
    · cases h
      exact Value.depth_objectOf_le.mpr hall
    · cases h

theorem parseArray_depth (hitem : ReturnsWithin item n) (h : parseArray item path p = .ok (v, p')) :
    v.depth ≤ n := by
  rw [parseArray] at h
  obtain ⟨q, -, h⟩ := bind_eq_ok.mp h
  simp only at h
  split_ifs at h
  · cases h
    exact Nat.zero_le n
  · exact parseItems_depth hitem _ _ _ _ _ _ (by simp) h

theorem parseObject_depth (hitem : ReturnsWithin item n) (h : parseObject item path p = .ok (v, p')) :
    v.depth ≤ n := by
  rw [parseObject] at h
  obtain ⟨q, -, h⟩ := bind_eq_ok.mp h
  simp only at h
  split_ifs at h
  · cases h
    exact Nat.zero_le n
  · exact parseFields_depth hitem _ _ _ _ _ _ (by simp [BTreeMap.empty]) h

theorem literal_depth {word : String} {w : Value} (hw : w.depth = 0)
    (h : p.literal word w = .ok (v, p')) : v.depth = 0 := by
  rw [literal] at h
  split_ifs at h
  cases h
  exact hw

theorem parseNumber_depth (h : parseNumber path p = .ok (v, p')) : v.depth = 0 := by
  rw [parseNumber] at h
  obtain ⟨⟨digits, q⟩, -, h⟩ := bind_eq_ok.mp h
  obtain ⟨⟨fraction, q1⟩, -, h⟩ := bind_eq_ok.mp h
  obtain ⟨⟨exponent, q2⟩, -, h⟩ := bind_eq_ok.mp h
  simp only at h
  split_ifs at h
  split at h
  · cases h
    rfl
  · cases h

theorem parseValue_depth (room : Nat) : ReturnsWithin (parseValue room) room := by
  induction room with
  | zero => intro path p v p' h; cases h
  | succ room ih =>
    intro path p v p' h
    refine Nat.succ_le_succ ?_
    rw [parseValue] at h
    split at h
    · exact (literal_depth rfl h).trans_le (Nat.zero_le room)
    · exact (literal_depth rfl h).trans_le (Nat.zero_le room)
    · exact (literal_depth rfl h).trans_le (Nat.zero_le room)
    · obtain ⟨⟨s, q⟩, -, h⟩ := bind_eq_ok.mp h
      cases h
      exact Nat.zero_le room
    · exact parseArray_depth ih h
    · exact parseObject_depth ih h
    · split_ifs at h
      exact (parseNumber_depth h).trans_le (Nat.zero_le room)
    · cases h

end Parser

/-! ## Whole texts -/

namespace Value

theorem fromJsonWithin_canonicalString (v : Value) {ceiling : Nat} (h : v.depth ≤ ceiling) :
    fromJsonWithin ceiling v.canonicalString = .ok v := by
  obtain ⟨pos', hparse⟩ := Parser.parseValue_write v (ceiling + 1) (Nat.lt_succ_of_le h) "$" [] 0
    Parser.numberEnds_nil
  rw [List.append_nil] at hparse
  obtain ⟨c, cs, hcs, hws, -⟩ := Parser.head_write v
  have hskip : Parser.skipWhitespace ⟨v.write, 0⟩ = ⟨v.write, 0⟩ := by
    rw [hcs]
    exact Parser.skipWhitespace_cons hws _ _
  rw [fromJsonWithin, toList_canonicalString]
  simp only [hskip, bind, Except.bind, hparse]
  rfl

theorem depth_le_of_fromJsonWithin {ceiling : Nat} {text : String} {v : Value}
    (h : fromJsonWithin ceiling text = .ok v) : v.depth ≤ ceiling := by
  rw [fromJsonWithin] at h
  obtain ⟨⟨w, p⟩, hw, h⟩ := bind_eq_ok.mp h
  simp only at h
  split_ifs at h
  cases h
  exact Nat.le_of_succ_le_succ (Parser.parseValue_depth _ _ _ _ _ hw)

theorem fromJson_canonicalString (v : Value) (h : v.depth ≤ MAX_DEPTH) :
    fromJson v.canonicalString = .ok v :=
  fromJsonWithin_canonicalString v h

theorem depth_le_of_fromJson {text : String} {v : Value} (h : fromJson text = .ok v) :
    v.depth ≤ MAX_DEPTH :=
  depth_le_of_fromJsonWithin h

/-- Distinct values have distinct encodings, however deep they are. -/
theorem canonicalString_injective : Function.Injective canonicalString := by
  intro v w h
  have hv := fromJsonWithin_canonicalString v (Nat.le_max_left v.depth w.depth)
  have hw := fromJsonWithin_canonicalString w (Nat.le_max_right v.depth w.depth)
  rw [h, hw] at hv
  cases hv
  rfl

theorem canonicalBytes_injective : Function.Injective canonicalBytes := by
  intro v w h
  exact canonicalString_injective (String.toByteArray_inj.mp h)

/-- Equality of values is decided on their encodings. -/
instance : DecidableEq Value := fun v w =>
  decidable_of_iff (v.canonicalString = w.canonicalString) canonicalString_injective.eq_iff

/-- **Canonical encode/decode.** Every value the decoder has room for is read
back from its encoding; whatever the decoder returns is read back from its
encoding, which decoding and encoding again leaves alone; and distinct values
never share their canonical bytes. -/
theorem canonical_encode_decode :
    (∀ v : Value, v.depth ≤ 128 → fromJson v.canonicalString = .ok v) ∧
    (∀ (text : String) (v : Value), fromJson text = .ok v →
      fromJson v.canonicalString = .ok v ∧
        (fromJson v.canonicalString).map canonicalString = .ok v.canonicalString) ∧
    (∀ v w : Value, v.canonicalBytes = w.canonicalBytes → v = w) := by
  refine ⟨fromJson_canonicalString, ?_, fun v w h => canonicalBytes_injective h⟩
  intro text v h
  have hback := fromJson_canonicalString v (depth_le_of_fromJson h)
  exact ⟨hback, by rw [hback]; rfl⟩

end Value

end Cairn.Ports.Canonical
