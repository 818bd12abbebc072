import Cairn.Ports.Epoch
import Cairn.Ports.Canonical.Cursor
import Cairn.Verified.Calendar
import Mathlib.Data.List.TakeWhile

/-!
# The spellings of an instant

RFC 3339 as a grammar: a date of the calendar, a time of day, digits of a
second that may follow, and an offset. `parse_rfc3339` accepts the spellings of
the grammar and nothing else, and gives the instant that is spelled.
-/

namespace Cairn.Ports

open Cairn.Verified.Calendar
open Cairn.Ports.Canonical

/-! ## Digits -/

/-- The last so many decimal digits. -/
def digits : Nat → Nat → List Char
  | 0, _ => []
  | width + 1, n => digits width (n / 10) ++ [Nat.digitChar (n % 10)]

/-- The bytes of ASCII characters. -/
def asciiBytes (chars : List Char) : List UInt8 := chars.map fun c => UInt8.ofNat c.toNat

/-- These characters are in the bytes from a place on. -/
def Spelled (bytes : List UInt8) (i : Nat) (chars : List Char) : Prop :=
  asciiBytes chars <+: bytes.drop i

theorem spelled_append {bytes : List UInt8} {i : Nat} {xs ys : List Char} :
    Spelled bytes i (xs ++ ys) ↔ Spelled bytes i xs ∧ Spelled bytes (i + xs.length) ys := by
  unfold Spelled asciiBytes
  rw [List.map_append, ← List.drop_drop]
  constructor
  · rintro ⟨rest, hrest⟩
    rw [← hrest, List.append_assoc]
    refine ⟨List.prefix_append _ _, ?_⟩
    rw [List.drop_left' (List.length_map _)]
    exact List.prefix_append _ _
  · rintro ⟨⟨rest, hxs⟩, hys⟩
    rw [← hxs, List.drop_left' (List.length_map _)] at hys
    rw [← hxs]
    exact List.prefix_append_right_inj _ |>.mpr hys

@[simp] theorem length_digits (width n : Nat) : (digits width n).length = width := by
  induction width generalizing n with
  | zero => rfl
  | succ width ih => rw [digits, List.length_append, ih, List.length_singleton]

theorem digitChar_toNat {n : Nat} (h : n < 10) : (Nat.digitChar n).toNat = 48 + n := by
  interval_cases n <;> rfl

theorem digitsValue_concat (bytes : List UInt8) (b : UInt8) :
    digitsValue (bytes ++ [b]) = digitsValue bytes * 10 + (b.toNat - 48 : Int) := by
  unfold digitsValue
  rw [List.foldl_append]
  rfl

theorem asciiBytes_digits (width n : Nat) (h : n < 10 ^ width) :
    (asciiBytes (digits width n)).all isAsciiDigit = true ∧
      digitsValue (asciiBytes (digits width n)) = n := by
  induction width generalizing n with
  | zero =>
    have hn : n = 0 := by omega
    exact ⟨rfl, by rw [hn]; rfl⟩
  | succ width ih =>
    obtain ⟨hall, hvalue⟩ := ih (n / 10) (by omega)
    have hdigit := digitChar_toNat (Nat.mod_lt n (show 0 < 10 by decide))
    have hbyte : (UInt8.ofNat (Nat.digitChar (n % 10)).toNat).toNat = 48 + n % 10 := by
      rw [hdigit, UInt8.toNat_ofNat']
      omega
    have happend : asciiBytes (digits (width + 1) n) =
        asciiBytes (digits width (n / 10)) ++ [UInt8.ofNat (Nat.digitChar (n % 10)).toNat] :=
      List.map_append
    rw [happend, List.all_append, hall, digitsValue_concat, hvalue, hbyte]
    constructor
    · rw [List.all_cons, List.all_nil, isAsciiDigit, Bool.true_and, Bool.and_true,
        Bool.and_eq_true, decide_eq_true_eq, decide_eq_true_eq, UInt8.le_iff_toNat_le,
        UInt8.le_iff_toNat_le, hbyte]
      exact ⟨Nat.le_add_right _ _, by show 48 + n % 10 ≤ 57; omega⟩
    · omega

variable {bytes : List UInt8} {i : Nat}

/-- Digits are the digits of a number. -/
theorem exists_digits (h : bytes.all isAsciiDigit = true) :
    ∃ n < 10 ^ bytes.length, bytes = asciiBytes (digits bytes.length n) := by
  induction bytes using List.reverseRecOn with
  | nil => exact ⟨0, Nat.one_pos, rfl⟩
  | append_singleton bytes b ih =>
    rw [List.all_append, Bool.and_eq_true, List.all_cons, List.all_nil, Bool.and_true] at h
    obtain ⟨n, hn, hbytes⟩ := ih h.1
    have hdigit := h.2
    simp only [isAsciiDigit, Bool.and_eq_true, decide_eq_true_eq, UInt8.le_iff_toNat_le] at hdigit
    have hlow : 48 ≤ b.toNat := hdigit.1
    have hhigh : b.toNat ≤ 57 := hdigit.2
    refine ⟨n * 10 + (b.toNat - 48), ?_, ?_⟩
    · rw [List.length_append, List.length_singleton, pow_succ]
      omega
    · rw [List.length_append, List.length_singleton, digits]
      have hfront : (n * 10 + (b.toNat - 48)) / 10 = n := by omega
      have hlast : (n * 10 + (b.toNat - 48)) % 10 = b.toNat - 48 := by omega
      rw [hfront, hlast, asciiBytes, List.map_append, ← asciiBytes, ← hbytes, List.map_singleton,
        digitChar_toNat (by omega), Nat.add_sub_cancel' hlow, UInt8.ofNat_toNat]

theorem digitsAt_eq_some_iff {len : Nat} {n : Int} :
    digitsAt bytes i len = some n ↔
      ∃ k < 10 ^ len, Spelled bytes i (digits len k) ∧ n = (k : Int) := by
  unfold digitsAt Spelled
  dsimp only
  constructor
  · intro h
    split at h
    · rename_i hslice
      cases h
      obtain ⟨k, hk, hbytes⟩ := exists_digits hslice.2
      rw [hslice.1] at hk hbytes
      refine ⟨k, hk, ?_, ?_⟩
      · rw [← hbytes]
        exact List.take_prefix _ _
      · rw [hbytes]
        exact (asciiBytes_digits len k hk).2
    · cases h
  · rintro ⟨k, hk, ⟨rest, hrest⟩, rfl⟩
    have hlength : (asciiBytes (digits len k)).length = len := by
      rw [asciiBytes, List.length_map, length_digits]
    obtain ⟨hall, hvalue⟩ := asciiBytes_digits len k hk
    rw [← hrest, List.take_left' hlength, if_pos ⟨hlength, hall⟩, hvalue]

/-- For ASCII characters. -/
theorem charAt_iff {chars : List Char} (h : ∀ c ∈ chars, c.toNat < 128) :
    charAt bytes i chars = true ↔ ∃ c ∈ chars, Spelled bytes i [c] := by
  unfold charAt Spelled asciiBytes
  rw [← List.head?_drop]
  cases hdrop : bytes.drop i with
  | nil => simp
  | cons b rest =>
    simp only [List.head?_cons, List.any_eq_true, decide_eq_true_eq, List.map_cons, List.map_nil,
      List.cons_prefix_cons, List.nil_prefix, and_true]
    refine exists_congr fun c => and_congr_right fun hc => ?_
    have hlt := h c hc
    rw [← UInt8.toNat_inj, UInt8.toNat_ofNat']
    omega

theorem charAt_spelled {c : Char} (hc : c.toNat < 128) (hspelled : Spelled bytes i [c])
    (chars : List Char) (h : ∀ c ∈ chars, c.toNat < 128) :
    charAt bytes i chars = decide (c ∈ chars) := by
  rw [Bool.eq_iff_iff, charAt_iff h, decide_eq_true_eq]
  constructor
  · rintro ⟨c', hc', rest', hrest'⟩
    obtain ⟨rest, hrest⟩ := hspelled
    rw [← hrest'] at hrest
    have hbyte : UInt8.ofNat c.toNat = UInt8.ofNat c'.toNat := (List.cons.inj hrest).1
    have hsame : c.toNat = c'.toNat := by
      have hnat := congrArg UInt8.toNat hbyte
      have hc' := h c' hc'
      rw [UInt8.toNat_ofNat', UInt8.toNat_ofNat'] at hnat
      omega
    rwa [Char.toNat_inj.mp hsame]
  · intro hmem
    exact ⟨c, hmem, hspelled⟩

/-! ## The grammar -/

inductive Zone where
  /-- `Z` or `z`. -/
  | utc (letter : Char)
  | offset (west : Bool) (hours minutes : Nat)

namespace Zone

def chars : Zone → List Char
  | utc letter => [letter]
  | offset west hours minutes =>
    (if west then '-' else '+') :: (digits 2 hours ++ ':' :: digits 2 minutes)

def Valid : Zone → Prop
  | utc letter => letter ∈ ['Z', 'z']
  | offset _ hours minutes => hours ≤ 23 ∧ minutes ≤ 59

/-- Minutes ahead of UTC. -/
def ahead : Zone → Int
  | utc _ => 0
  | offset west hours minutes =>
    if west then -(hours * 60 + minutes : Int) else hours * 60 + minutes

end Zone

/-- The digits behind the seconds, if there are any. -/
def fractionChars : Option (List Char) → List Char
  | some run => '.' :: run
  | none => []

/-- What an RFC 3339 timestamp says. -/
structure Stamp where
  date : Date
  separator : Char
  hour : Nat
  minute : Nat
  second : Nat
  fraction : Option (List Char)
  zone : Zone

namespace Stamp

def chars (s : Stamp) : List Char :=
  digits 4 s.date.year ++ (['-'] ++ (digits 2 s.date.month ++ (['-'] ++ (digits 2 s.date.day ++
    ([s.separator] ++ (digits 2 s.hour ++ ([':'] ++ (digits 2 s.minute ++ ([':'] ++
      (digits 2 s.second ++ (fractionChars s.fraction ++ s.zone.chars)))))))))))

structure Valid (s : Stamp) : Prop where
  /-- There is such a day in the Gregorian calendar, in the years 1 to 9999. -/
  date : s.date.Valid
  year : 1 ≤ s.date.year ∧ s.date.year ≤ 9999
  separator : s.separator ∈ ['T', 't', ' ']
  time : s.hour ≤ 23 ∧ s.minute ≤ 59 ∧ s.second ≤ 59
  fraction : ∀ run ∈ s.fraction, run ≠ [] ∧ ∀ c ∈ run, c.isDigit = true
  zone : s.zone.Valid

/-- The first day of 1970. -/
def epoch : Date := ⟨1970, 1, 1⟩

/-- Seconds since 1970-01-01T00:00:00Z, of days of 86400 seconds, the fraction
left out. -/
def instant (s : Stamp) : Int :=
  ((s.date.ordinal : Int) - epoch.ordinal) * 86400 + s.hour * 3600 + s.minute * 60 + s.second -
    s.zone.ahead * 60

end Stamp

/-! ## The parser and the grammar -/

theorem offsetAt_eq_some_iff {ahead : Int} {j : Nat} :
    offsetAt bytes i = some (ahead, j) ↔
      ∃ zone : Zone, zone.Valid ∧ Spelled bytes i zone.chars ∧ ahead = zone.ahead ∧
        j = i + zone.chars.length := by
  have hletters : ∀ c ∈ ['Z', 'z'], c.toNat < 128 := by simp
  have hsigns : ∀ c ∈ ['+', '-'], c.toNat < 128 := by simp
  have hminus : ∀ c ∈ ['-'], c.toNat < 128 := by simp
  have hcolon : ∀ c ∈ [':'], c.toNat < 128 := by simp
  unfold offsetAt
  constructor
  · intro h
    split at h
    · rename_i hletter
      obtain ⟨letter, hmem, hspelled⟩ := (charAt_iff hletters).mp hletter
      cases h
      exact ⟨.utc letter, hmem, hspelled, rfl, rfl⟩
    · split at h
      · rename_i hsign
        obtain ⟨sign, hmem, hspelled⟩ := (charAt_iff hsigns).mp hsign
        simp only [Option.bind_eq_bind, Option.bind_eq_some_iff, Option.guard_eq_some'] at h
        obtain ⟨oh, hoh, -, hmark, om, hom, -, hsmall, h⟩ := h
        obtain ⟨hours, -, hhours, rfl⟩ := digitsAt_eq_some_iff.mp hoh
        obtain ⟨minutes, -, hminutes, rfl⟩ := digitsAt_eq_some_iff.mp hom
        obtain ⟨mark, hin, hmark⟩ := (charAt_iff hcolon).mp hmark
        rw [List.mem_singleton] at hin
        subst hin
        rw [charAt_spelled (hsigns sign hmem) hspelled ['-'] hminus] at h
        cases h
        refine ⟨.offset (decide (sign ∈ ['-'])) hours minutes, ?_, ?_, rfl, rfl⟩
        · exact ⟨by omega, by omega⟩
        · have hchars : sign = if decide (sign ∈ ['-']) = true then '-' else '+' := by
            rcases List.mem_cons.mp hmem with rfl | hmem
            · rfl
            · rw [List.mem_singleton.mp hmem]
              rfl
          show Spelled bytes i
            ([if decide (sign ∈ ['-']) = true then '-' else '+'] ++
              (digits 2 hours ++ ([':'] ++ digits 2 minutes)))
          rw [← hchars]
          simp only [spelled_append, length_digits, List.length_singleton]
          exact ⟨hspelled, hhours, hmark, hminutes⟩
      · cases h
  · rintro ⟨zone, hvalid, hspelled, rfl, rfl⟩
    cases zone with
    | utc letter =>
      rw [if_pos ((charAt_iff hletters).mpr ⟨letter, hvalid, hspelled⟩)]
      rfl
    | offset west hours minutes =>
      have hspelled : Spelled bytes i ([if west then '-' else '+'] ++
          (digits 2 hours ++ ([':'] ++ digits 2 minutes))) := hspelled
      simp only [spelled_append, length_digits, List.length_singleton] at hspelled
      obtain ⟨hsign, hhours, hmark, hminutes⟩ := hspelled
      have hascii : (if west then '-' else '+').toNat < 128 := by cases west <;> decide
      rw [charAt_spelled hascii hsign _ hletters, charAt_spelled hascii hsign _ hsigns,
        charAt_spelled hascii hsign _ hminus]
      have hh := digitsAt_eq_some_iff.mpr ⟨hours, by have := hvalid.1; omega, hhours, rfl⟩
      have hm := digitsAt_eq_some_iff.mpr ⟨minutes, by have := hvalid.2; omega, hminutes, rfl⟩
      have hm' : digitsAt bytes (i + 4) 2 = some (minutes : Int) := hm
      have hc := charAt_iff hcolon |>.mpr ⟨':', List.mem_singleton.mpr rfl, hmark⟩
      have hc' : charAt bytes (i + 3) [':'] = true := hc
      rw [hh, hm', hc']
      have hlimits : hours ≤ 23 ∧ minutes ≤ 59 := hvalid
      cases west <;> simp [Zone.ahead, Zone.chars, hlimits, guard]

variable {zone : Zone}

theorem Zone.Valid.exists_head (h : zone.Valid) :
    ∃ c rest, zone.chars = c :: rest ∧ c ∈ ['Z', 'z', '+', '-'] := by
  cases zone with
  | utc letter =>
    refine ⟨letter, [], rfl, ?_⟩
    rcases List.mem_cons.mp h with rfl | h
    · decide
    · rw [List.mem_singleton.mp h]
      decide
  | offset west hours minutes =>
    refine ⟨_, _, rfl, ?_⟩
    cases west <;> decide

theorem isAsciiDigit_ofNat {c : Char} (h : c.toNat < 128) :
    isAsciiDigit (UInt8.ofNat c.toNat) = c.isDigit := by
  rw [Bool.eq_iff_iff, isAsciiDigit, Bool.and_eq_true, decide_eq_true_eq, decide_eq_true_eq,
    UInt8.le_iff_toNat_le, UInt8.le_iff_toNat_le, UInt8.toNat_ofNat',
    Nat.mod_eq_of_lt (show c.toNat < 2 ^ 8 by omega), Char.isDigit, Bool.and_eq_true,
    decide_eq_true_eq, decide_eq_true_eq, ge_iff_le, UInt32.le_iff_toNat_le,
    UInt32.le_iff_toNat_le]
  rfl

theorem fractionEnd_eq_some {j : Nat} (h : fractionEnd bytes = some j) :
    ∃ fraction, (∀ run ∈ fraction, run ≠ [] ∧ ∀ c ∈ run, c.isDigit = true) ∧
      Spelled bytes 19 (fractionChars fraction) ∧ j = 19 + (fractionChars fraction).length := by
  have hdot : ∀ c ∈ ['.'], c.toNat < 128 := by simp
  unfold fractionEnd at h
  split at h
  · rename_i hpoint
    obtain ⟨point, hin, hspelled⟩ := (charAt_iff hdot).mp hpoint
    rw [List.mem_singleton] at hin
    subst hin
    dsimp only at h
    split at h
    · cases h
    · rename_i hrun
      cases h
      generalize htaken : (bytes.drop 20).takeWhile isAsciiDigit = taken at hrun
      have hdigits : ∀ b ∈ taken, isAsciiDigit b = true := by
        intro b hb
        rw [← htaken] at hb
        exact List.mem_takeWhile_imp hb
      have hbytes : asciiBytes (taken.map Char.ofUInt8) = taken := by
        rw [asciiBytes, List.map_map]
        conv_rhs => rw [← List.map_id taken]
        exact List.map_congr_left fun b _ => UInt8.ofNat_toNat
      refine ⟨some (taken.map Char.ofUInt8), ?_, ?_, ?_⟩
      · intro run hrun'
        cases hrun'
        refine ⟨fun hnil => hrun (by rw [List.map_eq_nil_iff.mp hnil]; rfl), fun c hc => ?_⟩
        obtain ⟨b, hb, rfl⟩ := List.mem_map.mp hc
        have hdigit := hdigits b hb
        have hlt : (Char.ofUInt8 b).toNat < 128 := by
          simp only [isAsciiDigit, Bool.and_eq_true, decide_eq_true_eq,
            UInt8.le_iff_toNat_le] at hdigit
          have hhigh : b.toNat ≤ 57 := hdigit.2
          show b.toNat < 128
          omega
        rw [← isAsciiDigit_ofNat hlt]
        rwa [show UInt8.ofNat (Char.ofUInt8 b).toNat = b from UInt8.ofNat_toNat]
      · show Spelled bytes 19 (['.'] ++ taken.map Char.ofUInt8)
        rw [spelled_append]
        refine ⟨hspelled, ?_⟩
        show asciiBytes (taken.map Char.ofUInt8) <+: bytes.drop 20
        rw [hbytes, ← htaken]
        exact List.takeWhile_prefix _
      · show 20 + taken.length = 19 + ((taken.map Char.ofUInt8).length + 1)
        rw [List.length_map]
        omega
  · cases h
    exact ⟨none, by simp, List.nil_prefix, rfl⟩

/-- What follows the seconds is told from the digits of the fraction. -/
theorem fractionEnd_spelled {fraction : Option (List Char)}
    (hfraction : ∀ run ∈ fraction, run ≠ [] ∧ ∀ c ∈ run, c.isDigit = true) (hzone : zone.Valid)
    (hspelled : Spelled bytes 19 (fractionChars fraction))
    (hafter : Spelled bytes (19 + (fractionChars fraction).length) zone.chars) :
    fractionEnd bytes = some (19 + (fractionChars fraction).length) := by
  have hdot : ∀ c ∈ ['.'], c.toNat < 128 := by simp
  obtain ⟨mark, rest, hchars, hmark⟩ := hzone.exists_head
  have hmarks : ∀ c ∈ ['Z', 'z', '+', '-'], c.toNat < 128 ∧ c.isDigit = false ∧ c ≠ '.' := by
    simp
  obtain ⟨hascii, hnodigit, hnodot⟩ := hmarks mark hmark
  rw [hchars] at hafter
  unfold fractionEnd
  cases fraction with
  | none =>
    have hmarkAt : Spelled bytes 19 [mark] := (@spelled_append bytes 19 [mark] rest).mp hafter |>.1
    rw [charAt_spelled hascii hmarkAt ['.'] hdot, if_neg (by simpa using hnodot)]
    rfl
  | some run =>
    obtain ⟨hne, hrun⟩ := hfraction run rfl
    have hboth : Spelled bytes 19 (['.'] ++ run) := hspelled
    rw [spelled_append] at hboth
    obtain ⟨hpoint, hdigits⟩ := hboth
    have hpointAt := (charAt_iff hdot).mpr ⟨'.', List.mem_singleton.mpr rfl, hpoint⟩
    rw [if_pos hpointAt]
    have hall : Spelled bytes 20 (run ++ (mark :: rest)) := by
      rw [spelled_append]
      refine ⟨hdigits, ?_⟩
      have hlength : 19 + (fractionChars (some run)).length = 20 + run.length := by
        show 19 + (run.length + 1) = 20 + run.length
        omega
      rwa [hlength] at hafter
    obtain ⟨tail, htail⟩ := hall
    have htaken : ((bytes.drop 20).takeWhile isAsciiDigit).length = run.length := by
      rw [← htail, asciiBytes, List.map_append, List.append_assoc, List.takeWhile_append_of_pos]
      · rw [List.map_cons, List.cons_append, List.takeWhile_cons, isAsciiDigit_ofNat hascii,
          hnodigit]
        simp
      · intro b hb
        obtain ⟨c, hc, rfl⟩ := List.mem_map.mp hb
        rw [isAsciiDigit_ofNat (Cursor.isDigit_ascii c (hrun c hc))]
        exact hrun c hc
    dsimp only
    rw [htaken, if_neg (by simpa using hne)]
    show some (20 + run.length) = some (19 + (run.length + 1))
    congr 1
    omega

theorem isLeap_iff (year : Nat) : isLeap year = true ↔ IsLeap year := by
  unfold isLeap IsLeap
  simp only [Bool.or_eq_true, Bool.and_eq_true, decide_eq_true_eq]
  omega

theorem daysInMonth_eq {year month : Nat} (hlow : 1 ≤ month) (hhigh : month ≤ 12) :
    daysInMonth year month = monthLength year month := by
  unfold daysInMonth
  simp only [isLeap_iff]
  interval_cases month <;> simp [monthLength]

/-- The days of a date of the calendar are counted from 1970-01-01. -/
theorem daysFromCivil_date {d : Date} (h : d.Valid) :
    daysFromCivil d.year d.month d.day = d.ordinal - 719528 := by
  have hordinal := toInt_ordinal h
  have hlow := h.1
  unfold daysFromCivil
  unfold marchYear monthFromMarch at hordinal
  dsimp only
  by_cases hearly : d.month ≤ 2
  · have hlate : ¬2 < d.month := by omega
    simp only [if_pos hearly, if_neg hlate] at hordinal
    rw [if_pos (by omega), if_neg (by omega)]
    omega
  · have hlate : 2 < d.month := by omega
    simp only [if_neg hearly, if_pos hlate] at hordinal
    rw [if_neg (by omega), if_pos (by omega)]
    omega

theorem ordinal_epoch : Stamp.epoch.ordinal = 719528 := by decide +kernel

theorem Stamp.Valid.instant_eq {s : Stamp} (h : s.Valid) :
    s.instant = daysFromCivil s.date.year s.date.month s.date.day * 86400 + s.hour * 3600 +
      s.minute * 60 + s.second - s.zone.ahead * 60 := by
  have hepoch := ordinal_epoch
  rw [daysFromCivil_date h.date]
  unfold Stamp.instant
  generalize Stamp.epoch.ordinal = day at *
  omega

theorem toUTF8_toList (text : String) : text.toUTF8.toList = utf8 text.toList := by
  have hloop : ∀ (b : ByteArray) (i : Nat) (taken : List UInt8),
      ByteArray.toList.loop b i taken = taken.reverse ++ b.data.toList.drop i := by
    intro b i taken
    fun_induction ByteArray.toList.loop b i taken with
    | case1 i taken hi ih =>
      have hlt : i < b.data.toList.length := by simpa using hi
      have hbyte : b.get! i = b.data.toList[i] := by
        show b.data[i]! = b.data.toList[i]
        rw [getElem!_pos b.data i hi, Array.getElem_toList]
      rw [ih, List.drop_eq_getElem_cons hlt, List.reverse_cons, List.append_assoc,
        List.singleton_append, hbyte]
    | case2 i taken hi =>
      rw [List.drop_eq_nil_of_le (by simpa using hi), List.append_nil]
  show ByteArray.toList.loop text.toUTF8 0 [] = utf8 text.toList
  rw [hloop]
  exact Cursor.bytes_eq ⟨text, 0⟩

theorem utf8_ascii {chars : List Char} (h : ∀ c ∈ chars, c.toNat < 128) :
    utf8 chars = asciiBytes chars := by
  induction chars with
  | nil => rfl
  | cons c chars ih =>
    rw [utf8_cons, utf8EncodeChar_ascii (h c List.mem_cons_self),
      ih fun c' hc' => h c' (List.mem_cons_of_mem _ hc')]
    rfl

/-- A text whose bytes are those of ASCII characters has these characters. -/
theorem bytes_eq_asciiBytes {text : String} {chars : List Char} (h : ∀ c ∈ chars, c.toNat < 128) :
    text.toUTF8.toList = asciiBytes chars ↔ text = String.ofList chars := by
  constructor
  · intro hbytes
    rw [← utf8_ascii h, toUTF8_toList] at hbytes
    apply String.toByteArray_inj.mp
    apply ByteArray.ext
    apply Array.toList_inj.mp
    have htext := Cursor.bytes_eq ⟨text, 0⟩
    have hchars := Cursor.bytes_eq ⟨String.ofList chars, 0⟩
    rw [String.toList_ofList] at hchars
    exact htext.trans (hbytes.trans hchars.symm)
  · rintro rfl
    rw [toUTF8_toList, String.toList_ofList, utf8_ascii h]

theorem spelled_zero {chars : List Char} :
    bytes = asciiBytes chars ↔ Spelled bytes 0 chars ∧ chars.length = bytes.length := by
  have hlength : (asciiBytes chars).length = chars.length := List.length_map _
  unfold Spelled
  rw [List.drop_zero]
  constructor
  · rintro rfl
    exact ⟨List.prefix_rfl, hlength.symm⟩
  · rintro ⟨hstarts, hall⟩
    exact (hstarts.eq_of_length (hlength.trans hall)).symm

theorem digits_ascii (width n : Nat) : ∀ c ∈ digits width n, c.toNat < 128 := by
  induction width generalizing n with
  | zero => nofun
  | succ width ih =>
    intro c hc
    rcases List.mem_append.mp hc with hc | hc
    · exact ih _ c hc
    · rw [List.mem_singleton.mp hc, digitChar_toNat (Nat.mod_lt n (by decide))]
      omega

theorem Zone.Valid.ascii (h : zone.Valid) : ∀ c ∈ zone.chars, c.toNat < 128 := by
  intro c hc
  cases zone with
  | utc letter =>
    rw [List.mem_singleton.mp hc]
    rcases List.mem_cons.mp h with rfl | h
    · decide
    · rw [List.mem_singleton.mp h]
      decide
  | offset west hours minutes =>
    rcases List.mem_cons.mp hc with rfl | hc
    · cases west <;> decide
    · rcases List.mem_append.mp hc with hc | hc
      · exact digits_ascii _ _ c hc
      · rcases List.mem_cons.mp hc with rfl | hc
        · decide
        · exact digits_ascii _ _ c hc

theorem Stamp.Valid.ascii {s : Stamp} (h : s.Valid) : ∀ c ∈ s.chars, c.toNat < 128 := by
  have hmark (mark : Char) (hlt : mark.toNat < 128) : ∀ c ∈ [mark], c.toNat < 128 :=
    fun c hc => by rwa [List.mem_singleton.mp hc]
  have hseparator : s.separator.toNat < 128 := by
    have hall : ∀ c ∈ ['T', 't', ' '], c.toNat < 128 := by simp
    exact hall _ h.separator
  have hfraction : ∀ c ∈ fractionChars s.fraction, c.toNat < 128 := by
    intro c hc
    cases hf : s.fraction with
    | none => rw [hf] at hc; cases hc
    | some run =>
      rw [hf] at hc
      rcases List.mem_cons.mp hc with rfl | hc
      · decide
      · exact Cursor.isDigit_ascii c ((h.fraction run hf).2 c hc)
  unfold Stamp.chars
  simp only [List.forall_mem_append]
  exact ⟨digits_ascii _ _, hmark _ (by decide), digits_ascii _ _, hmark _ (by decide),
    digits_ascii _ _, hmark _ hseparator, digits_ascii _ _, hmark _ (by decide), digits_ascii _ _,
    hmark _ (by decide), digits_ascii _ _, hfraction, h.zone.ascii⟩

theorem Stamp.length_chars (s : Stamp) :
    s.chars.length = 19 + (fractionChars s.fraction).length + s.zone.chars.length := by
  unfold Stamp.chars
  simp only [List.length_append, length_digits, List.length_singleton]
  omega

/-- The parser accepts the spellings of the grammar, each with its instant. -/
theorem parseRfc3339_eq_some_iff {text : String} {seconds : Int} :
    parseRfc3339 text = some seconds ↔
      ∃ stamp : Stamp, stamp.Valid ∧ text = String.ofList stamp.chars ∧
        seconds = stamp.instant := by
  have hdash : ∀ c ∈ ['-'], c.toNat < 128 := by simp
  have hcolon : ∀ c ∈ [':'], c.toNat < 128 := by simp
  have hseparators : ∀ c ∈ ['T', 't', ' '], c.toNat < 128 := by simp
  constructor
  · intro h
    unfold parseRfc3339 at h
    simp only [Option.bind_eq_bind, Option.bind_eq_some_iff, Option.guard_eq_some'] at h
    obtain ⟨-, -, year, hyearAt, -, hdash4, month, hmonthAt, -, hdash7, day, hdayAt, -,
      hseparatorAt, hour, hhourAt, -, hcolon13, minute, hminuteAt, -, hcolon16, second, hsecondAt,
      i, hfractionAt, p, hzoneAt, -, hend, -, hdate, -, hlength, -, htime, h⟩ := h
    obtain ⟨year, -, hyear, rfl⟩ := digitsAt_eq_some_iff.mp hyearAt
    obtain ⟨month, -, hmonth, rfl⟩ := digitsAt_eq_some_iff.mp hmonthAt
    obtain ⟨day, -, hday, rfl⟩ := digitsAt_eq_some_iff.mp hdayAt
    obtain ⟨hour, -, hhour, rfl⟩ := digitsAt_eq_some_iff.mp hhourAt
    obtain ⟨minute, -, hminute, rfl⟩ := digitsAt_eq_some_iff.mp hminuteAt
    obtain ⟨second, -, hsecond, rfl⟩ := digitsAt_eq_some_iff.mp hsecondAt
    have hmark {i : Nat} {c : Char} (hall : ∀ c' ∈ [c], c'.toNat < 128)
        (hat : charAt text.toUTF8.toList i [c] = true) : Spelled text.toUTF8.toList i [c] := by
      obtain ⟨c', hin, hspelled⟩ := (charAt_iff hall).mp hat
      rwa [List.mem_singleton.mp hin] at hspelled
    obtain ⟨separator, hin, hseparator⟩ := (charAt_iff hseparators).mp hseparatorAt
    obtain ⟨fraction, hrun, hfraction, rfl⟩ := fractionEnd_eq_some hfractionAt
    obtain ⟨ahead, j⟩ := p
    obtain ⟨zone, hvalid, hzone, rfl, rfl⟩ := offsetAt_eq_some_iff.mp hzoneAt
    rw [daysInMonth_eq (by omega) (by omega)] at hlength
    let stamp : Stamp := ⟨⟨year, month, day⟩, separator, hour, minute, second, fraction, zone⟩
    have hstamp : stamp.Valid :=
      { date := ⟨by show 1 ≤ month; omega, by show month ≤ 12; omega, by show 1 ≤ day; omega,
          by show day ≤ monthLength year month; omega⟩
        year := ⟨by show 1 ≤ year; omega, by show year ≤ 9999; omega⟩
        separator := hin
        time := ⟨by show hour ≤ 23; omega, by show minute ≤ 59; omega, by show second ≤ 59; omega⟩
        fraction := hrun
        zone := hvalid }
    have hspelled : Spelled text.toUTF8.toList 0 stamp.chars := by
      simp only [Stamp.chars, spelled_append, length_digits, List.length_singleton]
      exact ⟨hyear, hmark hdash hdash4, hmonth, hmark hdash hdash7, hday, hseparator, hhour,
        hmark hcolon hcolon13, hminute, hmark hcolon hcolon16, hsecond, hfraction, hzone⟩
    have hbytes := spelled_zero.mpr ⟨hspelled, stamp.length_chars.trans hend⟩
    refine ⟨stamp, hstamp, (bytes_eq_asciiBytes hstamp.ascii).mp hbytes, ?_⟩
    rw [hstamp.instant_eq]
    exact (Option.some.inj h).symm
  · rintro ⟨stamp, hstamp, htext, hseconds⟩
    obtain ⟨hspelled, hend⟩ := spelled_zero.mp ((bytes_eq_asciiBytes hstamp.ascii).mpr htext)
    rw [stamp.length_chars] at hend
    simp only [Stamp.chars, spelled_append, length_digits, List.length_singleton, Nat.zero_add,
      Nat.reduceAdd] at hspelled
    obtain ⟨hyear, hdash4, hmonth, hdash7, hday, hseparator, hhour, hcolon13, hminute, hcolon16,
      hsecond, hfraction, hzone⟩ := hspelled
    have hdate := hstamp.date
    have hyears := hstamp.year
    have htime := hstamp.time
    have hmonthLength := monthLength_le stamp.date.year stamp.date.month
    have hdays := @daysInMonth_eq stamp.date.year stamp.date.month hdate.1 hdate.2.1
    rw [hseconds, hstamp.instant_eq, parseRfc3339]
    simp only [Option.bind_eq_bind, Option.bind_eq_some_iff, Option.guard_eq_some']
    have hmark {i : Nat} {c : Char} (hall : ∀ c' ∈ [c], c'.toNat < 128)
        (hat : Spelled text.toUTF8.toList i [c]) : charAt text.toUTF8.toList i [c] = true :=
      (charAt_iff hall).mpr ⟨c, List.mem_singleton.mpr rfl, hat⟩
    refine ⟨(), by omega, _, digitsAt_eq_some_iff.mpr ⟨_, by omega, hyear, rfl⟩, (),
      hmark hdash hdash4, _, digitsAt_eq_some_iff.mpr ⟨_, ?_, hmonth, rfl⟩, (),
      hmark hdash hdash7, _, digitsAt_eq_some_iff.mpr ⟨_, ?_, hday, rfl⟩, (),
      (charAt_iff hseparators).mpr ⟨_, hstamp.separator, hseparator⟩, _,
      digitsAt_eq_some_iff.mpr ⟨_, ?_, hhour, rfl⟩, (), hmark hcolon hcolon13, _,
      digitsAt_eq_some_iff.mpr ⟨_, ?_, hminute, rfl⟩, (), hmark hcolon hcolon16, _,
      digitsAt_eq_some_iff.mpr ⟨_, ?_, hsecond, rfl⟩, _,
      fractionEnd_spelled hstamp.fraction hstamp.zone hfraction hzone, _,
      offsetAt_eq_some_iff.mpr ⟨_, hstamp.zone, hzone, rfl, rfl⟩, (), hend, (), ?_, (), ?_, (),
      ?_, rfl⟩
    · have hlast : stamp.date.month ≤ 12 := hdate.2.1
      omega
    · have hlast : stamp.date.day ≤ monthLength stamp.date.year stamp.date.month := hdate.2.2.2
      omega
    · omega
    · omega
    · omega
    · have hlow : 1 ≤ stamp.date.month := hdate.1
      have hlast : stamp.date.month ≤ 12 := hdate.2.1
      have hday : 1 ≤ stamp.date.day := hdate.2.2.1
      omega
    · rw [hdays]
      exact Nat.cast_le.mpr hdate.2.2.2
    · omega

end Cairn.Ports
