import Cairn.Ports.Stamp
import Cairn.Verified.Abort

/-!
# Timestamps, written and read

`src/time.rs` as it runs: overflow checks are on, so an `i64` result that does
not fit is a panic, and a slice of the text is taken by byte positions, none
off a character boundary.
-/

namespace Cairn.Ports.Time

open Cairn.Verified
open Cairn.Verified.Calendar
open Cairn.Ports.Canonical

/-- An `i64` result. One out of range is a panic. -/
def i64 (n : Int) : Except (Abort Unit) Int :=
  if -2 ^ 63 ≤ n ∧ n < 2 ^ 63 then .ok n else .error .panic

theorem i64_bind {α : Type} {n : Int} (hlow : -2 ^ 63 ≤ n) (hhigh : n < 2 ^ 63)
    (f : Int → Except (Abort Unit) α) : (i64 n >>= f) = f n := by
  rw [i64, if_pos ⟨hlow, hhigh⟩]
  rfl

theorem ok_bind {α β : Type} (a : α) (f : α → Except (Abort Unit) β) :
    (Except.ok a >>= f) = f a := rfl

/-! ## Days and dates -/

/-- `/` rounds towards zero; `div_euclid` and `rem_euclid` are the division of `Int`. -/
def daysFromCivil (year month day : Int) : Except (Abort Unit) Int := do
  let year ← if month ≤ 2 then i64 (year - 1) else .ok year
  let era := year / 400
  let eraYears ← i64 (era * 400)
  let yearOfEra ← i64 (year - eraYears)
  let monthPrime ← if month > 2 then i64 (month - 3) else i64 (month + 9)
  let monthDays ← i64 (153 * monthPrime)
  let monthDays ← i64 (monthDays + 2)
  let dayOfYear ← i64 (monthDays.tdiv 5 + day)
  let dayOfYear ← i64 (dayOfYear - 1)
  let yearDays ← i64 (yearOfEra * 365)
  let yearDays ← i64 (yearDays + yearOfEra.tdiv 4)
  let yearDays ← i64 (yearDays - yearOfEra.tdiv 100)
  let dayOfEra ← i64 (yearDays + dayOfYear)
  let eraDays ← i64 (era * 146097)
  let days ← i64 (eraDays + dayOfEra)
  i64 (days - 719468)

def civilFromDays (days : Int) : Except (Abort Unit) (Int × Int × Int) := do
  let shifted ← i64 (days + 719468)
  let era := shifted / 146097
  let dayOfEra := shifted % 146097
  let scaled ← i64 (dayOfEra - dayOfEra.tdiv 1460)
  let scaled ← i64 (scaled + dayOfEra.tdiv 36524)
  let scaled ← i64 (scaled - dayOfEra.tdiv 146096)
  let yearOfEra := scaled.tdiv 365
  let eraYears ← i64 (era * 400)
  let year ← i64 (yearOfEra + eraYears)
  let yearDays ← i64 (365 * yearOfEra)
  let yearDays ← i64 (yearDays + yearOfEra.tdiv 4)
  let yearDays ← i64 (yearDays - yearOfEra.tdiv 100)
  let dayOfYear ← i64 (dayOfEra - yearDays)
  let months ← i64 (5 * dayOfYear)
  let months ← i64 (months + 2)
  let monthPrime := months.tdiv 153
  let monthDays ← i64 (153 * monthPrime)
  let monthDays ← i64 (monthDays + 2)
  let day ← i64 (dayOfYear - monthDays.tdiv 5)
  let day ← i64 (day + 1)
  let month ← if monthPrime < 10 then i64 (monthPrime + 3) else i64 (monthPrime - 9)
  let year ← if month ≤ 2 then i64 (year + 1) else .ok year
  .ok (year, month, day)

theorem daysFromCivil_eq {year month day : Int} (hyear : 1 ≤ year ∧ year ≤ 9999)
    (hmonth : 1 ≤ month ∧ month ≤ 12) (hday : 1 ≤ day ∧ day ≤ 31) :
    daysFromCivil year month day = .ok (Ports.daysFromCivil year month day) := by
  have htdiv (a b : Int) (h : 0 ≤ a) : a.tdiv b = a / b := Int.tdiv_eq_ediv_of_nonneg h
  unfold daysFromCivil Ports.daysFromCivil
  by_cases hearly : month ≤ 2
  · have hlate : ¬month > 2 := by omega
    simp only [if_pos hearly, if_neg hlate]
    simp (disch := omega) only [i64_bind, htdiv]
    rw [i64, if_pos (by omega)]
  · have hlate : month > 2 := by omega
    simp only [if_neg hearly, if_pos hlate]
    simp (disch := omega) only [ok_bind, i64_bind, htdiv]
    rw [i64, if_pos (by omega)]

/-- From 0001-01-01 to 9999-12-31, a day has the date that is that day. -/
theorem civilFromDays_eq {days : Int} (hlow : -719162 ≤ days) (hhigh : days ≤ 2932896) :
    civilFromDays days =
      let date := dateOfDay (days + 719468).toNat
      .ok (date.year, date.month, date.day) := by
  have htdiv (a b : Int) (h : 0 ≤ a) : a.tdiv b = a / b := Int.tdiv_eq_ediv_of_nonneg h
  obtain ⟨n, hn⟩ : ∃ n : Nat, days + 719468 = n := ⟨(days + 719468).toNat, by omega⟩
  have hday : n % 146097 < 146097 := Nat.mod_lt n (by decide)
  have hyear := yearOfEra_lt hday
  have hstart := eraStart_yearOfEra_le (n % 146097) hday
  have hrest := yearDay_lt (n / 146097) hday
  have hscaled : ((n % 146097 : Nat) - (n % 146097 : Nat) / 1460 + (n % 146097 : Nat) / 36524 -
      (n % 146097 : Nat) / 146096 : Int) / 365 = yearOfEra (n % 146097) := by
    unfold yearOfEra leapless
    omega
  have hera : (n : Int) / 146097 = (n / 146097 : Nat) := by omega
  have hrem : (n : Int) % 146097 = (n % 146097 : Nat) := by omega
  have hlast : n / 146097 ≤ 24 := by omega
  unfold civilFromDays dateOfDay
  rw [i64_bind (by omega) (by omega), hn, Int.toNat_natCast]
  dsimp only
  rw [hera, hrem]
  generalize n / 146097 = era at *
  generalize n % 146097 = r at *
  clear hn hera hrem hlow hhigh
  simp (disch := omega) only [htdiv, i64_bind, hscaled]
  clear hscaled
  generalize yearOfEra r = year at *
  have hyearDay : (r : Int) - (365 * year + year / 4 - year / 100) = (r - eraStart year : Nat) := by
    unfold eraStart at hstart ⊢
    omega
  rw [hyearDay]
  generalize r - eraStart year = day at *
  have hmonth : (5 * (day : Int) + 2).tdiv 153 = ((5 * day + 2) / 153 : Nat) := by
    rw [htdiv _ _ (by omega)]
    omega
  have hlate : (5 * day + 2) / 153 ≤ 11 := by omega
  have hmonthDays : (153 * ((5 * day + 2) / 153) + 2) / 5 ≤ day := by omega
  rw [hmonth]
  unfold dateOfMarch
  dsimp only
  generalize (5 * day + 2) / 153 = month at *
  clear hmonth hyearDay hstart
  simp (disch := omega) only [htdiv, i64_bind, ok_bind]
  by_cases hten : month < 10
  · simp only [if_pos hten]
    rw [if_pos (by omega), if_neg (by omega)]
    congr 3 <;> omega
  · simp only [if_neg hten]
    rw [if_neg (by omega), if_pos (by omega)]
    congr 3 <;> omega

/-! ## Writing -/

/-- 0001-01-01T00:00:00Z. -/
def MIN_SECONDS : Int := -62135596800

/-- 9999-12-31T23:59:59Z. -/
def MAX_SECONDS : Int := 253402300799

def SECONDS_PER_DAY : Int := 86400

def clamp (n low high : Int) : Int := if n < low then low else if n > high then high else n

/-- `{n:0width}`: zeros behind the sign. -/
def padded (width : Nat) (n : Int) : List Char :=
  if n < 0 then '-' :: (Nat.toDigits 10 n.natAbs).leftpad (width - 1) '0'
  else (Nat.toDigits 10 n.natAbs).leftpad width '0'

def formatIso8601Utc (unixSeconds : Int64) : Except (Abort Unit) String := do
  let unixSeconds := clamp unixSeconds.toInt MIN_SECONDS MAX_SECONDS
  let days := unixSeconds / SECONDS_PER_DAY
  let secondOfDay := unixSeconds % SECONDS_PER_DAY
  let (year, month, day) ← civilFromDays days
  let hour := secondOfDay.tdiv 3600
  let minute := (secondOfDay.tmod 3600).tdiv 60
  let second := secondOfDay.tmod 60
  .ok (String.ofList (padded 4 year ++ ['-'] ++ padded 2 month ++ ['-'] ++ padded 2 day ++ ['T'] ++
    padded 2 hour ++ [':'] ++ padded 2 minute ++ [':'] ++ padded 2 second ++ "+00:00".toList))

theorem leftpad_toDigits (width n : Nat) (h : n < 10 ^ width) (hwidth : 0 < width) :
    (Nat.toDigits 10 n).leftpad width '0' = digits width n := by
  induction width generalizing n with
  | zero => cases hwidth
  | succ width ih =>
    rw [digits]
    by_cases hsmall : n < 10
    · rw [Nat.toDigits_of_lt_base hsmall, Nat.div_eq_of_lt hsmall, Nat.mod_eq_of_lt hsmall]
      have hzeros : ∀ width, digits width 0 = List.replicate width '0' := by
        intro width
        induction width with
        | zero => rfl
        | succ width ih => rw [digits, ih, List.replicate_succ']; rfl
      rw [hzeros, List.leftpad, List.length_singleton, Nat.add_sub_cancel]
    · have hpos : 0 < width := by
        rcases Nat.eq_zero_or_pos width with rfl | hpos
        · omega
        · exact hpos
      rw [Nat.toDigits_of_base_le (by decide) (by omega), ← ih (n / 10) (by omega) hpos,
        List.leftpad, List.leftpad, List.length_append, List.length_singleton,
        Nat.add_sub_add_right, List.append_assoc]

theorem padded_eq (width n : Nat) (h : n < 10 ^ width) (hwidth : 0 < width) :
    padded width n = digits width n := by
  rw [padded, if_neg (by omega), Int.natAbs_natCast]
  exact leftpad_toDigits width n h hwidth

/-- What is written for an instant. -/
def stampOf (seconds : Int) : Stamp :=
  { date := dateOfDay (seconds / 86400 + 719468).toNat
    separator := 'T'
    hour := (seconds % 86400).toNat / 3600
    minute := (seconds % 86400).toNat % 3600 / 60
    second := (seconds % 86400).toNat % 60
    fraction := none
    zone := .offset false 0 0 }

theorem clamp_bounds (n : Int) :
    MIN_SECONDS ≤ clamp n MIN_SECONDS MAX_SECONDS ∧ clamp n MIN_SECONDS MAX_SECONDS ≤ MAX_SECONDS := by
  unfold clamp MIN_SECONDS MAX_SECONDS
  split_ifs <;> omega

theorem year_bounds {d : Date} (h : d.Valid) (hlow : 366 ≤ d.ordinal) (hhigh : d.ordinal ≤ 3652424) :
    1 ≤ d.year ∧ d.year ≤ 9999 := by
  have hordinal := toInt_ordinal h
  have hday : 1 ≤ d.day := h.2.2.1
  have hlast : d.day ≤ 31 := h.2.2.2.trans (monthLength_le d.year d.month)
  have hmonth : 1 ≤ d.month ∧ d.month ≤ 12 := ⟨h.1, h.2.1⟩
  unfold marchYear monthFromMarch at hordinal
  by_cases hearly : d.month ≤ 2
  · have hlate : ¬2 < d.month := by omega
    simp only [if_pos hearly, if_neg hlate] at hordinal
    omega
  · have hlate : 2 < d.month := by omega
    simp only [if_neg hearly, if_pos hlate] at hordinal
    omega

theorem stampOf_valid {seconds : Int} (hlow : MIN_SECONDS ≤ seconds) (hhigh : seconds ≤ MAX_SECONDS) :
    (stampOf seconds).Valid := by
  unfold MIN_SECONDS at hlow
  unfold MAX_SECONDS at hhigh
  have hdate := valid_dateOfDay (seconds / 86400 + 719468).toNat
  have hordinal := ordinal_dateOfDay (seconds / 86400 + 719468).toNat
  have hyear := year_bounds hdate (by omega) (by omega)
  exact
    { date := hdate
      year := hyear
      separator := List.mem_cons_self
      time := ⟨by show (seconds % 86400).toNat / 3600 ≤ 23; omega,
        by show (seconds % 86400).toNat % 3600 / 60 ≤ 59; omega,
        by show (seconds % 86400).toNat % 60 ≤ 59; omega⟩
      fraction := nofun
      zone := ⟨Nat.zero_le 23, Nat.zero_le 59⟩ }

theorem instant_stampOf {seconds : Int} (hlow : MIN_SECONDS ≤ seconds) :
    (stampOf seconds).instant = seconds := by
  unfold MIN_SECONDS at hlow
  have hordinal := ordinal_dateOfDay (seconds / 86400 + 719468).toNat
  have hepoch := ordinal_epoch
  have hdays : ((dateOfDay (seconds / 86400 + 719468).toNat).ordinal : Int) - Stamp.epoch.ordinal =
      seconds / 86400 := by omega
  show ((dateOfDay (seconds / 86400 + 719468).toNat).ordinal - Stamp.epoch.ordinal : Int) * 86400 +
    ((seconds % 86400).toNat / 3600 : Nat) * 3600 +
    ((seconds % 86400).toNat % 3600 / 60 : Nat) * 60 + ((seconds % 86400).toNat % 60 : Nat) -
    0 * 60 = seconds
  rw [hdays]
  omega

/-- What is written is the stamp of the instant, brought into range. -/
theorem formatIso8601Utc_eq (s : Int64) :
    formatIso8601Utc s =
      .ok (String.ofList (stampOf (clamp s.toInt MIN_SECONDS MAX_SECONDS)).chars) := by
  obtain ⟨hlow, hhigh⟩ := clamp_bounds s.toInt
  unfold formatIso8601Utc
  generalize clamp s.toInt MIN_SECONDS MAX_SECONDS = seconds at hlow hhigh ⊢
  have hvalid := stampOf_valid hlow hhigh
  unfold MIN_SECONDS at hlow
  unfold MAX_SECONDS at hhigh
  unfold SECONDS_PER_DAY
  obtain ⟨ofDay, hofDay⟩ : ∃ n : Nat, seconds % 86400 = n := ⟨(seconds % 86400).toNat, by omega⟩
  have hdate := hvalid.date
  have hyear : (dateOfDay (seconds / 86400 + 719468).toNat).year ≤ 9999 := hvalid.year.2
  have hmonth : (dateOfDay (seconds / 86400 + 719468).toNat).month ≤ 12 := hdate.2.1
  have hday : (dateOfDay (seconds / 86400 + 719468).toNat).day ≤ 31 :=
    hdate.2.2.2.trans (monthLength_le _ _)
  have hhour : (ofDay : Int).tdiv 3600 = (ofDay / 3600 : Nat) := rfl
  have hminute : ((ofDay : Int).tmod 3600).tdiv 60 = (ofDay % 3600 / 60 : Nat) := rfl
  have hsecond : (ofDay : Int).tmod 60 = (ofDay % 60 : Nat) := rfl
  unfold stampOf Stamp.chars
  dsimp only
  rw [civilFromDays_eq (by omega) (by omega), ok_bind, hofDay, Int.toNat_natCast]
  dsimp only
  rw [hhour, hminute, hsecond, padded_eq 4 _ (by omega) (by decide),
    padded_eq 2 _ (by omega) (by decide), padded_eq 2 _ (by omega) (by decide),
    padded_eq 2 _ (by omega) (by decide), padded_eq 2 _ (by omega) (by decide),
    padded_eq 2 _ (by omega) (by decide)]
  simp only [List.append_assoc]
  rfl

/-! ## Reading -/

/-- `parse::<i64>` of a run of digits. -/
def parseI64 (chars : List Char) : Option Int :=
  let n := Parser.intOfDigits false chars
  if chars ≠ [] ∧ -2 ^ 63 ≤ n ∧ n < 2 ^ 63 then some n else none

/-- The closure `digits`: `text.get(from..from + len)`, when it is digits. -/
def digitsOf (text : String) (first len : Nat) : Except (Abort Unit) Int := do
  let slice ← orError () (Cursor.getFrom first ⟨text, first + len⟩)
  require ((utf8 slice).length = len ∧ (utf8 slice).all isAsciiDigit = true) ()
  orError () (parseI64 slice)

/-- The offset at byte `i` in minutes, and where it ends. -/
def offsetOf (text : String) (i : Nat) : Except (Abort Unit) (Int × Nat) :=
  let bytes := text.toUTF8.toList
  if charAt bytes i ['Z', 'z'] then .ok (0, i + 1)
  else if charAt bytes i ['+', '-'] then do
    let oh ← digitsOf text (i + 1) 2
    require (charAt bytes (i + 3) [':'] = true) ()
    let om ← digitsOf text (i + 4) 2
    require (¬(oh > 23 ∨ om > 59)) ()
    let hours ← i64 (oh * 60)
    let magnitude ← i64 (hours + om)
    let minutes ← if charAt bytes i ['-'] then i64 (-magnitude) else .ok magnitude
    .ok (minutes, i + 6)
  else .error (.error ())

def parseRfc3339 (text : String) : Except (Abort Unit) Int := do
  let bytes := text.toUTF8.toList
  require (19 ≤ bytes.length) ()
  let year ← digitsOf text 0 4
  require (charAt bytes 4 ['-'] = true) ()
  let month ← digitsOf text 5 2
  require (charAt bytes 7 ['-'] = true) ()
  let day ← digitsOf text 8 2
  require (charAt bytes 10 ['T', 't', ' '] = true) ()
  let hour ← digitsOf text 11 2
  require (charAt bytes 13 [':'] = true) ()
  let minute ← digitsOf text 14 2
  require (charAt bytes 16 [':'] = true) ()
  let second ← digitsOf text 17 2
  let i ← orError () (fractionEnd bytes)
  let (offsetMinutes, i) ← offsetOf text i
  require (i = bytes.length) ()
  require (1 ≤ year ∧ year ≤ 9999 ∧ 1 ≤ month ∧ month ≤ 12 ∧ 1 ≤ day) ()
  require (day ≤ daysInMonth year month) ()
  require (hour ≤ 23 ∧ minute ≤ 59 ∧ second ≤ 59) ()
  let days ← daysFromCivil year month day
  let daySeconds ← i64 (days * 86400)
  let hourSeconds ← i64 (hour * 3600)
  let seconds ← i64 (daySeconds + hourSeconds)
  let minuteSeconds ← i64 (minute * 60)
  let seconds ← i64 (seconds + minuteSeconds)
  let seconds ← i64 (seconds + second)
  let offsetSeconds ← i64 (offsetMinutes * 60)
  i64 (seconds - offsetSeconds)

theorem orError_bind {α β : Type} {o : Option α} {f : α → Except (Abort Unit) β}
    {g : α → Option β} (h : ∀ a, o = some a → f a = orError () (g a)) :
    (orError () o >>= f) = orError () (o >>= g) := by
  cases o with
  | none => rfl
  | some a => exact h a rfl

theorem require_bind {β : Type} {p : Prop} [Decidable p] {f : Unit → Except (Abort Unit) β}
    {g : Unit → Option β} (h : p → f () = orError () (g ())) :
    (require p () >>= f) = orError () (guard p >>= g) := by
  unfold require guard
  by_cases hp : p
  · rw [if_pos hp, if_pos hp]
    exact h hp
  · rw [if_neg hp, if_neg hp]
    rfl

/-- A byte below 128 starts a character. -/
theorem charsFrom_of_ascii {chars : List Char} {i : Nat} {b : UInt8} {rest : List UInt8}
    (h : (utf8 chars).drop i = b :: rest) (hb : b.toNat < 128) :
    ∃ c after, charsFrom chars i = some (c :: after) ∧ b = UInt8.ofNat c.toNat ∧ c.toNat < 128 := by
  induction chars generalizing i with
  | nil =>
    rw [show utf8 [] = [] from rfl, List.drop_nil] at h
    cases h
  | cons c chars ih =>
    have hsize := String.length_utf8EncodeChar c
    rw [utf8_cons] at h
    by_cases hin : i < c.utf8Size
    · -- the byte is one of the first character's
      have hmem : b ∈ String.utf8EncodeChar c := by
        rw [List.drop_append_of_le_length (by omega)] at h
        cases hdrop : (String.utf8EncodeChar c).drop i with
        | nil =>
          have hlength := congrArg List.length hdrop
          rw [List.length_drop, List.length_nil] at hlength
          omega
        | cons b' rest' =>
          rw [hdrop, List.cons_append] at h
          rw [← (List.cons.inj h).1]
          exact List.mem_of_mem_drop (hdrop ▸ List.mem_cons_self)
      have hascii : c.toNat < 128 := by
        by_contra hhigh
        exact absurd hb (Nat.not_lt.mpr (le_of_mem_utf8EncodeChar (Nat.le_of_not_lt hhigh) hmem))
      have hzero : i = 0 := by
        have hone := utf8Size_ascii hascii
        omega
      rw [utf8EncodeChar_ascii hascii, List.mem_singleton] at hmem
      exact ⟨c, chars, by rw [hzero]; rfl, hmem, hascii⟩
    · rw [List.drop_append, List.drop_eq_nil_of_le (by omega), List.nil_append, hsize] at h
      obtain ⟨c', after, hchars, hbyte, hascii⟩ := ih h
      have hpos := Char.utf8Size_pos c
      refine ⟨c', after, ?_, hbyte, hascii⟩
      rw [charsFrom, if_neg (by omega), if_pos (by omega), hchars]

/-- Bytes below 128 are whole characters. -/
theorem charsFrom_run {chars : List Char} {run rest : List UInt8} :
    ∀ {i : Nat}, run ≠ [] → (utf8 chars).drop i = run ++ rest → (∀ b ∈ run, b.toNat < 128) →
      ∃ word after, charsFrom chars i = some (word ++ after) ∧
        charsFrom chars (i + run.length) = some after ∧ asciiBytes word = run ∧
        ∀ c ∈ word, c.toNat < 128 := by
  induction run with
  | nil => intro i hne; exact absurd rfl hne
  | cons b run ih =>
    intro i _ hdrop hrun
    obtain ⟨c, after, hchars, hbyte, hascii⟩ := charsFrom_of_ascii hdrop (hrun b List.mem_cons_self)
    have hnext := charsFrom_add_utf8Size chars hchars
    rw [utf8Size_ascii hascii] at hnext
    have hfirst : asciiBytes [c] = [b] := by
      rw [hbyte]
      rfl
    by_cases hlast : run = []
    · subst hlast
      exact ⟨[c], after, hchars, hnext, hfirst, fun c' hc' => by rwa [List.mem_singleton.mp hc']⟩
    · have htail : (utf8 chars).drop (i + 1) = run ++ rest := by
        rw [← List.drop_drop, hdrop]
        rfl
      obtain ⟨word, after', hword, hend, hbytes, hall⟩ :=
        ih hlast htail fun b' hb' => hrun b' (List.mem_cons_of_mem _ hb')
      rw [hnext] at hword
      refine ⟨c :: word, after', ?_, ?_, ?_, List.forall_mem_cons.mpr ⟨hascii, hall⟩⟩
      · rw [hchars, Option.some.inj hword]
        rfl
      · rw [List.length_cons, Nat.add_comm run.length, ← Nat.add_assoc]
        exact hend
      · rw [← hbytes, hbyte]
        rfl

theorem digitsValue_asciiBytes (word : List Char) (h : ∀ c ∈ word, c.isDigit = true) :
    digitsValue (asciiBytes word) = Nat.ofDigitChars 10 word 0 := by
  induction word using List.reverseRecOn with
  | nil => rfl
  | append_singleton word c ih =>
    have hc := h c (by simp)
    have hdigit := hc
    rw [Char.isDigit, Bool.and_eq_true, decide_eq_true_eq, decide_eq_true_eq, ge_iff_le,
      UInt32.le_iff_toNat_le, UInt32.le_iff_toNat_le] at hdigit
    have hlow : 48 ≤ c.toNat := hdigit.1
    have hhigh : c.toNat ≤ 57 := hdigit.2
    rw [asciiBytes, List.map_append, List.map_singleton, digitsValue_concat, ← asciiBytes,
      ih fun c' hc' => h c' (List.mem_append_left _ hc'), Nat.ofDigitChars_append,
      Nat.ofDigitChars_cons, Nat.ofDigitChars_nil, UInt8.toNat_ofNat']
    show (_ : Int) = ((10 * _ + (c.toNat - 48) : Nat) : Int)
    omega

theorem digitsAt_lt {bytes : List UInt8} {i len : Nat} {n : Int} (h : digitsAt bytes i len = some n) :
    0 ≤ n ∧ n < 10 ^ len := by
  obtain ⟨k, hk, -, rfl⟩ := digitsAt_eq_some_iff.mp h
  exact ⟨Int.natCast_nonneg k, by exact_mod_cast hk⟩

theorem digitsOf_eq (text : String) (i len : Nat) (hpos : 0 < len) (hlen : len ≤ 4) :
    digitsOf text i len = orError () (digitsAt text.toUTF8.toList i len) := by
  have hbytes := toUTF8_toList text
  cases hat : digitsAt text.toUTF8.toList i len with
  | some n =>
    have hbounds := digitsAt_lt hat
    have hsmall : (10 : Int) ^ len ≤ 10 ^ 4 := by exact_mod_cast Nat.pow_le_pow_right (by decide) hlen
    have hslice := hat
    rw [digitsAt, hbytes] at hslice
    split at hslice
    · rename_i hrun
      generalize htaken : ((utf8 text.toList).drop i).take len = run at hrun hslice
      obtain ⟨hlength, hall⟩ := hrun
      have hdrop : (utf8 text.toList).drop i = run ++ (utf8 text.toList).drop (i + len) := by
        rw [← htaken, ← List.drop_drop, List.take_append_drop]
      have hdigits : ∀ b ∈ run, isAsciiDigit b = true := List.all_eq_true.mp hall
      have hlow : ∀ b ∈ run, b.toNat < 128 := by
        intro b hb
        have hdigit := hdigits b hb
        simp only [isAsciiDigit, Bool.and_eq_true, decide_eq_true_eq,
          UInt8.le_iff_toNat_le] at hdigit
        have hhigh : b.toNat ≤ 57 := hdigit.2
        omega
      have hne : run ≠ [] := by
        intro hnil
        rw [hnil, List.length_nil] at hlength
        omega
      obtain ⟨word, after, hstart, hstop, hword, hascii⟩ := charsFrom_run hne hdrop hlow
      rw [hlength] at hstop
      have hget : Cursor.getFrom i ⟨text, i + len⟩ = some word :=
        Cursor.getFrom_eq hstart hstop (Nat.le_add_right i len)
      have hutf8 : utf8 word = run := (utf8_ascii hascii).trans hword
      have hwordDigits : ∀ c ∈ word, c.isDigit = true := by
        intro c hc
        rw [← isAsciiDigit_ofNat (hascii c hc)]
        exact hdigits _ (hword ▸ List.mem_map_of_mem hc)
      have hvalue : Parser.intOfDigits false word = n := by
        rw [← Option.some.inj hslice, ← hword, digitsValue_asciiBytes word hwordDigits]
        rfl
      have hwordNe : word ≠ [] := by
        intro hnil
        rw [hnil] at hword
        exact hne hword.symm
      unfold digitsOf
      rw [hget]
      show (require _ () >>= _) = _
      rw [require, hutf8, if_pos ⟨hlength, hall⟩]
      show orError () (parseI64 word) = _
      rw [parseI64, hvalue]
      rw [if_pos ⟨hwordNe, by omega, by omega⟩]
    · cases hslice
  | none =>
    have hno : ∀ n, digitsOf text i len ≠ .ok n := by
      intro n hn
      unfold digitsOf at hn
      simp only [bind_eq_ok, orError_eq_ok, require_eq_ok] at hn
      obtain ⟨slice, hget, -, ⟨hlength, hall⟩, -⟩ := hn
      unfold Cursor.getFrom at hget
      simp only [Option.bind_eq_bind, Option.bind_eq_some_iff] at hget
      obtain ⟨tail, htail, after, hafter, hget⟩ := hget
      obtain ⟨word, hword, -⟩ :=
        Cursor.charsFrom_split text.toList htail hafter (Nat.le_add_right i len)
      rw [if_pos (Nat.le_add_right i len), hword, List.length_append, Nat.add_sub_cancel,
        List.take_left] at hget
      have hdrop := (drop_utf8 text.toList htail).1
      rw [← Option.some.inj hget] at hlength hall
      have htake : ((utf8 text.toList).drop i).take len = utf8 word := by
        rw [hdrop, hword, utf8, List.flatMap_append]
        exact List.take_left' hlength
      rw [digitsAt, hbytes] at hat
      rw [htake, if_pos ⟨hlength, hall⟩] at hat
      cases hat
    have hreturns : Returns (digitsOf text i len) := by
      unfold digitsOf
      simp only [returns_bind, returns_orError, returns_require, implies_true, and_self]
    cases h : digitsOf text i len with
    | ok n => exact absurd h (hno n)
    | error e =>
      cases e with
      | error e => rfl
      | panic => exact absurd h hreturns

theorem offsetOf_eq (text : String) (i : Nat) :
    offsetOf text i = orError () (offsetAt text.toUTF8.toList i) := by
  unfold offsetOf offsetAt
  dsimp only
  split
  · rfl
  · split
    · rw [digitsOf_eq _ _ _ (by decide) (by decide)]
      refine orError_bind fun oh hoh => require_bind fun _ => ?_
      rw [digitsOf_eq _ _ _ (by decide) (by decide)]
      refine orError_bind fun om hom => require_bind fun hlimits => ?_
      have hoh := digitsAt_nonneg hoh
      have hom := digitsAt_nonneg hom
      rw [i64_bind (by omega) (by omega), i64_bind (by omega) (by omega)]
      split
      · rw [i64_bind (by omega) (by omega)]
        rfl
      · rfl
    · rfl

/-- Nothing overflows on a text that was accepted so far. -/
theorem parseRfc3339_eq (text : String) :
    parseRfc3339 text = orError () (Ports.parseRfc3339 text) := by
  unfold parseRfc3339 Ports.parseRfc3339
  dsimp only
  refine require_bind fun _ => ?_
  rw [digitsOf_eq _ _ _ (by decide) (by decide)]
  refine orError_bind fun year hyear => require_bind fun _ => ?_
  rw [digitsOf_eq _ _ _ (by decide) (by decide)]
  refine orError_bind fun month hmonth => require_bind fun _ => ?_
  rw [digitsOf_eq _ _ _ (by decide) (by decide)]
  refine orError_bind fun day hday => require_bind fun _ => ?_
  rw [digitsOf_eq _ _ _ (by decide) (by decide)]
  refine orError_bind fun hour hhour => require_bind fun _ => ?_
  rw [digitsOf_eq _ _ _ (by decide) (by decide)]
  refine orError_bind fun minute hminute => require_bind fun _ => ?_
  rw [digitsOf_eq _ _ _ (by decide) (by decide)]
  refine orError_bind fun second hsecond => orError_bind fun i _ => ?_
  rw [offsetOf_eq]
  refine orError_bind fun p hzone => require_bind fun _ => require_bind fun hdate =>
    require_bind fun hlength => require_bind fun htime => ?_
  obtain ⟨ahead, last⟩ := p
  have hhour := digitsAt_nonneg hhour
  have hminute := digitsAt_nonneg hminute
  have hsecond := digitsAt_nonneg hsecond
  have hzone := offsetAt_bounds hzone
  have hlast := daysInMonth_le year month
  have hdays := daysFromCivil_le hdate.2.1 ⟨hdate.2.2.1, hdate.2.2.2.1⟩ (hlength.trans hlast)
  have hpast : -4000000 ≤ Ports.daysFromCivil year month day := by
    unfold Ports.daysFromCivil
    dsimp only
    split_ifs <;> omega
  rw [daysFromCivil_eq ⟨hdate.1, hdate.2.1⟩ ⟨hdate.2.2.1, hdate.2.2.2.1⟩
    ⟨hdate.2.2.2.2, hlength.trans hlast⟩, ok_bind]
  generalize Ports.daysFromCivil year month day = days at *
  dsimp only at hzone ⊢
  simp (disch := omega) only [i64_bind]
  rw [i64, if_pos (by omega)]
  rfl

/-- An instant that is written is read back, from the nearest second that a
four-digit year can hold. What is read is the exact second of the instant that is spelled;
any other text is refused, and no text makes the parser panic. -/
theorem timestamps_round_trip :
    (∀ s : Int64, ∃ text, formatIso8601Utc s = .ok text ∧
      parseRfc3339 text = .ok (clamp s.toInt MIN_SECONDS MAX_SECONDS)) ∧
    ∀ text : String, Returns (parseRfc3339 text) ∧ ∀ seconds, parseRfc3339 text = .ok seconds ↔
      ∃ stamp : Stamp, stamp.Valid ∧ text = String.ofList stamp.chars ∧
        seconds = stamp.instant := by
  refine ⟨fun s => ⟨_, formatIso8601Utc_eq s, ?_⟩, fun text => ⟨?_, fun seconds => ?_⟩⟩
  · obtain ⟨hlow, hhigh⟩ := clamp_bounds s.toInt
    rw [parseRfc3339_eq, orError_eq_ok, parseRfc3339_eq_some_iff]
    exact ⟨_, stampOf_valid hlow hhigh, rfl, (instant_stampOf hlow).symm⟩
  · rw [parseRfc3339_eq]
    exact returns_orError _ _
  · rw [parseRfc3339_eq, orError_eq_ok, parseRfc3339_eq_some_iff]

end Cairn.Ports.Time
