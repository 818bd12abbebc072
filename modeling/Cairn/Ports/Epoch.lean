import Cairn.Ports.Canonical.Merkle

/-!
# Timestamps, epochs and the settlement order

`parse_rfc3339` of `src/time.rs`, and of `src/partition.rs` the part that
settlement uses: `epoch_of`, `beacon` and `settlement_rank`. The epoch length
and the finality delay come from the process environment, so they are the
fields of a class.
-/

namespace Cairn.Ports

open Cairn.Ports.Canonical

/-- `epoch_seconds()` and `finality_epochs()`. The reader of the first falls
back to `EPOCH_SECONDS` on a zero, so it is never zero. -/
class Clock where
  epochSeconds : UInt64
  finalityEpochs : UInt64
  epochSeconds_pos : 0 < epochSeconds.toNat

/-! ## `parse_rfc3339` -/

def isAsciiDigit (b : UInt8) : Bool := 48 ≤ b && b ≤ 57

/-- The value of a run of digits. -/
def digitsValue (bytes : List UInt8) : Int :=
  bytes.foldl (fun acc b => acc * 10 + (b.toNat - 48 : Int)) 0

/-- `len` digits starting at `start`. A slice of the text that is all digits
starts and ends on a character boundary, so the bytes decide it. -/
def digitsAt (bytes : List UInt8) (start len : Nat) : Option Int :=
  let slice := (bytes.drop start).take len
  if slice.length = len ∧ slice.all isAsciiDigit then some (digitsValue slice) else none

/-- The byte at `i` is one of these characters. -/
def charAt (bytes : List UInt8) (i : Nat) (chars : List Char) : Bool :=
  match bytes[i]? with
  | some b => chars.any fun c => c.toNat = b.toNat
  | none => false

def isLeap (year : Int) : Bool :=
  (year % 4 = 0 && year % 100 ≠ 0) || year % 400 = 0

def daysInMonth (year month : Int) : Int :=
  if month = 1 ∨ month = 3 ∨ month = 5 ∨ month = 7 ∨ month = 8 ∨ month = 10 ∨ month = 12 then 31
  else if month = 4 ∨ month = 6 ∨ month = 9 ∨ month = 11 then 30
  else if month = 2 then (if isLeap year then 29 else 28)
  else 0

def daysFromCivil (year month day : Int) : Int :=
  let year := if month ≤ 2 then year - 1 else year
  let era := year / 400
  let yearOfEra := year - era * 400
  let monthPrime := if month > 2 then month - 3 else month + 9
  let dayOfYear := (153 * monthPrime + 2) / 5 + day - 1
  let dayOfEra := yearOfEra * 365 + yearOfEra / 4 - yearOfEra / 100 + dayOfYear
  era * 146097 + dayOfEra - 719468

/-- Where the fraction that may follow the seconds ends. -/
def fractionEnd (bytes : List UInt8) : Option Nat :=
  if charAt bytes 19 ['.'] then
    let run := ((bytes.drop 20).takeWhile isAsciiDigit).length
    if run = 0 then none else some (20 + run)
  else some 19

/-- The offset at `i` in minutes, and where it ends. -/
def offsetAt (bytes : List UInt8) (i : Nat) : Option (Int × Nat) :=
  if charAt bytes i ['Z', 'z'] then some (0, i + 1)
  else if charAt bytes i ['+', '-'] then do
    let oh ← digitsAt bytes (i + 1) 2
    guard (charAt bytes (i + 3) [':'])
    let om ← digitsAt bytes (i + 4) 2
    guard ¬ (oh > 23 ∨ om > 59)
    let magnitude := oh * 60 + om
    some (if charAt bytes i ['-'] then -magnitude else magnitude, i + 6)
  else none

/-- Seconds since the Unix epoch of an RFC 3339 timestamp with a zone. -/
def parseRfc3339 (text : String) : Option Int := do
  let bytes := text.toUTF8.toList
  guard (19 ≤ bytes.length)
  let year ← digitsAt bytes 0 4
  guard (charAt bytes 4 ['-'])
  let month ← digitsAt bytes 5 2
  guard (charAt bytes 7 ['-'])
  let day ← digitsAt bytes 8 2
  guard (charAt bytes 10 ['T', 't', ' '])
  let hour ← digitsAt bytes 11 2
  guard (charAt bytes 13 [':'])
  let minute ← digitsAt bytes 14 2
  guard (charAt bytes 16 [':'])
  let second ← digitsAt bytes 17 2
  let i ← fractionEnd bytes
  let (offsetMinutes, i) ← offsetAt bytes i
  guard (i = bytes.length)
  guard (1 ≤ year ∧ year ≤ 9999 ∧ 1 ≤ month ∧ month ≤ 12 ∧ 1 ≤ day)
  guard (day ≤ daysInMonth year month)
  guard (hour ≤ 23 ∧ minute ≤ 59 ∧ second ≤ 59)
  some (daysFromCivil year month day * 86400 + hour * 3600 + minute * 60 + second
    - offsetMinutes * 60)

/-! ### The range of a timestamp -/

theorem digitsValue_nonneg {bytes : List UInt8} (h : bytes.all isAsciiDigit = true) :
    0 ≤ digitsValue bytes := by
  unfold digitsValue
  have hfold : ∀ (bytes : List UInt8) (acc : Int), bytes.all isAsciiDigit = true → 0 ≤ acc →
      0 ≤ bytes.foldl (fun acc b => acc * 10 + (b.toNat - 48 : Int)) acc := by
    intro bytes
    induction bytes with
    | nil => intro acc _ hacc; exact hacc
    | cons b bytes ih =>
      intro acc hall hacc
      rw [List.all_cons, Bool.and_eq_true] at hall
      have hdigit := hall.1
      simp only [isAsciiDigit, Bool.and_eq_true, decide_eq_true_eq, UInt8.le_iff_toNat_le] at hdigit
      have hlow : 48 ≤ b.toNat := hdigit.1
      rw [List.foldl_cons]
      apply ih _ hall.2
      omega
  exact hfold bytes 0 h le_rfl

theorem digitsAt_nonneg {bytes : List UInt8} {start len : Nat} {n : Int}
    (h : digitsAt bytes start len = some n) : 0 ≤ n := by
  unfold digitsAt at h
  dsimp only at h
  split at h
  · rename_i hslice
    cases h
    exact digitsValue_nonneg hslice.2
  · cases h

/-- An offset is less than a day. -/
theorem offsetAt_bounds {bytes : List UInt8} {i : Nat} {p : Int × Nat}
    (h : offsetAt bytes i = some p) : -1439 ≤ p.1 ∧ p.1 ≤ 1439 := by
  unfold offsetAt at h
  split at h
  · cases h
    constructor <;> norm_num
  · split at h
    · simp only [Option.bind_eq_bind, Option.bind_eq_some_iff, Option.guard_eq_some'] at h
      obtain ⟨oh, hoh, _, -, om, hom, _, hsmall, h⟩ := h
      have hoh := digitsAt_nonneg hoh
      have hom := digitsAt_nonneg hom
      cases h
      dsimp only
      split <;> omega
    · cases h

theorem daysInMonth_le (year month : Int) : daysInMonth year month ≤ 31 := by
  unfold daysInMonth
  split_ifs <;> decide

theorem daysFromCivil_le {year month day : Int} (hyear : year ≤ 9999) (hmonth : 1 ≤ month ∧ month ≤ 12)
    (hday : day ≤ 31) : daysFromCivil year month day ≤ 4000000 := by
  unfold daysFromCivil
  dsimp only
  split_ifs <;> omega

/-- A timestamp is far from overflowing. -/
theorem parseRfc3339_lt {text : String} {seconds : Int} (h : parseRfc3339 text = some seconds) :
    seconds < 2 ^ 63 := by
  unfold parseRfc3339 at h
  simp only [Option.bind_eq_bind, Option.bind_eq_some_iff, Option.guard_eq_some'] at h
  obtain ⟨_, -, year, -, _, -, month, -, _, -, day, -, _, -, hour, -, _, -, minute, -, _, -, second,
    -, _, -, p, hoffset, _, -, _, hdate, _, hday, _, htime, h⟩ := h
  have hoffset := offsetAt_bounds hoffset
  have hdays := daysFromCivil_le hdate.2.1 ⟨hdate.2.2.1, hdate.2.2.2.1⟩
    (hday.trans (daysInMonth_le year month))
  cases h
  omega

/-- `u64::try_from` of an integer. -/
def tryUInt64 (n : Nat) : Option UInt64 :=
  if n < UInt64.size then some (UInt64.ofNat n) else none

/-! ## Epochs -/

/-- `checked_div` with a zero epoch length read as epoch zero. -/
def epochOf (timestampSeconds epochSeconds : UInt64) : UInt64 :=
  if epochSeconds = 0 then 0 else timestampSeconds / epochSeconds

theorem epochOf_mono {a b : UInt64} (h : a.toNat ≤ b.toNat) (epochSeconds : UInt64) :
    (epochOf a epochSeconds).toNat ≤ (epochOf b epochSeconds).toNat := by
  unfold epochOf
  split
  · exact le_rfl
  · rw [UInt64.toNat_div, UInt64.toNat_div]
    exact Nat.div_le_div_right h

section Rank

variable [Sha256]

/-- Hex of a SHA-256, without the `sha256:` prefix. -/
def hexDigest (text : String) : String := String.ofList (hexEncode (Sha256.hash text.toUTF8).toList)

/-- The beacon of an epoch under an anchor. -/
def beacon (epoch : UInt64) (anchor : String) : String :=
  hexDigest (toString epoch.toNat ++ ":" ++ anchor)

/-- Where a key falls in the settlement order of an epoch. -/
def settlementRank (epoch : UInt64) (anchor key : String) : String :=
  hexDigest (beacon epoch anchor ++ key)

end Rank

end Cairn.Ports
