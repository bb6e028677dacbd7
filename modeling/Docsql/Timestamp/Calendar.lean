import Docsql.Lib.Civil
import Docsql.Json.Text
import Docsql.Lib.FixedDigits

/-!
# Days and dates

`days_from_civil` and the calendar inside `format_timestamp_ms` (`value.rs`).  The
divisions of the source truncate, so both correct negative arguments by hand.
-/

namespace Docsql.Timestamp

open Docsql.Lib.Civil

/-- Days since the epoch of a date. -/
def daysFromCivil (y : ℤ) (m d : ℕ) : ℤ :=
  let y := if m ≤ 2 then y - 1 else y
  let era := (if 0 ≤ y then y else y - 399).tdiv 400
  let yoe := (y - era * 400).toNat
  let mp := if 2 < m then m - 3 else m + 9
  let doy := (153 * mp + 2) / 5 + d - 1
  let doe := yoe * 365 + yoe / 4 - yoe / 100 + doy
  era * 146097 + doe - 719468

/-- Year, month and day of a day since the epoch. -/
def civilFromDays (days : ℤ) : ℤ × ℕ × ℕ :=
  let z := days + 719468
  let era := (if 0 ≤ z then z else z - 146096).tdiv 146097
  let doe := (z - era * 146097).toNat
  let yoe := (doe - doe / 1460 + doe / 36524 - doe / 146096) / 365
  let y := yoe + era * 400
  let doy := doe - (365 * yoe + yoe / 4 - yoe / 100)
  let mp := (5 * doy + 2) / 153
  let d := doy - (153 * mp + 2) / 5 + 1
  let m := if mp < 10 then mp + 3 else mp - 9
  (if m ≤ 2 then y + 1 else y, m, d)

/-- Truncating division, corrected below zero, is the floor. -/
theorem tdiv_year (y : ℤ) : (if 0 ≤ y then y else y - 399).tdiv 400 = y / 400 := by
  by_cases h : 0 ≤ y
  · rw [if_pos h, Int.tdiv_eq_ediv_of_nonneg h]
  · rw [if_neg h, Int.tdiv_eq_ediv]
    simp only [Int.sign]
    split_ifs <;> omega

theorem tdiv_day (z : ℤ) : (if 0 ≤ z then z else z - 146096).tdiv 146097 = z / 146097 := by
  by_cases h : 0 ≤ z
  · rw [if_pos h, Int.tdiv_eq_ediv_of_nonneg h]
  · rw [if_neg h, Int.tdiv_eq_ediv]
    simp only [Int.sign]
    split_ifs <;> omega

theorem daysFromCivil_eq {d : ℕ} (y : ℤ) (m : ℕ) (hd : 1 ≤ d) :
    daysFromCivil y m d = dayNumber y m d - 719468 := by
  unfold daysFromCivil dayNumber marchYear marchMonth monthStart
  dsimp only
  rw [tdiv_year]
  generalize (if m ≤ 2 then y - 1 else y) = Y
  generalize (if 2 < m then m - 3 else m + 9) = mp
  unfold marchStart
  omega

/-- Month and day of a day of the year. -/
theorem month_of_day {doy mp : ℕ} (h : doy ≤ 365) (hmp : mp = (5 * doy + 2) / 153) :
    mp ≤ 11 ∧ monthStart mp ≤ doy ∧ doy < monthStart (mp + 1) ∧
      marchMonth (if mp < 10 then mp + 3 else mp - 9) = mp := by
  unfold monthStart marchMonth
  refine ⟨by omega, by omega, by omega, ?_⟩
  split_ifs <;> omega

/-- The calendar inside `format_timestamp_ms`, part by part. -/
theorem civilFromDays_parts {days era : ℤ} {c q r doy mp : ℕ} (hc : c ≤ 3) (hq : q ≤ 24)
    (hr : r ≤ 3) (hdoy : doy ≤ 365) (hlast : doy = 365 → r = 3 ∧ (q = 24 → c = 3))
    (hdays : days + 719468 = era * 146097 + ((36524 * c + 1461 * q + 365 * r + doy : ℕ) : ℤ))
    (hmp : mp = (5 * doy + 2) / 153) :
    civilFromDays days =
      (if (if mp < 10 then mp + 3 else mp - 9) ≤ 2 then
        ((100 * c + 4 * q + r : ℕ) : ℤ) + era * 400 + 1
      else ((100 * c + 4 * q + r : ℕ) : ℤ) + era * 400,
      if mp < 10 then mp + 3 else mp - 9, doy - monthStart mp + 1) := by
  have hdiv : (days + 719468) / 146097 = era := by omega
  have hdoe : (days + 719468 - era * 146097).toNat = 36524 * c + 1461 * q + 365 * r + doy := by
    omega
  have hrest : 36524 * c + 1461 * q + 365 * r + doy - (365 * (100 * c + 4 * q + r) +
      (100 * c + 4 * q + r) / 4 - (100 * c + 4 * q + r) / 100) = doy := by
    rw [yearStart_eq hq hr, Nat.add_sub_cancel_left]
  have hyoe := yearOfEra_eq hc hq hr hdoy hlast
  dsimp only at hyoe
  unfold civilFromDays
  dsimp only
  rw [tdiv_day, hdiv, hdoe, hyoe, hrest, ← hmp]
  rfl

/-- The calendar of `format_timestamp_ms` gives a valid date, and `days_from_civil`
takes it back to the day. -/
theorem civilFromDays_spec (days : ℤ) :
    Valid (civilFromDays days).1 (civilFromDays days).2.1 (civilFromDays days).2.2 ∧
      daysFromCivil (civilFromDays days).1 (civilFromDays days).2.1 (civilFromDays days).2.2 =
        days := by
  obtain ⟨era, doe, hdays, hdoe⟩ : ∃ (era : ℤ) (doe : ℕ),
      days + 719468 = era * 146097 + (doe : ℤ) ∧ doe < 146097 :=
    ⟨(days + 719468) / 146097, ((days + 719468) % 146097).toNat, by omega, by omega⟩
  obtain ⟨c, q, r, doy, rfl, hc, hq, hr, hdoy, hlast⟩ := exists_parts hdoe
  obtain ⟨mp, hmpdef⟩ : ∃ mp, mp = (5 * doy + 2) / 153 := ⟨_, rfl⟩
  obtain ⟨hmp, hfrom, hto, hmonth⟩ := month_of_day hdoy hmpdef
  have hstart := marchStart_parts era hc hq hr
  rw [civilFromDays_parts hc hq hr hdoy hlast hdays hmpdef]
  dsimp only
  obtain ⟨m, hm⟩ : ∃ m, m = if mp < 10 then mp + 3 else mp - 9 := ⟨_, rfl⟩
  obtain ⟨y, hy⟩ : ∃ y, y = ((100 * c + 4 * q + r : ℕ) : ℤ) + era * 400 := ⟨_, rfl⟩
  rw [← hm] at hmonth ⊢
  rw [← hy] at hstart ⊢
  have hrange : 1 ≤ m ∧ m ≤ 12 := by
    rw [hm]
    split_ifs <;> omega
  have hyear : marchYear (if m ≤ 2 then y + 1 else y) m = y := by
    unfold marchYear
    split_ifs <;> omega
  refine ⟨⟨hrange.1, hrange.2, by omega, ?_⟩, ?_⟩
  · by_cases hfeb : m = 2
    · have hmarch : mp = 11 := by
        rw [hfeb] at hmonth
        exact hmonth.symm
      have h337 : monthStart 11 = 337 := by decide
      rw [hfeb, if_pos le_rfl, daysInMonth_feb, hmarch, h337]
      by_cases hday : doy = 365
      · obtain ⟨rfl, hcentury⟩ := hlast hday
        have hleap : Leap (y + 1) := by
          rw [hy]
          exact leap_parts era hq hcentury
        rw [if_pos hleap]
        omega
      · split_ifs <;> omega
    · have := monthStart_succ (if m ≤ 2 then y + 1 else y) hrange.1 hrange.2 hfeb
      rw [hmonth] at this
      omega
  · rw [daysFromCivil_eq _ _ (by omega), dayNumber, hyear, hmonth, hstart]
    omega

end Docsql.Timestamp

/-!
# Timestamp text

`format_timestamp_ms` and `parse_timestamp_ms` of `value.rs`.  The parser works on a
`str`: lengths and offsets count bytes, and a slice that starts or ends inside a
character stops the program.
-/

namespace Docsql.Timestamp

open Docsql.Json (timestampMinMs timestampMaxMs)
open Docsql.Lib.Utf8 Docsql.Lib.Digits

/-! ## Format -/

/-- `{:0w}`: a sign counts towards the width. -/
def padInt (w : ℕ) (i : ℤ) : List Char :=
  if i < 0 then '-' :: padDigits (w - 1) i.natAbs else padDigits w i.natAbs

def formatTimestampMs (ms : ℤ) : String :=
  let secs := ms / 1000
  let millis := (ms % 1000).toNat
  let days := secs / 86400
  let rem := (secs % 86400).toNat
  let (y, m, d) := civilFromDays days
  let h := rem / 3600
  let mi := rem % 3600 / 60
  let se := rem % 60
  String.ofList (padInt 4 y ++ '-' :: (padDigits 2 m ++ '-' :: (padDigits 2 d ++
    'T' :: (padDigits 2 h ++ ':' :: (padDigits 2 mi ++ ':' :: (padDigits 2 se ++
      '.' :: (padDigits 3 millis ++ ['Z'])))))))

/-! ## Parse -/

inductive Halt where
  /-- The text is refused: `None`. -/
  | malformed
  /-- An index past the end, or a slice off the character boundaries. -/
  | panic
deriving DecidableEq, Repr

abbrev Parse := Except Halt

/-- Unicode `White_Space`. -/
def isWhitespace (c : Char) : Bool :=
  let n := c.toNat
  (9 ≤ n && n ≤ 13) || n == 0x20 || n == 0x85 || n == 0xA0 || n == 0x1680 ||
    (0x2000 ≤ n && n ≤ 0x200A) || n == 0x2028 || n == 0x2029 || n == 0x202F || n == 0x205F ||
    n == 0x3000

def trim (cs : List Char) : List Char :=
  ((cs.dropWhile isWhitespace).reverse.dropWhile isWhitespace).reverse

/-- `b[i]` -/
def byteAt (b : List UInt8) (i : ℕ) : Parse UInt8 :=
  match b[i]? with
  | some x => .ok x
  | none => .error .panic

/-- `&s[n..]` -/
def sliceFrom (n : ℕ) (s : List Char) : Parse (List Char) :=
  match dropBytes n s with
  | some rest => .ok rest
  | none => .error .panic

/-- `&s[..n]` -/
def sliceTo (n : ℕ) (s : List Char) : Parse (List Char) :=
  match takeBytes n s with
  | some front => .ok front
  | none => .error .panic

def allDigits (s : List Char) : Bool := s.all Char.isDigit

/-- `parse::<i64>` of digits. -/
def parseI64 (s : List Char) : Parse ℕ :=
  if s ≠ [] ∧ allDigits s ∧ ofDigits s < 2 ^ 63 then .ok (ofDigits s) else .error .malformed

/-- The digits from one byte offset to another. -/
def num (s : List Char) (start stop : ℕ) : Parse ℕ :=
  match (dropBytes start s).bind (takeBytes (stop - start)) with
  | none => .error .malformed
  | some sub => if sub.isEmpty || !allDigits sub then .error .malformed else parseI64 sub

/-- Where the last sign stands. -/
def rfindSign : List Char → Option ℕ
  | [] => none
  | c :: cs =>
    match rfindSign cs with
    | some pos => some (c.utf8Size + pos)
    | none => if c = '+' ∨ c = '-' then some 0 else none

/-- `±HH:MM` or `±HHMM`, in minutes. -/
def parseOffset (off : List Char) : Parse ℤ := do
  let digits := (← sliceFrom 1 off).filter (· ≠ ':')
  if byteLen digits ≠ 4 ∨ !allDigits digits then
    .error .malformed
  else do
    let oh ← parseI64 (← sliceTo 2 digits)
    let om ← parseI64 (← sliceFrom 2 digits)
    if 23 < oh ∨ 59 < om then
      .error .malformed
    else
      let mag : ℤ := oh * 60 + om
      pure (if off.head? = some '-' then -mag else mag)

/-- The time without its offset, and the offset. -/
def splitOffset (time : List Char) : Parse (List Char × ℤ) :=
  match (toBytes time).getLast? with
  | none => pure (time, 0)
  | some last =>
    if last = 'Z'.val.toUInt8 ∨ last = 'z'.val.toUInt8 then do
      pure (← sliceTo (byteLen time - 1) time, 0)
    else
      match rfindSign time with
      | none => pure (time, 0)
      | some pos =>
        if 0 < pos then do
          let offset ← parseOffset (← sliceFrom pos time)
          pure (← sliceTo pos time, offset)
        else pure (time, 0)

/-- What follows the date. -/
def splitTime (s : List Char) : Parse (List Char × ℤ) :=
  match dropBytes 10 s with
  | none => .error .malformed
  | some rest =>
    if rest.head? = some 'T' ∨ rest.head? = some 't' ∨ rest.head? = some ' ' then do
      splitOffset (← sliceFrom 1 rest)
    else if (trim rest).isEmpty then pure ([], 0)
    else .error .malformed

/-- The fraction in milliseconds; further digits are cut off. -/
def parseMillis (frac : List Char) : Parse ℕ :=
  if frac.isEmpty || !allDigits frac then .error .malformed
  else do parseI64 (← sliceTo 3 (frac ++ List.replicate (3 - byteLen frac) '0'))

def colon : UInt8 := ':'.val.toUInt8

structure Clock where
  hh : ℕ
  mm : ℕ
  ss : ℕ
  ms : ℕ

/-- The clock reading; its numbers are read from the whole text. -/
def parseClock (s rest : List Char) : Parse Clock :=
  let tb := toBytes rest
  if tb.length = 0 then pure ⟨0, 0, 0, 0⟩
  else if tb.length = 5 then do
    if (← byteAt tb 2) ≠ colon then
      .error .malformed
    else do
      let hh ← num s 11 13
      let mm ← num s 14 16
      pure ⟨hh, mm, 0, 0⟩
  else if tb.length = 8 then do
    if (← byteAt tb 2) ≠ colon ∨ (← byteAt tb 5) ≠ colon then
      .error .malformed
    else do
      let hh ← num s 11 13
      let mm ← num s 14 16
      let ss ← num s 17 19
      pure ⟨hh, mm, ss, 0⟩
  else if 9 < tb.length then do
    if (← byteAt tb 2) ≠ colon ∨ (← byteAt tb 5) ≠ colon ∨
        (← byteAt tb 8) ≠ '.'.val.toUInt8 then
      .error .malformed
    else do
      let hh ← num s 11 13
      let mm ← num s 14 16
      let ss ← num s 17 19
      let ms ← parseMillis (← sliceFrom 9 rest)
      pure ⟨hh, mm, ss, ms⟩
  else .error .malformed

/-- The date at the start of the text. -/
def parseDate (s : List Char) : Parse (ℕ × ℕ × ℕ) := do
  let b := toBytes s
  if b.length < 10 then
    .error .malformed
  else if (← byteAt b 4) ≠ '-'.val.toUInt8 ∨ (← byteAt b 7) ≠ '-'.val.toUInt8 then
    .error .malformed
  else do
    let y ← num s 0 4
    let mo ← num s 5 7
    let d ← num s 8 10
    if ¬(1 ≤ y ∧ y ≤ 9999) ∨ ¬(1 ≤ mo ∧ mo ≤ 12) then
      .error .malformed
    else
      let leap := (y % 4 = 0 ∧ y % 100 ≠ 0) ∨ y % 400 = 0
      let lengths := [31, if leap then 29 else 28, 31, 30, 31, 30, 31, 31, 30, 31, 30, 31]
      match lengths[mo - 1]? with
      | none => .error .panic
      | some dim => if d < 1 ∨ dim < d then .error .malformed else pure (y, mo, d)

def parseTimestampMs (text : String) : Parse ℤ := do
  let s := trim text.toList
  let (y, mo, d) ← parseDate s
  let (rest, offsetMin) ← splitTime s
  let clock ← parseClock s rest
  if 23 < clock.hh ∨ 59 < clock.mm ∨ 59 < clock.ss then
    .error .malformed
  else
    let days := daysFromCivil y mo d
    let secs := days * 86400 + clock.hh * 3600 + clock.mm * 60 + clock.ss
    let msTotal := secs * 1000 + clock.ms - offsetMin * 60000
    if timestampMinMs ≤ msTotal ∧ msTotal ≤ timestampMaxMs then pure msTotal
    else .error .malformed

end Docsql.Timestamp
