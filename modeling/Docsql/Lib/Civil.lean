import Mathlib.Tactic

/-!
# The proleptic Gregorian calendar

Day numbers of dates over all years.  Years are counted from March, so that the leap
day is the last day of a year; `dayNumber` is strictly increasing on valid dates, and
every day of a 400-year era has one.
-/

namespace Docsql.Lib.Civil

def Leap (y : ℤ) : Prop := y % 4 = 0 ∧ y % 100 ≠ 0 ∨ y % 400 = 0

instance (y : ℤ) : Decidable (Leap y) := inferInstanceAs (Decidable (_ ∨ _))

def daysInMonth (y : ℤ) (m : ℕ) : ℕ :=
  [31, if Leap y then 29 else 28, 31, 30, 31, 30, 31, 31, 30, 31, 30, 31].getD (m - 1) 0

structure Valid (y : ℤ) (m d : ℕ) : Prop where
  month_pos : 1 ≤ m
  month_le : m ≤ 12
  day_pos : 1 ≤ d
  day_le : d ≤ daysInMonth y m

/-- The year a date falls in when years begin in March. -/
def marchYear (y : ℤ) (m : ℕ) : ℤ := if m ≤ 2 then y - 1 else y

/-- Months since March. -/
def marchMonth (m : ℕ) : ℕ := if 2 < m then m - 3 else m + 9

/-- The first of March of a year, counted from the year 0. -/
def marchStart (y : ℤ) : ℤ := 365 * y + y / 4 - y / 100 + y / 400

/-- Days from the first of March to the first of a month. -/
def monthStart (mp : ℕ) : ℕ := (153 * mp + 2) / 5

/-- Days since 0000-03-01. -/
def dayNumber (y : ℤ) (m d : ℕ) : ℤ :=
  marchStart (marchYear y m) + monthStart (marchMonth m) + (d - 1 : ℤ)

/-! ## Order -/

theorem marchStart_succ (y : ℤ) :
    marchStart (y + 1) = marchStart y + 365 + if Leap (y + 1) then 1 else 0 := by
  unfold marchStart Leap
  split_ifs with h <;> omega

theorem marchStart_lt {y y' : ℤ} (h : y < y') : marchStart y + 365 ≤ marchStart y' := by
  unfold marchStart
  omega

theorem marchMonth_le {m : ℕ} (h : m ≤ 12) : marchMonth m ≤ 11 := by
  unfold marchMonth
  split_ifs <;> omega

theorem monthStart_mono {mp mp' : ℕ} (h : mp ≤ mp') : monthStart mp ≤ monthStart mp' := by
  unfold monthStart
  omega

/-- February apart, the months are as long as the March-based formula says. -/
theorem monthStart_succ (y : ℤ) {m : ℕ} (hpos : 1 ≤ m) (hle : m ≤ 12) (hne : m ≠ 2) :
    monthStart (marchMonth m + 1) = monthStart (marchMonth m) + daysInMonth y m := by
  interval_cases m
  case «2» => exact absurd rfl hne
  all_goals rfl

theorem daysInMonth_le (y : ℤ) (m : ℕ) : daysInMonth y m ≤ 31 := by
  unfold daysInMonth
  rw [List.getD_eq_getElem?_getD]
  cases h : [31, if Leap y then 29 else 28, 31, 30, 31, 30, 31, 31, 30, 31, 30, 31][m - 1]? with
  | none => exact Nat.zero_le _
  | some len =>
    have hmem := List.mem_of_getElem? h
    split_ifs at hmem <;> simp at hmem <;> simp <;> omega

theorem daysInMonth_feb (y : ℤ) : daysInMonth y 2 = if Leap y then 29 else 28 := rfl

/-- The last day of a month comes before the first of the next. -/
theorem monthStart_add_le {y : ℤ} {m d mp : ℕ} (h : Valid y m d) (hmp : marchMonth m < mp) :
    monthStart (marchMonth m) + d ≤ monthStart mp := by
  have hday := h.day_le
  have hnext : monthStart (marchMonth m + 1) ≤ monthStart mp := monthStart_mono hmp
  by_cases hfeb : m = 2
  · subst hfeb
    have hlen : daysInMonth y 2 ≤ 29 := by
      rw [daysInMonth_feb]
      split_ifs <;> omega
    have hstart : monthStart (marchMonth 2) + 29 ≤ monthStart (marchMonth 2 + 1) := by decide
    omega
  · have := monthStart_succ y h.month_pos h.month_le hfeb
    omega

/-- A year ends before the next first of March. -/
theorem monthStart_add_lt {y : ℤ} {m d : ℕ} (h : Valid y m d) :
    marchStart (marchYear y m) + monthStart (marchMonth m) + d ≤
      marchStart (marchYear y m + 1) := by
  have hday := h.day_le
  rw [marchStart_succ]
  by_cases hfeb : m = 2
  · subst hfeb
    have hyear : marchYear y 2 + 1 = y := by
      rw [marchYear, if_pos le_rfl]
      omega
    have hstart : monthStart (marchMonth 2) = 337 := by decide
    rw [daysInMonth_feb] at hday
    rw [hyear, hstart]
    split_ifs at hday ⊢ <;> omega
  · have hsucc := monthStart_succ y h.month_pos h.month_le hfeb
    have hmp : marchMonth m + 1 ≤ 11 := by
      have := h.month_pos
      have := h.month_le
      unfold marchMonth
      split_ifs <;> omega
    have hlast := monthStart_mono hmp
    have hstart : monthStart 11 = 337 := by decide
    split_ifs <;> omega

/-- Year and month in one number. -/
theorem march_order {y y' : ℤ} {m m' : ℕ} (hm : 1 ≤ m ∧ m ≤ 12) (hm' : 1 ≤ m' ∧ m' ≤ 12) :
    12 * marchYear y m + marchMonth m < 12 * marchYear y' m' + marchMonth m' ↔
      y < y' ∨ y = y' ∧ m < m' := by
  unfold marchYear marchMonth
  split_ifs <;> omega

theorem dayNumber_lt {y y' : ℤ} {m m' d d' : ℕ} (h : Valid y m d) (h' : Valid y' m' d')
    (hlt : y < y' ∨ y = y' ∧ (m < m' ∨ m = m' ∧ d < d')) :
    dayNumber y m d < dayNumber y' m' d' := by
  have hpos := h'.day_pos
  by_cases hsame : y = y' ∧ m = m'
  · obtain ⟨rfl, rfl⟩ := hsame
    unfold dayNumber
    omega
  · have hmonths := (march_order ⟨h.month_pos, h.month_le⟩ ⟨h'.month_pos, h'.month_le⟩).mpr
      (show y < y' ∨ y = y' ∧ m < m' by omega)
    have hmp := marchMonth_le h.month_le
    have hmp' := marchMonth_le h'.month_le
    have hend := monthStart_add_lt h
    unfold dayNumber
    rcases lt_trichotomy (marchYear y m) (marchYear y' m') with hyear | hyear | hyear
    · have hnext : marchStart (marchYear y m + 1) ≤ marchStart (marchYear y' m') := by
        rcases (Int.add_one_le_of_lt hyear).lt_or_eq with hlt | heq
        · have := marchStart_lt hlt
          omega
        · rw [heq]
      omega
    · have := monthStart_add_le h (show marchMonth m < marchMonth m' by omega)
      rw [hyear]
      omega
    · omega

/-- Valid dates are ordered as their day numbers are. -/
theorem dayNumber_lt_iff {y y' : ℤ} {m m' d d' : ℕ} (h : Valid y m d) (h' : Valid y' m' d') :
    dayNumber y m d < dayNumber y' m' d' ↔
      y < y' ∨ y = y' ∧ (m < m' ∨ m = m' ∧ d < d') := by
  refine ⟨fun hlt => ?_, dayNumber_lt h h'⟩
  by_contra hnot
  by_cases heq : y = y' ∧ m = m' ∧ d = d'
  · obtain ⟨rfl, rfl, rfl⟩ := heq
    exact lt_irrefl _ hlt
  · exact lt_asymm hlt (dayNumber_lt h' h (by omega))

/-! ## The days of an era -/

/-- Century, cycle of four years, year of the cycle and day of the year within the
146097 days of an era; only a last year of a cycle has a day 365. -/
theorem exists_parts {doe : ℕ} (h : doe < 146097) :
    ∃ c q r doy, doe = 36524 * c + 1461 * q + 365 * r + doy ∧ c ≤ 3 ∧ q ≤ 24 ∧ r ≤ 3 ∧
      doy ≤ 365 ∧ (doy = 365 → r = 3 ∧ (q = 24 → c = 3)) := by
  obtain ⟨c, hc, hc₁, hc₂⟩ : ∃ c, c ≤ 3 ∧ 36524 * c ≤ doe ∧
      (doe < 36524 * c + 36524 ∨ c = 3 ∧ doe = 146096) :=
    ⟨min (doe / 36524) 3, by omega, by omega, by omega⟩
  obtain ⟨q, hq, hq₁, hq₂⟩ : ∃ q, q ≤ 24 ∧ 1461 * q ≤ doe - 36524 * c ∧
      doe - 36524 * c < 1461 * q + 1461 :=
    ⟨(doe - 36524 * c) / 1461, by omega, by omega, by omega⟩
  obtain ⟨r, hr, hr₁, hr₂⟩ : ∃ r, r ≤ 3 ∧ 365 * r ≤ doe - 36524 * c - 1461 * q ∧
      (doe - 36524 * c - 1461 * q < 365 * r + 365 ∨ r = 3) :=
    ⟨min ((doe - 36524 * c - 1461 * q) / 365) 3, by omega, by omega, by omega⟩
  exact ⟨c, q, r, doe - 36524 * c - 1461 * q - 365 * r, by omega, hc, hq, hr, by omega, by omega⟩

/-- The closed form of the year of an era. -/
theorem yearOfEra_eq {c q r doy : ℕ} (hc : c ≤ 3) (hq : q ≤ 24) (hr : r ≤ 3) (hdoy : doy ≤ 365)
    (hlast : doy = 365 → r = 3 ∧ (q = 24 → c = 3)) :
    let doe := 36524 * c + 1461 * q + 365 * r + doy
    (doe - doe / 1460 + doe / 36524 - doe / 146096) / 365 = 100 * c + 4 * q + r := by
  intro doe
  have hdoe : doe = 36524 * c + 1461 * q + 365 * r + doy := rfl
  clear_value doe
  have hcentury : doe / 36524 = c + doe / 146096 := by
    by_cases hend : doe = 146096
    · have hc : c = 3 := by omega
      rw [hend, hc]
    · rw [Nat.div_eq_of_lt_le (k := c) (by omega) (by omega), Nat.div_eq_of_lt (by omega)]
      rfl
  -- The days beyond the cycles of 1460; the last day of a leap year is one too many.
  obtain ⟨k, hk⟩ : ∃ k, k = 24 * c + q + 365 * r + doy := ⟨_, rfl⟩
  have hcycle : doe / 1460 = 25 * c + q + k / 1460 := by
    have hsplit : doe = 1460 * (25 * c + q) + k := by omega
    rw [hsplit, Nat.mul_add_div (by decide)]
  have hday : k / 1460 ≤ doy ∧ doy - k / 1460 < 365 := by
    by_cases hlt : k < 1460
    · rw [Nat.div_eq_of_lt hlt]
      omega
    · rw [Nat.div_eq_of_lt_le (k := 1) (by omega) (by omega)]
      omega
  rw [hcentury, hcycle]
  generalize k / 1460 = carry at hday
  generalize doe / 146096 = e
  have hsum : doe - (25 * c + q + carry) + (c + e) - e =
      365 * (100 * c + 4 * q + r) + (doy - carry) := by
    clear hcentury hcycle hlast
    omega
  rw [hsum, Nat.mul_add_div (by decide), Nat.div_eq_of_lt hday.2]
  rfl

/-- Where a year of an era starts. -/
theorem yearStart_eq {c q r : ℕ} (hq : q ≤ 24) (hr : r ≤ 3) :
    365 * (100 * c + 4 * q + r) + (100 * c + 4 * q + r) / 4 - (100 * c + 4 * q + r) / 100 =
      36524 * c + 1461 * q + 365 * r := by
  omega

theorem marchStart_parts (era : ℤ) {c q r : ℕ} (hc : c ≤ 3) (hq : q ≤ 24) (hr : r ≤ 3) :
    marchStart (((100 * c + 4 * q + r : ℕ) : ℤ) + era * 400) =
      era * 146097 + ((36524 * c + 1461 * q + 365 * r : ℕ) : ℤ) := by
  unfold marchStart
  omega

/-- The year after the last year of a cycle is a leap year, unless a century ends. -/
theorem leap_parts (era : ℤ) {c q : ℕ} (hq : q ≤ 24) (hcentury : q = 24 → c = 3) :
    Leap (((100 * c + 4 * q + 3 : ℕ) : ℤ) + era * 400 + 1) := by
  by_cases hlast : q = 24
  · obtain rfl := hcentury hlast
    subst hlast
    refine .inr ?_
    omega
  · refine .inl ⟨?_, ?_⟩
    · omega
    · omega

end Docsql.Lib.Civil
