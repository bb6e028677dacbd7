import Docsql.Scalar.Total
import Docsql.Timestamp.RoundTrip
import Docsql.Tsql.DateFunctions

/-!
# Where the calendar arithmetic overflows

`days_from_civil` overflows for years whose days do not fit in `i64`; an instant is taken apart
without overflow.
-/

namespace Docsql.Tsql

open Docsql.Scalar Docsql.Lib.Civil
open Docsql.Json (timestampMinMs timestampMaxMs)

/-! ## Checked steps -/

def InI64 (x : ℤ) : Prop := i64Min ≤ x ∧ x ≤ i64Max

instance (x : ℤ) : Decidable (InI64 x) := inferInstanceAs (Decidable (_ ∧ _))

theorem inI64_iff {x : ℤ} : InI64 x ↔ -9223372036854775808 ≤ x ∧ x ≤ 9223372036854775807 := by
  unfold InI64 i64Min i64Max
  norm_num

theorem checked_eq_ok {x z : ℤ} : checked x = .ok z ↔ InI64 x ∧ x = z := by
  unfold checked InI64
  split_ifs with h
  · rw [and_iff_right h]
    exact ⟨Except.ok.inj, congrArg _⟩
  · exact iff_of_false nofun fun hz => h hz.1

theorem checked_of_inI64 {x : ℤ} (h : InI64 x) : checked x = .ok x := checked_ok h

/-- A checked step that only one branch takes. -/
theorem checked_ite_eq_ok {c : Prop} [Decidable c] {a b z : ℤ} :
    (if c then checked a else pure b) = .ok z ↔ (c → InI64 a) ∧ (if c then a else b) = z := by
  split_ifs with h
  · rw [checked_eq_ok, forall_prop_of_true h]
  · rw [forall_prop_of_false h, true_and]
    exact ⟨Except.ok.inj, congrArg _⟩

theorem pure_ite_eq_ok {c : Prop} [Decidable c] {a b z : ℤ} :
    (if c then pure a else checked b) = .ok z ↔ (¬ c → InI64 b) ∧ (if c then a else b) = z := by
  split_ifs with h
  · rw [forall_prop_of_false (not_not.mpr h), true_and]
    exact ⟨Except.ok.inj, congrArg _⟩
  · rw [checked_eq_ok, forall_prop_of_true h]

theorem ok_bind {α β : Type} (a : α) (f : α → Eval β) : (Except.ok a >>= f : Eval β) = f a := rfl

/-- Nothing but overflow stops the step. -/
def Computes {α : Type} (x : Eval α) : Prop := ∀ stop, x = .error stop → stop = .overflow

namespace Computes

variable {α β : Type}

theorem checked (x : ℤ) : Computes (Scalar.checked x) := by
  intro stop h
  unfold Scalar.checked at h
  split_ifs at h
  cases h
  rfl

theorem pure (a : α) : Computes (Pure.pure a : Eval α) := nofun

theorem ite {c : Prop} [Decidable c] {x y : Eval α} (hx : Computes x) (hy : Computes y) :
    Computes (if c then x else y) := by
  split_ifs
  · exact hx
  · exact hy

theorem bind {x : Eval α} {f : α → Eval β} (hx : Computes x) (hf : ∀ a, Computes (f a)) :
    Computes (x >>= f) := by
  intro stop h
  rcases Except.bind_eq_error_iff.mp h with h | ⟨a, -, h⟩
  · exact hx stop h
  · exact hf a stop h

theorem overflow {x : Eval α} (hx : Computes x) (h : ∀ a, x ≠ .ok a) :
    x = .error .overflow := by
  cases hcase : x with
  | ok a => exact absurd hcase (h a)
  | error stop => rw [hx stop hcase]

end Computes

/-! ## Days of dates -/

/-- The day of the date fits, counted from the epoch and from the first of March of year 0. -/
def DayFits (y : ℤ) (m d : ℕ) : Prop :=
  i64Min + 719468 ≤ dayNumber y m d ∧ dayNumber y m d ≤ i64Max

instance (y : ℤ) (m d : ℕ) : Decidable (DayFits y m d) := inferInstanceAs (Decidable (_ ∧ _))

theorem daysFromCivil_computes (y : ℤ) (m d : ℕ) : Computes (daysFromCivil y m d) := by
  unfold daysFromCivil
  apply Computes.bind (.ite (.checked _) (.pure _)) fun Y => ?_
  apply Computes.bind (.ite (.pure _) (.checked _)) fun s => ?_
  apply Computes.bind (.checked _) fun cycle => ?_
  apply Computes.bind (.checked _) fun yoe => ?_
  apply Computes.bind (.checked _) fun first => ?_
  apply Computes.bind (.checked _) fun sum => ?_
  exact .checked _

/-- The days of a date, where they fit. -/
theorem daysFromCivil_eq_ok {y z : ℤ} {m d : ℕ} (hy : InI64 y) (hm : m ≤ 12) (hd : 1 ≤ d)
    (hd' : d ≤ 31) :
    daysFromCivil y m d = .ok z ↔ DayFits y m d ∧ z = dayNumber y m d - 719468 := by
  have hday := Timestamp.daysFromCivil_eq y m hd
  unfold daysFromCivil
  simp only [Except.bind_eq_ok_iff, checked_eq_ok, checked_ite_eq_ok, pure_ite_eq_ok, and_assoc,
    exists_and_left, exists_eq_left']
  rw [Timestamp.tdiv_year]
  unfold Timestamp.daysFromCivil at hday
  dsimp only at hday
  rw [Timestamp.tdiv_year] at hday
  have hmp : (if 2 < m then m - 3 else m + 9) ≤ 11 := marchMonth_le hm
  generalize (if 2 < m then m - 3 else m + 9) = mp at *
  have hshift : (if m ≤ 2 then y - 1 else y) = y - 1 ∧ m ≤ 2 ∨
      (if m ≤ 2 then y - 1 else y) = y ∧ ¬ m ≤ 2 := by
    split_ifs with h
    · exact .inl ⟨rfl, h⟩
    · exact .inr ⟨rfl, h⟩
  generalize (if m ≤ 2 then y - 1 else y) = Y at *
  obtain ⟨doe, hdoe⟩ : ∃ doe, doe = (Y - Y / 400 * 400).toNat * 365 +
      (Y - Y / 400 * 400).toNat / 4 - (Y - Y / 400 * 400).toNat / 100 +
        ((153 * mp + 2) / 5 + d - 1) := ⟨_, rfl⟩
  have hle : doe ≤ 146200 := by omega
  rw [← hdoe] at hday ⊢
  rw [inI64_iff] at hy
  simp only [DayFits, inI64_iff, i64Min, i64Max]
  omega

theorem daysFromCivil_overflow {y : ℤ} {m d : ℕ} (hy : InI64 y) (hm : m ≤ 12) (hd : 1 ≤ d)
    (hd' : d ≤ 31) (h : ¬ DayFits y m d) : daysFromCivil y m d = .error .overflow := by
  apply (daysFromCivil_computes y m d).overflow
  intro z hz
  exact h ((daysFromCivil_eq_ok hy hm hd hd').mp hz).1

theorem civilFromDays_eq_ok {z : ℤ} (hz : i64Min ≤ z) (hz' : z + 719468 ≤ i64Max) :
    civilFromDays z = .ok (Timestamp.civilFromDays z) := by
  have hera := Timestamp.tdiv_day (z + 719468)
  unfold i64Min at hz
  unfold i64Max at hz'
  refine Except.bind_eq_ok_iff.mpr ⟨_, checked_of_inI64 (inI64_iff.mpr (by omega)), ?_⟩
  refine Except.bind_eq_ok_iff.mpr
    ⟨_, pure_ite_eq_ok.mpr ⟨fun _ => inI64_iff.mpr (by omega), rfl⟩, ?_⟩
  refine Except.bind_eq_ok_iff.mpr ⟨_, checked_of_inI64 (inI64_iff.mpr ?_), ?_⟩
  · rw [hera]
    omega
  refine Except.bind_eq_ok_iff.mpr ⟨_, checked_of_inI64 (inI64_iff.mpr ?_), ?_⟩
  · rw [hera]
    omega
  refine Except.bind_eq_ok_iff.mpr ⟨_, checked_of_inI64 (inI64_iff.mpr ?_), ?_⟩
  · rw [hera]
    omega
  refine Except.bind_eq_ok_iff.mpr ⟨_, checked_of_inI64 (inI64_iff.mpr ?_), ?_⟩
  · rw [hera]
    omega
  refine Except.bind_eq_ok_iff.mpr
    ⟨_, checked_ite_eq_ok.mpr ⟨fun _ => inI64_iff.mpr ?_, rfl⟩, rfl⟩
  rw [hera]
  omega

/-! ## Instants taken apart -/

/-- The parts of an instant, with nothing left to check. -/
def partsOf (ms : ℤ) : TsParts :=
  let days := ms / 1000 / 86400
  let rem := ms / 1000 % 86400
  let date := Timestamp.civilFromDays days
  { year := date.1, month := date.2.1, day := date.2.2
    hour := rem / 3600, minute := rem % 3600 / 60, second := rem % 60, millisecond := ms % 1000
    doy := days - Timestamp.daysFromCivil date.1 1 1 + 1
    weekday := (days + 4) % 7 + 1
    days }

/-- The date of an instant. -/
theorem partsOf_spec (ms : ℤ) : ∃ m d : ℕ, (partsOf ms).month = m ∧ (partsOf ms).day = d ∧
    Valid (partsOf ms).year m d ∧
      dayNumber (partsOf ms).year m d = (partsOf ms).days + 719468 := by
  obtain ⟨hvalid, hdays⟩ := Timestamp.civilFromDays_spec (ms / 1000 / 86400)
  rw [Timestamp.daysFromCivil_eq _ _ hvalid.day_pos] at hdays
  exact ⟨_, _, rfl, rfl, hvalid, by rw [← sub_eq_iff_eq_add]; exact hdays⟩

theorem partsOf_bounds {ms : ℤ} (h : InI64 ms) :
    -107000000000 ≤ (partsOf ms).days ∧ (partsOf ms).days ≤ 107000000000 ∧
      -300000000 ≤ (partsOf ms).year ∧ (partsOf ms).year ≤ 300000000 := by
  obtain ⟨m, d, -, -, hvalid, hday⟩ := partsOf_spec ms
  have hdays : -107000000000 ≤ (partsOf ms).days ∧ (partsOf ms).days ≤ 107000000000 := by
    rw [inI64_iff] at h
    change -107000000000 ≤ ms / 1000 / 86400 ∧ ms / 1000 / 86400 ≤ 107000000000
    omega
  have hmonth := marchMonth_le hvalid.month_le
  have hstart := monthStart_mono hmonth
  have hlast : monthStart 11 = 337 := rfl
  have hd := hvalid.day_le.trans (daysInMonth_le _ _)
  have hpos := hvalid.day_pos
  unfold dayNumber marchStart marchYear at hday
  refine ⟨hdays.1, hdays.2, ?_⟩
  split_ifs at hday <;> omega

/-- The days before a year. -/
theorem newYear_bounds {y : ℤ} (h : -300000000 ≤ y ∧ y ≤ 300000000) :
    -120000000000 ≤ Timestamp.daysFromCivil y 1 1 ∧
      Timestamp.daysFromCivil y 1 1 ≤ 120000000000 := by
  rw [Timestamp.daysFromCivil_eq y 1 le_rfl]
  have hmonth : monthStart (marchMonth 1) = 306 := rfl
  have hyear : marchYear y 1 = y - 1 := rfl
  rw [dayNumber, hmonth, hyear, marchStart]
  omega

theorem daysFromCivil_newYear {y : ℤ} (h : -300000000 ≤ y ∧ y ≤ 300000000) :
    daysFromCivil y 1 1 = .ok (Timestamp.daysFromCivil y 1 1) := by
  have hbounds := newYear_bounds h
  rw [Timestamp.daysFromCivil_eq y 1 le_rfl] at hbounds ⊢
  apply (daysFromCivil_eq_ok (inI64_iff.mpr (by omega)) (by decide) le_rfl (by decide)).mpr
  refine ⟨?_, rfl⟩
  unfold DayFits i64Min i64Max
  omega

theorem tsParts_eq_ok {ms : ℤ} (h : InI64 ms) : tsParts ms = .ok (partsOf ms) := by
  obtain ⟨hlow, hhigh, hyear⟩ := partsOf_bounds h
  have hfirst := newYear_bounds hyear
  have hdays : (partsOf ms).days = ms / 1000 / 86400 := rfl
  rw [hdays] at hlow hhigh
  refine Except.bind_eq_ok_iff.mpr ⟨_, civilFromDays_eq_ok ?_ ?_, ?_⟩
  · unfold i64Min
    omega
  · unfold i64Max
    omega
  refine Except.bind_eq_ok_iff.mpr ⟨_, daysFromCivil_newYear hyear, ?_⟩
  have hsum : ∀ x : ℤ, -300000000000 ≤ x ∧ x ≤ 300000000000 → InI64 x := fun x hx =>
    inI64_iff.mpr (by omega)
  refine Except.bind_eq_ok_iff.mpr ⟨_, checked_of_inI64 (hsum _ ?_), ?_⟩
  · change -300000000000 ≤ ms / 1000 / 86400 - Timestamp.daysFromCivil (partsOf ms).year 1 1 ∧
      ms / 1000 / 86400 - Timestamp.daysFromCivil (partsOf ms).year 1 1 ≤ 300000000000
    omega
  refine Except.bind_eq_ok_iff.mpr ⟨_, checked_of_inI64 (hsum _ ?_), ?_⟩
  · change -300000000000 ≤ ms / 1000 / 86400 - Timestamp.daysFromCivil (partsOf ms).year 1 1 + 1 ∧
      ms / 1000 / 86400 - Timestamp.daysFromCivil (partsOf ms).year 1 1 + 1 ≤ 300000000000
    omega
  refine Except.bind_eq_ok_iff.mpr ⟨_, checked_of_inI64 (hsum _ (by omega)), ?_⟩
  exact Except.bind_eq_ok_iff.mpr ⟨_, checked_of_inI64 (hsum _ (by omega)), rfl⟩

/-! ## Dates put together -/

/-- The parts pass every check in front of the calendar, and the date has no day in `i64`. -/
structure Unfit (year month day hour minute second millisecond : ℤ) : Prop where
  month_le : 1 ≤ month ∧ month ≤ 12
  hour_le : 0 ≤ hour ∧ hour ≤ 23
  minute_le : 0 ≤ minute ∧ minute ≤ 59
  second_le : 0 ≤ second ∧ second ≤ 59
  millisecond_le : 0 ≤ millisecond ∧ millisecond ≤ 999
  day_le : 1 ≤ day ∧ day ≤ 31
  unfit : ¬ DayFits year month.toNat day.toNat

theorem add64_returns (a b : ℤ) : Returns (add64 a b) := by
  unfold add64
  split_ifs
  · exact .ok _
  · exact .fail _

theorem mul64_returns (a b : ℤ) : Returns (mul64 a b) := by
  unfold mul64
  split_ifs
  · exact .ok _
  · exact .fail _

variable {year month day hour minute second millisecond : ℤ}

theorem msFromParts_returns_iff (hy : InI64 year) :
    Returns (msFromParts year month day hour minute second millisecond) ↔
      ¬ Unfit year month day hour minute second millisecond := by
  unfold msFromParts
  by_cases hmonth : 1 ≤ month ∧ month ≤ 12
  swap
  · rw [if_pos hmonth]
    exact iff_of_true (.fail _) fun h => hmonth h.month_le
  rw [if_neg (not_not.mpr hmonth)]
  by_cases htime : ¬(0 ≤ hour ∧ hour ≤ 23) ∨ ¬(0 ≤ minute ∧ minute ≤ 59) ∨
      ¬(0 ≤ second ∧ second ≤ 59)
  · rw [if_pos htime]
    exact iff_of_true (.fail _) fun h =>
      htime.elim (· h.hour_le) fun htime => htime.elim (· h.minute_le) (· h.second_le)
  rw [if_neg htime]
  push Not at htime
  by_cases hmillis : 0 ≤ millisecond ∧ millisecond ≤ 999
  swap
  · rw [if_pos hmillis]
    exact iff_of_true (.fail _) fun h => hmillis h.millisecond_le
  rw [if_neg (not_not.mpr hmillis)]
  by_cases hday : 1 ≤ day ∧ day ≤ 31
  swap
  · rw [if_pos hday]
    exact iff_of_true (.fail _) fun h => hday h.day_le
  rw [if_neg (not_not.mpr hday)]
  have hm : month.toNat ≤ 12 := by omega
  have hd : 1 ≤ day.toNat := by omega
  have hd' : day.toNat ≤ 31 := by omega
  by_cases hfit : DayFits year month.toNat day.toNat
  swap
  · rw [daysFromCivil_overflow hy hm hd hd' hfit]
    refine iff_of_false not_returns_overflow (not_not.mpr ?_)
    exact ⟨hmonth, htime.1, htime.2.1, htime.2.2, hmillis, hday, hfit⟩
  refine iff_of_true ?_ fun h => h.unfit hfit
  rw [(daysFromCivil_eq_ok hy hm hd hd').mpr ⟨hfit, rfl⟩]
  have hback := civilFromDays_eq_ok (z := dayNumber year month.toNat day.toNat - 719468)
    (by have := hfit.1; omega) (by have := hfit.2; omega)
  refine Returns.bind (.ok _) fun days hdays => ?_
  obtain rfl := Except.ok.inj hdays
  rw [hback]
  refine Returns.bind (.ok _) fun date _ => .ite (fun _ => .fail _) fun _ => ?_
  have hclock : InI64 (hour * 3600 + minute * 60 + second) := inI64_iff.mpr (by omega)
  rw [checked_of_inI64 hclock]
  refine Returns.bind (.ok _) fun clock _ => .bind (mul64_returns _ _) fun secs _ => ?_
  refine Returns.bind (add64_returns _ _) fun secs _ => .bind (mul64_returns _ _) fun ms _ => ?_
  exact .bind (add64_returns _ _) fun ms _ => .ite (fun _ => .fail _) fun _ => .pure _

theorem add64_eq_ok {a b z : ℤ} : add64 a b = .ok z ↔ InI64 (a + b) ∧ a + b = z := by
  unfold add64 InI64
  split_ifs with h
  · rw [and_iff_right h]
    exact ⟨Except.ok.inj, congrArg _⟩
  · exact iff_of_false nofun fun hz => h hz.1

theorem add64_overflow {a b : ℤ} (h : ¬ InI64 (a + b)) : add64 a b = dateOvf := if_neg h

theorem mul64_eq_ok {a b z : ℤ} : mul64 a b = .ok z ↔ InI64 (a * b) ∧ a * b = z := by
  unfold mul64 InI64
  split_ifs with h
  · rw [and_iff_right h]
    exact ⟨Except.ok.inj, congrArg _⟩
  · exact iff_of_false nofun fun hz => h hz.1

/-- The parts of a date and a time of day. -/
structure IsDateTime (year month day hour minute second millisecond : ℤ) : Prop where
  date : Valid year month.toNat day.toNat
  hour_le : 0 ≤ hour ∧ hour ≤ 23
  minute_le : 0 ≤ minute ∧ minute ≤ 59
  second_le : 0 ≤ second ∧ second ≤ 59
  millisecond_le : 0 ≤ millisecond ∧ millisecond ≤ 999

def instantOf (year month day hour minute second millisecond : ℤ) : ℤ :=
  (dayNumber year month.toNat day.toNat - 719468) * 86400000 + hour * 3600000 +
    minute * 60000 + second * 1000 + millisecond

/-- A valid date is the date of its day. -/
theorem civilFromDays_dayNumber {y : ℤ} {m d : ℕ} (h : Valid y m d) :
    Timestamp.civilFromDays (dayNumber y m d - 719468) = (y, m, d) := by
  obtain ⟨hvalid, hdays⟩ := Timestamp.civilFromDays_spec (dayNumber y m d - 719468)
  rw [Timestamp.daysFromCivil_eq _ _ hvalid.day_pos] at hdays
  generalize Timestamp.civilFromDays (dayNumber y m d - 719468) = date at *
  obtain ⟨y', m', d'⟩ := date
  have hlt := dayNumber_lt_iff h hvalid
  have hgt := dayNumber_lt_iff hvalid h
  dsimp only at *
  have hnot : ¬ dayNumber y m d < dayNumber y' m' d' := by omega
  have hnot' : ¬ dayNumber y' m' d' < dayNumber y m d := by omega
  rw [hlt] at hnot
  rw [hgt] at hnot'
  simp only [Prod.mk.injEq]
  omega

theorem msFromParts_eq_ok {ms : ℤ} (hy : InI64 year) :
    msFromParts year month day hour minute second millisecond = .ok ms ↔
      IsDateTime year month day hour minute second millisecond ∧
        ms = instantOf year month day hour minute second millisecond ∧
          timestampMinMs ≤ ms ∧ ms ≤ timestampMaxMs := by
  constructor
  · intro h
    unfold msFromParts at h
    split_ifs at h with hmonth htime hmillis hday
    any_goals cases h
    push Not at htime
    obtain ⟨days, hdays, h⟩ := Except.bind_eq_ok_iff.mp h
    obtain ⟨⟨hlow, hhigh⟩, rfl⟩ :=
      (daysFromCivil_eq_ok hy (by omega) (by omega) (by omega)).mp hdays
    obtain ⟨date, hdate, h⟩ := Except.bind_eq_ok_iff.mp h
    rw [civilFromDays_eq_ok (by omega) (by omega)] at hdate
    have hspec := (Timestamp.civilFromDays_spec
      (dayNumber year month.toNat day.toNat - 719468)).1
    rw [Except.ok.inj hdate] at hspec
    split_ifs at h with hexists
    · cases h
    · rw [not_not] at hexists
      rw [hexists] at hspec
      obtain ⟨clock, hclock, h⟩ := Except.bind_eq_ok_iff.mp h
      obtain ⟨daySecs, hdaySecs, h⟩ := Except.bind_eq_ok_iff.mp h
      obtain ⟨secs, hsecs, h⟩ := Except.bind_eq_ok_iff.mp h
      obtain ⟨whole, hwhole, h⟩ := Except.bind_eq_ok_iff.mp h
      obtain ⟨total, htotal, h⟩ := Except.bind_eq_ok_iff.mp h
      rw [checked_eq_ok] at hclock
      rw [mul64_eq_ok] at hdaySecs hwhole
      rw [add64_eq_ok] at hsecs htotal
      split_ifs at h with hrange
      · obtain rfl := Except.ok.inj h
        refine ⟨⟨hspec, htime.1, htime.2.1, htime.2.2, hmillis⟩, ?_, hrange⟩
        unfold instantOf
        omega
      · cases h
  · rintro ⟨hdt, hms, hmin, hmax⟩
    have hvalid := hdt.date
    have hday := hvalid.day_le.trans (daysInMonth_le _ _)
    have := hvalid.month_pos
    have := hvalid.month_le
    have := hvalid.day_pos
    have := hdt.hour_le
    have := hdt.minute_le
    have := hdt.second_le
    have := hdt.millisecond_le
    unfold instantOf at hms
    unfold timestampMinMs at hmin
    unfold timestampMaxMs at hmax
    have hfit : DayFits year month.toNat day.toNat := by
      unfold DayFits i64Min i64Max
      omega
    obtain ⟨hlow, hhigh⟩ := hfit
    have hsum : ∀ x : ℤ, -10 ^ 15 ≤ x ∧ x ≤ 10 ^ 15 → InI64 x := fun x hx =>
      inI64_iff.mpr (by omega)
    unfold msFromParts
    rw [if_neg (by omega), if_neg (by omega), if_neg (by omega), if_neg (by omega)]
    refine Except.bind_eq_ok_iff.mpr ⟨_, (daysFromCivil_eq_ok hy (by omega) (by omega)
      (by omega)).mpr ⟨⟨hlow, hhigh⟩, rfl⟩, ?_⟩
    refine Except.bind_eq_ok_iff.mpr ⟨_, civilFromDays_eq_ok (by omega) (by omega), ?_⟩
    rw [if_neg (not_not.mpr (civilFromDays_dayNumber hvalid))]
    refine Except.bind_eq_ok_iff.mpr ⟨_, checked_of_inI64 (hsum _ (by omega)), ?_⟩
    refine Except.bind_eq_ok_iff.mpr ⟨_, mul64_eq_ok.mpr ⟨hsum _ (by omega), rfl⟩, ?_⟩
    refine Except.bind_eq_ok_iff.mpr ⟨_, add64_eq_ok.mpr ⟨hsum _ (by omega), rfl⟩, ?_⟩
    refine Except.bind_eq_ok_iff.mpr ⟨_, mul64_eq_ok.mpr ⟨hsum _ (by omega), rfl⟩, ?_⟩
    refine Except.bind_eq_ok_iff.mpr ⟨_, add64_eq_ok.mpr ⟨hsum _ (by omega), rfl⟩, ?_⟩
    rw [if_neg (by unfold timestampMinMs timestampMaxMs; omega), hms]
    exact congrArg Except.ok (by ring)

end Docsql.Tsql
