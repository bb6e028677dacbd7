import Docsql.Tsql.DateDomain

/-!
# DATEADD and DATEDIFF

Every part has an axis, and an instant a position on it.  DATEDIFF is a difference of positions,
DATEADD a step along the axis; steps by months clamp the day, and the clamp can put a later
instant before an earlier one of the same day.
-/

namespace Docsql.Tsql

open Docsql.Scalar (Returns checked)
open Docsql.Lib.Civil
open Docsql.Json (timestampMinMs timestampMaxMs)

def InDomain (ms : ℤ) : Prop := timestampMinMs ≤ ms ∧ ms ≤ timestampMaxMs

instance (ms : ℤ) : Decidable (InDomain ms) := inferInstanceAs (Decidable (_ ∧ _))

theorem InDomain.inI64 {ms : ℤ} (h : InDomain ms) : InI64 ms := inI64_of_valid h

/-- The parts down to milliseconds. -/
def DatePart.Counted (part : DatePart) : Prop := part ≠ .microsecond ∧ part ≠ .nanosecond

instance (part : DatePart) : Decidable part.Counted := inferInstanceAs (Decidable (_ ∧ _))

/-- The milliseconds of a part that has a fixed length. -/
def DatePart.unit : DatePart → ℤ
  | .week => 604800000
  | .hour => 3600000
  | .minute => 60000
  | .second => 1000
  | .millisecond => 1
  | _ => 86400000

/-- The boundaries of a part up to an instant. -/
def DatePart.position (part : DatePart) (ms : ℤ) : ℤ :=
  match part with
  | .year => (partsOf ms).year
  | .quarter => (partsOf ms).year * 4 + ((partsOf ms).month - 1) / 3
  | .month => (partsOf ms).year * 12 + (partsOf ms).month
  | .day | .dayOfYear | .weekday => (partsOf ms).days
  | .week => ((partsOf ms).days + 4) / 7
  | .hour => ms / 3600000
  | .minute => ms / 60000
  | .second => ms / 1000
  | .millisecond => ms
  | .microsecond => ms * 1000
  | .nanosecond => ms * 1000000

/-! ## Days of instants -/

theorem partsOf_days (ms : ℤ) : (partsOf ms).days = ms / 1000 / 86400 := rfl

theorem partsOf_sunday (ms : ℤ) :
    (partsOf ms).sunday = ((partsOf ms).days + 4) / 7 * 7 - 4 := by
  have hweekday : (partsOf ms).weekday = ((partsOf ms).days + 4) % 7 + 1 := rfl
  unfold TsParts.sunday
  omega

/-- The days of instants are ordered as their dates are. -/
theorem days_lt_iff (a b : ℤ) :
    (partsOf a).days < (partsOf b).days ↔
      (partsOf a).year < (partsOf b).year ∨ (partsOf a).year = (partsOf b).year ∧
        ((partsOf a).month < (partsOf b).month ∨ (partsOf a).month = (partsOf b).month ∧
          (partsOf a).day < (partsOf b).day) := by
  obtain ⟨m, d, hm, hd, hvalid, hday⟩ := partsOf_spec a
  obtain ⟨m', d', hm', hd', hvalid', hday'⟩ := partsOf_spec b
  have hlt := dayNumber_lt_iff hvalid hvalid'
  rw [hday, hday', add_lt_add_iff_right] at hlt
  rw [hlt, hm, hd, hm', hd']
  omega

theorem days_le {a b : ℤ} (h : a ≤ b) : (partsOf a).days ≤ (partsOf b).days := by
  rw [partsOf_days, partsOf_days]
  omega

theorem position_mono (part : DatePart) {a b : ℤ} (h : a ≤ b) :
    part.position a ≤ part.position b := by
  have hdays := days_le h
  have hdates := days_lt_iff b a
  obtain ⟨hmonth, -⟩ := partsOf_ranges a
  obtain ⟨hmonth', -⟩ := partsOf_ranges b
  have hnot : ¬ (partsOf b).days < (partsOf a).days := not_lt.mpr hdays
  rw [hdates] at hnot
  cases part with
  | year =>
    change (partsOf a).year ≤ (partsOf b).year
    omega
  | quarter =>
    change (partsOf a).year * 4 + ((partsOf a).month - 1) / 3 ≤
      (partsOf b).year * 4 + ((partsOf b).month - 1) / 3
    omega
  | month =>
    change (partsOf a).year * 12 + (partsOf a).month ≤
      (partsOf b).year * 12 + (partsOf b).month
    omega
  | day => exact hdays
  | dayOfYear => exact hdays
  | weekday => exact hdays
  | week =>
    change ((partsOf a).days + 4) / 7 ≤ ((partsOf b).days + 4) / 7
    omega
  | hour => exact Int.ediv_le_ediv (by decide) h
  | minute => exact Int.ediv_le_ediv (by decide) h
  | second => exact Int.ediv_le_ediv (by decide) h
  | millisecond => exact h
  | microsecond => exact mul_le_mul_of_nonneg_right h (by decide)
  | nanosecond => exact mul_le_mul_of_nonneg_right h (by decide)

/-! ## DATEDIFF -/

theorem datediff_eq {part : DatePart} {a b : ℤ} (hpart : part.Counted) (ha : InDomain a)
    (hb : InDomain b) : datediff part a b = .ok (part.position b - part.position a) := by
  have hsmall {x : ℤ} (hx : -2 * 10 ^ 16 ≤ x ∧ x ≤ 2 * 10 ^ 16) : checked x = .ok x :=
    checked_of_inI64 (inI64_iff.mpr (by omega))
  obtain ⟨hlow, hhigh, hyear⟩ := partsOf_bounds ha.inI64
  obtain ⟨hlow', hhigh', hyear'⟩ := partsOf_bounds hb.inI64
  obtain ⟨hmonth, -⟩ := partsOf_ranges a
  obtain ⟨hmonth', -⟩ := partsOf_ranges b
  unfold datediff
  rw [tsParts_eq_ok ha.inI64, ok_bind, tsParts_eq_ok hb.inI64, ok_bind]
  unfold InDomain timestampMinMs timestampMaxMs at ha hb
  cases part with
  | year => exact hsmall (by omega)
  | quarter => exact hsmall (by omega)
  | month => exact hsmall (by omega)
  | day => exact hsmall (by omega)
  | dayOfYear => exact hsmall (by omega)
  | weekday => exact hsmall (by omega)
  | week =>
    have hweeks : (partsOf b).sunday - (partsOf a).sunday =
        (((partsOf b).days + 4) / 7 - ((partsOf a).days + 4) / 7) * 7 := by
      rw [partsOf_sunday, partsOf_sunday]
      ring
    dsimp only
    rw [hweeks, hsmall (by omega), ok_bind, Int.mul_tdiv_cancel _ (by decide)]
    rfl
  | hour => exact hsmall (by omega)
  | minute => exact hsmall (by omega)
  | second => exact hsmall (by omega)
  | millisecond => exact hsmall (by omega)
  | microsecond => exact absurd rfl hpart.1
  | nanosecond => exact absurd rfl hpart.2

/-! ## DATEADD -/

theorem partsOf_instantOf {year month day hour minute second millisecond : ℤ}
    (h : IsDateTime year month day hour minute second millisecond) :
    let p := partsOf (instantOf year month day hour minute second millisecond)
    (p.year = year ∧ p.month = month ∧ p.day = day) ∧
      p.hour = hour ∧ p.minute = minute ∧ p.second = second ∧ p.millisecond = millisecond := by
  obtain ⟨hvalid, hhour, hminute, hsecond, hmillis⟩ := h
  have := hvalid.month_pos
  have := hvalid.day_pos
  have hdays : instantOf year month day hour minute second millisecond / 1000 / 86400 =
      dayNumber year month.toNat day.toNat - 719468 := by
    unfold instantOf
    omega
  have hdate := civilFromDays_dayNumber hvalid
  unfold partsOf
  dsimp only
  rw [hdays, hdate]
  refine ⟨⟨rfl, Int.toNat_of_nonneg (by omega), Int.toNat_of_nonneg (by omega)⟩, ?_⟩
  unfold instantOf
  omega

/-- Days and time of day. -/
theorem instant_eq (ms : ℤ) :
    ms = (partsOf ms).days * 86400000 + (partsOf ms).hour * 3600000 +
      (partsOf ms).minute * 60000 + (partsOf ms).second * 1000 + (partsOf ms).millisecond := by
  change ms = ms / 1000 / 86400 * 86400000 + ms / 1000 % 86400 / 3600 * 3600000 +
    ms / 1000 % 86400 % 3600 / 60 * 60000 + ms / 1000 % 86400 % 60 * 1000 + ms % 1000
  omega

theorem le_of_days_lt {a b : ℤ} (h : (partsOf a).days < (partsOf b).days) : a ≤ b := by
  by_contra hnot
  exact absurd (days_le (not_le.mp hnot).le) (not_le.mpr h)

/-- What a step by months has found. -/
theorem addMonths_eq_ok {n step a b : ℤ} (ha : InI64 a)
    (h : addMonths (partsOf a) n step = .ok b) :
    InDomain b ∧
    (partsOf b).year * 12 + (partsOf b).month =
      (partsOf a).year * 12 + (partsOf a).month + n * step ∧
    (partsOf b).day = min (partsOf a).day (daysInMonth (partsOf b).year (partsOf b).month) ∧
    (partsOf b).hour = (partsOf a).hour ∧ (partsOf b).minute = (partsOf a).minute ∧
    (partsOf b).second = (partsOf a).second ∧
    (partsOf b).millisecond = (partsOf a).millisecond := by
  obtain ⟨year, hyear, hcount⟩ := Except.bind_eq_ok_iff.mp (monthCount_eq_ok ha)
  obtain ⟨month, hmonth, hcount⟩ := Except.bind_eq_ok_iff.mp hcount
  unfold addMonths at h
  rw [hyear, ok_bind, hmonth, ok_bind, hcount, ok_bind] at h
  obtain ⟨months, hmonths, h⟩ := Except.bind_eq_ok_iff.mp h
  obtain ⟨-, rfl⟩ := mul64_eq_ok.mp hmonths
  obtain ⟨total, htotal, h⟩ := Except.bind_eq_ok_iff.mp h
  obtain ⟨hfit, htotal⟩ := add64_eq_ok.mp htotal
  have hyear : InI64 (total / 12) := by
    rw [htotal, inI64_iff] at hfit
    rw [inI64_iff]
    omega
  obtain ⟨hdt, hb, hdomain⟩ := (msFromParts_eq_ok hyear).mp h
  obtain ⟨⟨hy, hm, hd⟩, htime⟩ := partsOf_instantOf hdt
  rw [← hb] at hy hm hd htime
  refine ⟨hdomain, ?_, ?_, htime⟩
  · rw [hy, hm, ← htotal]
    omega
  · rw [hy, hm, hd]

theorem dateadd_eq_ok {part : DatePart} {n a b : ℤ} (ha : InI64 a)
    (h : dateadd part n a = .ok b) : InDomain b ∧
      (∀ step, part.months = some step → addMonths (partsOf a) n step = .ok b) ∧
        (part.months = none → part.Counted → b = a + n * part.unit ∧
          part.position b = part.position a + n) := by
  have hdomain := dateadd_valid h
  have hdays {step : ℤ} (h : addDays a n step = .ok b) : b = a + n * (step * 86400000) := by
    obtain ⟨units, hunits, h⟩ := Except.bind_eq_ok_iff.mp h
    obtain ⟨days, hdays, h⟩ := Except.bind_eq_ok_iff.mp h
    obtain ⟨-, rfl⟩ := mul64_eq_ok.mp hunits
    obtain ⟨-, rfl⟩ := mul64_eq_ok.mp hdays
    rw [← (add64_eq_ok.mp h).2, mul_assoc]
  have hunits {unit : ℤ} (h : addUnits a n unit = .ok b) : b = a + n * unit := by
    obtain ⟨units, hunits, h⟩ := Except.bind_eq_ok_iff.mp h
    obtain ⟨-, rfl⟩ := mul64_eq_ok.mp hunits
    exact (add64_eq_ok.mp h).2.symm
  unfold dateadd at h
  rw [tsParts_eq_ok ha, ok_bind] at h
  obtain ⟨out, hout, h⟩ := Except.bind_eq_ok_iff.mp h
  split_ifs at h
  swap
  · cases h
  obtain rfl := Except.ok.inj h
  refine ⟨hdomain, ?_⟩
  cases part with
  | year => exact ⟨fun step hstep => Option.some.inj hstep ▸ hout, nofun⟩
  | quarter => exact ⟨fun step hstep => Option.some.inj hstep ▸ hout, nofun⟩
  | month => exact ⟨fun step hstep => Option.some.inj hstep ▸ hout, nofun⟩
  | day =>
    have hb := hdays hout
    refine ⟨nofun, fun _ _ => ⟨hb, ?_⟩⟩
    change (partsOf out).days = (partsOf a).days + n
    rw [partsOf_days, partsOf_days]
    omega
  | dayOfYear =>
    have hb := hdays hout
    refine ⟨nofun, fun _ _ => ⟨hb, ?_⟩⟩
    change (partsOf out).days = (partsOf a).days + n
    rw [partsOf_days, partsOf_days]
    omega
  | weekday =>
    have hb := hdays hout
    refine ⟨nofun, fun _ _ => ⟨hb, ?_⟩⟩
    change (partsOf out).days = (partsOf a).days + n
    rw [partsOf_days, partsOf_days]
    omega
  | week =>
    have hb := hdays hout
    refine ⟨nofun, fun _ _ => ⟨hb, ?_⟩⟩
    change ((partsOf out).days + 4) / 7 = ((partsOf a).days + 4) / 7 + n
    rw [partsOf_days, partsOf_days]
    omega
  | hour =>
    have hb := hunits hout
    refine ⟨nofun, fun _ _ => ⟨hb, ?_⟩⟩
    change out / 3600000 = a / 3600000 + n
    omega
  | minute =>
    have hb := hunits hout
    refine ⟨nofun, fun _ _ => ⟨hb, ?_⟩⟩
    change out / 60000 = a / 60000 + n
    omega
  | second =>
    have hb := hunits hout
    refine ⟨nofun, fun _ _ => ⟨hb, ?_⟩⟩
    change out / 1000 = a / 1000 + n
    omega
  | millisecond =>
    have hb := (add64_eq_ok.mp hout).2.symm
    exact ⟨nofun, fun _ _ => ⟨hb.trans (by rw [DatePart.unit, mul_one]), hb⟩⟩
  | microsecond => exact ⟨nofun, fun _ hpart => absurd rfl hpart.1⟩
  | nanosecond => exact ⟨nofun, fun _ hpart => absurd rfl hpart.2⟩

theorem position_dateadd {part : DatePart} {n a b : ℤ} (hpart : part.Counted) (ha : InI64 a)
    (h : dateadd part n a = .ok b) : part.position b = part.position a + n := by
  obtain ⟨-, hmonths, hunits⟩ := dateadd_eq_ok ha h
  obtain ⟨hmonth, -⟩ := partsOf_ranges a
  obtain ⟨hmonth', -⟩ := partsOf_ranges b
  cases hsteps : part.months with
  | none =>
    exact (hunits hsteps hpart).2
  | some step =>
    obtain ⟨-, hcount, -⟩ := addMonths_eq_ok ha (hmonths step hsteps)
    cases part with
    | year =>
      obtain rfl := Option.some.inj hsteps
      change (partsOf b).year = (partsOf a).year + n
      omega
    | quarter =>
      obtain rfl := Option.some.inj hsteps
      change (partsOf b).year * 4 + ((partsOf b).month - 1) / 3 =
        (partsOf a).year * 4 + ((partsOf a).month - 1) / 3 + n
      omega
    | month =>
      obtain rfl := Option.some.inj hsteps
      change (partsOf b).year * 12 + (partsOf b).month =
        (partsOf a).year * 12 + (partsOf a).month + n
      omega
    | _ => cases hsteps

/-- A later start ends later, but on a common last day of a month. -/
theorem dateadd_mono {part : DatePart} {n a a' b b' : ℤ} (hpart : part.Counted) (ha : InI64 a)
    (ha' : InI64 a') (hle : a ≤ a') (h : dateadd part n a = .ok b)
    (h' : dateadd part n a' = .ok b') :
    b ≤ b' ∨ part.months.isSome ∧ (partsOf b).days = (partsOf b').days ∧
      (partsOf a).days < (partsOf a').days ∧ (partsOf b').day < (partsOf a').day := by
  obtain ⟨-, hmonths, hunits⟩ := dateadd_eq_ok ha h
  obtain ⟨-, hmonths', hunits'⟩ := dateadd_eq_ok ha' h'
  cases hsteps : part.months with
  | none =>
    have hb := (hunits hsteps hpart).1
    have hb' := (hunits' hsteps hpart).1
    left
    rw [hb, hb']
    exact Int.add_le_add_right hle _
  | some step =>
    obtain ⟨-, hcount, hday, hhour, hminute, hsecond, hmillis⟩ :=
      addMonths_eq_ok ha (hmonths step hsteps)
    obtain ⟨-, hcount', hday', hhour', hminute', hsecond', hmillis'⟩ :=
      addMonths_eq_ok ha' (hmonths' step hsteps)
    obtain ⟨ma, -⟩ := partsOf_ranges a
    obtain ⟨ma', -⟩ := partsOf_ranges a'
    obtain ⟨mb, -⟩ := partsOf_ranges b
    obtain ⟨mb', -⟩ := partsOf_ranges b'
    have hnot := not_lt.mpr (days_le hle)
    rw [days_lt_iff] at hnot
    by_cases hearlier : (partsOf a).year * 12 + (partsOf a).month <
        (partsOf a').year * 12 + (partsOf a').month
    · exact .inl (le_of_days_lt ((days_lt_iff b b').mpr (by omega)))
    -- Both start in one month, and so both end in one.
    obtain ⟨hyear, hmonth⟩ : (partsOf a).year = (partsOf a').year ∧
        (partsOf a).month = (partsOf a').month := by omega
    obtain ⟨hyearb, hmonthb⟩ : (partsOf b).year = (partsOf b').year ∧
        (partsOf b).month = (partsOf b').month := by omega
    rw [hyearb, hmonthb] at hday
    generalize daysInMonth (partsOf b').year (partsOf b').month = last at hday hday'
    have hstart : (partsOf a).day ≤ (partsOf a').day := by omega
    by_cases hlater : (partsOf b).day < (partsOf b').day
    · exact .inl (le_of_days_lt ((days_lt_iff b b').mpr (.inr ⟨hyearb, .inr ⟨hmonthb, hlater⟩⟩)))
    have hsame : (partsOf b).days = (partsOf b').days := by
      have h1 := days_lt_iff b b'
      have h2 := days_lt_iff b' b
      omega
    rcases hstart.lt_or_eq with hbefore | hday
    · right
      refine ⟨rfl, hsame, (days_lt_iff a a').mpr (.inr ⟨hyear, .inr ⟨hmonth, hbefore⟩⟩), ?_⟩
      omega
    · left
      have hdays : (partsOf a).days = (partsOf a').days := by
        have h1 := days_lt_iff a a'
        have h2 := days_lt_iff a' a
        omega
      have hb := instant_eq b
      have hb' := instant_eq b'
      have ha := instant_eq a
      have ha' := instant_eq a'
      omega

/-! ## The two together -/

/-- What DATEADD and DATEDIFF by a part have to do with each other. -/
structure StepsAgree (part : DatePart) : Prop where
  back : ∀ n a b, InDomain a → dateadd part n a = .ok b → datediff part a b = .ok n
  additive : ∀ a b c, InDomain a → InDomain b → InDomain c → ∃ i j,
    datediff part a b = .ok i ∧ datediff part b c = .ok j ∧ datediff part a c = .ok (i + j)
  mono_count : ∀ n n' a b b', InDomain a → n ≤ n' → dateadd part n a = .ok b →
    dateadd part n' a = .ok b' → b ≤ b'
  mono_start : ∀ n a a' b b', InDomain a → InDomain a' → a ≤ a' → dateadd part n a = .ok b →
    dateadd part n a' = .ok b' →
      b ≤ b' ∨ part.months.isSome ∧ (partsOf b).days = (partsOf b').days ∧
        (partsOf a).days < (partsOf a').days ∧ (partsOf b').day < (partsOf a').day
  clamped : ∀ n a b step, InDomain a → part.months = some step → dateadd part n a = .ok b →
    (partsOf b).year * 12 + (partsOf b).month =
      (partsOf a).year * 12 + (partsOf a).month + n * step ∧
    (partsOf b).day = min (partsOf a).day (daysInMonth (partsOf b).year (partsOf b).month) ∧
    (partsOf b).hour = (partsOf a).hour ∧ (partsOf b).minute = (partsOf a).minute ∧
    (partsOf b).second = (partsOf a).second ∧
    (partsOf b).millisecond = (partsOf a).millisecond

theorem dateadd_datediff {part : DatePart} (hpart : part.Counted) : StepsAgree part where
  back n a b ha h := by
    rw [datediff_eq hpart ha (dateadd_valid h), position_dateadd hpart ha.inI64 h,
      add_sub_cancel_left]
  additive a b c ha hb hc := by
    refine ⟨_, _, datediff_eq hpart ha hb, datediff_eq hpart hb hc, ?_⟩
    rw [datediff_eq hpart ha hc]
    exact congrArg Except.ok (by ring)
  mono_count n n' a b b' ha hle h h' := by
    have hb := position_dateadd hpart ha.inI64 h
    have hb' := position_dateadd hpart ha.inI64 h'
    rcases hle.lt_or_eq with hlt | rfl
    · by_contra hnot
      have hposition := position_mono part (not_le.mp hnot).le
      omega
    · exact (Except.ok.inj (h.symm.trans h')).le
  mono_start n a a' b b' ha ha' hle h h' := dateadd_mono hpart ha.inI64 ha'.inI64 hle h h'
  clamped n a b step ha hstep h :=
    (addMonths_eq_ok ha.inI64 ((dateadd_eq_ok ha.inI64 h).2.1 step hstep)).2

theorem dateadd_datediff_month : StepsAgree .month := dateadd_datediff (by decide)

/-- A month after 30 January at eleven in the evening and 31 January at one in the morning is
the same day of February. -/
theorem later_start_ends_earlier :
    dateadd .month 1 1675119600000 = .ok 1677625200000 ∧
    dateadd .month 1 1675126800000 = .ok 1677546000000 ∧
    ¬ ∀ n a a' b b', InDomain a → InDomain a' → a ≤ a' → dateadd .month n a = .ok b →
      dateadd .month n a' = .ok b' → b ≤ b' := by
  have hevening : dateadd .month 1 1675119600000 = .ok 1677625200000 := by rfl
  have hmorning : dateadd .month 1 1675126800000 = .ok 1677546000000 := by rfl
  refine ⟨hevening, hmorning, fun h => ?_⟩
  have hle := h _ _ _ _ _ (by decide) (by decide) (by decide) hevening hmorning
  exact absurd hle (by decide)

end Docsql.Tsql
