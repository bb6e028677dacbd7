import Docsql.Expr.Runnable
import Docsql.Tsql.CalendarSteps

/-!
# The timestamp domain of the date functions

A date function returns, and a timestamp it returns has a canonical text, unless its arguments
name a date whose day does not fit in `i64`, or one of the few sums that no check stands behind.
-/

namespace Docsql.Tsql

open Docsql.Scalar (Eval Returns Stop fail index checked i64Min i64Max not_returns_overflow)
open Docsql.Lib.Civil
open Docsql.Json (timestampMinMs timestampMaxMs isValidTimestampMs)
open Docsql.Expr (Library)

/-- The call ends with a value or an error, and a timestamp of its is in the domain. -/
def Sound (x : Eval Value) : Prop :=
  Returns x ∧ ∀ ms, x = .ok (.timestamp ms) → isValidTimestampMs ms = true

/-! ## What does not fit -/

/-- The day of an instant, or the last day of a shorter month. -/
def clampDay (ms y m : ℤ) : ℤ := min (partsOf ms).day (daysInMonth y m)

/-- The date some months after that of an instant has no day in `i64`. -/
def ShiftUnfit (ms months : ℤ) (day : ℤ → ℤ → ℤ) : Prop :=
  let total := (partsOf ms).year * 12 + ((partsOf ms).month - 1) + months
  InI64 total ∧
    ¬ DayFits (total / 12) (total % 12 + 1).toNat (day (total / 12) (total % 12 + 1)).toNat

variable (lib : Library)

def ReadsDateadd (args : List Value) (part : DatePart) (n ms : ℤ) : Prop :=
  ∃ p a b pname, args = [p, a, b] ∧ textArg lib p = some pname ∧
    datepartCode lib pname = .ok part ∧ intArg a "DATEADD" 1 = .ok (some n) ∧
      tsArg lib b "DATEADD" = .ok (some ms)

def ReadsDatediff (name : String) (args : List Value) (part : DatePart) (a b : ℤ) : Prop :=
  ∃ p u v pname, args = [p, u, v] ∧ textArg lib p = some pname ∧
    datepartCode lib pname = .ok part ∧ tsArg lib u name = .ok (some a) ∧
      tsArg lib v name = .ok (some b)

def ReadsEomonth (args : List Value) (ms months : ℤ) : Prop :=
  ∃ v, (args = [v] ∧ months = 0 ∨
      ∃ o, args = [v, o] ∧ intArg o "EOMONTH" 1 = .ok (some months)) ∧
    tsArg lib v "EOMONTH" = .ok (some ms)

def ReadsParts (name : String) (args : List Value) (slots : List (Option ℕ)) (parts : List ℤ) :
    Prop :=
  args.length = 3 + slots.countP Option.isSome ∧
    readParts name args (dateSlots ++ slots) = .ok (some parts)

def PartsUnfit (name : String) (args : List Value) (slots : List (Option ℕ)) : Prop :=
  ∃ parts, ReadsParts name args slots parts ∧ ofParts Unfit parts

/-- The carried minute leaves `i64`, or the date has no day there. -/
def SmallUnfit (name : String) (args : List Value) : Prop :=
  ∃ y m d h mi s secs n, args = [y, m, d, h, mi, s] ∧ intArg s name 5 = .ok (some secs) ∧
    intArg mi name 4 = .ok (some n) ∧
      let minute := n + if 30 ≤ secs then 1 else 0
      ¬ InI64 minute ∨
        PartsUnfit name [y, m, d, h, .int (.ofInt minute)] [some 3, some 4, none, none]

/-- The date has no day in `i64`, or the fraction leads out of the domain, but not of `i64`. -/
def FractionUnfit (name : String) (minArgs : ℕ) (args : List Value) : Prop :=
  minArgs ≤ args.length ∧ ∃ fracMs parts, fracToMs name args minArgs = .ok (some fracMs) ∧
    ReadsParts name (args.take 6) [some 3, some 4, some 5, none] parts ∧
      (ofParts Unfit parts ∨
        ofParts IsDateTime parts ∧
          (timestampMinMs ≤ ofParts instantOf parts ∧ ofParts instantOf parts ≤ timestampMaxMs) ∧
            timestampMaxMs < ofParts instantOf parts + fracMs ∧
              ofParts instantOf parts + fracMs ≤ i64Max)

def Faults (f : DateFn) (args : List Value) : Prop :=
  match f with
  | .dateadd =>
    ∃ part step n ms, DatePart.months part = some step ∧ ReadsDateadd lib args part n ms ∧
      InI64 (n * step) ∧ ShiftUnfit ms (n * step) (clampDay ms)
  | .datediff | .datediffBig =>
    ∃ part a b, part ∈ [DatePart.millisecond, .microsecond, .nanosecond] ∧
      ReadsDatediff lib f.name args part a b ∧ ¬ InI64 (b - a)
  | .eomonth => ∃ ms months, ReadsEomonth lib args ms months ∧ ShiftUnfit ms months daysInMonth
  | .dateFromParts => PartsUnfit f.name args [none, none, none, none]
  | .datetimeFromParts => PartsUnfit f.name args [some 3, some 4, some 5, some 6]
  | .smalldatetimeFromParts => SmallUnfit f.name args
  | .datetime2FromParts => FractionUnfit f.name 7 args
  | .datetimeoffsetFromParts => FractionUnfit f.name 9 args
  | .datepart | .datename => False

/-! ## Sound calls -/

variable {lib}

theorem Sound.fail (text : String) : Sound (fail text) := ⟨.fail text, nofun⟩

theorem Sound.pure {v : Value} (h : ∀ ms, v ≠ .timestamp ms) : Sound (pure v) :=
  ⟨.pure v, fun ms hms => absurd (Except.ok.inj hms) (h ms)⟩

/-- Behind a step that returns, only what the rest does with its value counts. -/
theorem sound_bind_iff {α : Type} {x : Eval α} {f : α → Eval Value} (hx : Returns x) :
    Sound (x >>= f) ↔ ∀ a, x = .ok a → Sound (f a) := by
  rcases hx with ⟨a, rfl⟩ | ⟨text, rfl⟩
  · exact ⟨fun h b hb => Except.ok.inj hb ▸ h, fun h => h a rfl⟩
  · exact iff_of_true (.fail text) nofun

/-- A result that is no timestamp. -/
theorem sound_map_iff {α : Type} {x : Eval α} {f : α → Value}
    (hf : ∀ a ms, f a ≠ .timestamp ms) : Sound (do return f (← x)) ↔ Returns x := by
  constructor
  · exact fun h => h.1.of_bind
  · exact fun h => (sound_bind_iff h).mpr fun a _ => .pure (hf a)

theorem isValidTimestampMs_ofInt {ms : ℤ} (h : timestampMinMs ≤ ms ∧ ms ≤ timestampMaxMs) :
    isValidTimestampMs (.ofInt ms) = true := by
  have hvalid := h
  unfold timestampMinMs timestampMaxMs at h
  unfold isValidTimestampMs
  rw [Int64.toInt_ofInt_of_le (by omega) (by omega), ← Bool.decide_and]
  exact decide_eq_true hvalid

theorem sound_timestamp_iff {x : Eval ℤ}
    (hx : ∀ ms, x = .ok ms → timestampMinMs ≤ ms ∧ ms ≤ timestampMaxMs) :
    Sound (do return .timestamp (.ofInt (← x))) ↔ Returns x := by
  constructor
  · exact fun h => h.1.of_bind
  · refine fun h => (sound_bind_iff h).mpr fun ms hms => ⟨.pure _, fun ms' hms' => ?_⟩
    obtain rfl := Value.timestamp.inj (Except.ok.inj hms')
    exact isValidTimestampMs_ofInt (hx ms hms)

/-! ## Reading the arguments -/

theorem datepartCode_returns (name : String) : Returns (datepartCode lib name) := by
  unfold datepartCode
  dsimp only
  split
  · exact .ok _
  · exact .fail _

theorem tsArg_returns (v : Value) (fnName : String) : Returns (tsArg lib v fnName) := by
  unfold tsArg
  cases v with
  | null => exact .ok _
  | timestamp ms => exact .ok _
  | int ms =>
    dsimp only
    split_ifs
    · exact .ok _
    · exact .fail _
  | str s =>
    dsimp only
    have hsafe := Timestamp.parseTimestampMs_safe s
    split
    · exact .ok _
    · exact .fail _
    · next h => exact absurd h hsafe
  | _ => exact .fail _

theorem intArg_returns (v : Value) (fnName : String) (arg : ℕ) :
    Returns (intArg v fnName arg) := by
  unfold intArg
  split
  · exact .ok _
  · exact .ok _
  · exact .fail _

theorem intArg_range {v : Value} {fnName : String} {arg : ℕ} {n : ℤ}
    (h : intArg v fnName arg = .ok (some n)) : InI64 n := by
  unfold intArg at h
  split at h
  · cases h
  · cases h
    exact Scalar.toInt_range _
  · cases h

theorem inI64_of_valid {ms : ℤ} (h : timestampMinMs ≤ ms ∧ ms ≤ timestampMaxMs) : InI64 ms := by
  unfold timestampMinMs timestampMaxMs at h
  exact inI64_iff.mpr (by omega)

theorem tsArg_range {v : Value} {fnName : String} {ms : ℤ}
    (h : tsArg lib v fnName = .ok (some ms)) : InI64 ms := by
  unfold tsArg at h
  split at h
  · cases h
  · cases h
    exact Scalar.toInt_range _
  · split_ifs at h
    · cases h
      exact Scalar.toInt_range _
    · cases h
  · split at h
    · next hparse =>
        cases h
        exact inI64_of_valid (Timestamp.parseTimestampMs_range hparse)
    · cases h
    · cases h
  · cases h

theorem readParts_returns (name : String) (args : List Value) (slots : List (Option ℕ)) :
    Returns (readParts name args slots) := by
  induction slots with
  | nil => exact .ok _
  | cons slot slots ih =>
    cases slot with
    | none => exact ih.bind fun parts _ => .pure _
    | some slot =>
      unfold readParts
      split
      · exact ih.bind fun parts _ => .pure _
      · exact .ok _
      · exact .ok _
      · exact .fail _

theorem readParts_range {name : String} {args : List Value} {slots : List (Option ℕ)}
    {parts : List ℤ} (h : readParts name args slots = .ok (some parts)) :
    ∀ x ∈ parts, InI64 x := by
  induction slots generalizing parts with
  | nil =>
    cases h
    exact fun x hx => absurd hx List.not_mem_nil
  | cons slot slots ih =>
    have hcons : ∀ n : ℤ, InI64 n →
        (do return (← readParts name args slots).map (n :: ·)) = Except.ok (some parts) →
          ∀ x ∈ parts, InI64 x := by
      intro n hn hread
      obtain ⟨found, hfound, hmap⟩ := Except.bind_eq_ok_iff.mp hread
      obtain ⟨rest, rfl, rfl⟩ := Option.map_eq_some_iff.mp (Except.ok.inj hmap)
      intro x hx
      rcases List.mem_cons.mp hx with rfl | hx
      · exact hn
      · exact ih hfound x hx
    cases slot with
    | none => exact hcons 0 (by decide) h
    | some slot =>
      unfold readParts at h
      split at h
      · exact hcons _ (Scalar.toInt_range _) h
      · cases h
      · cases h
      · cases h

theorem fracToMs_returns (name : String) (args : List Value) (precIdx : ℕ) :
    Returns (fracToMs name args precIdx) := by
  unfold fracToMs
  split
  · exact .ok _
  · exact .ok _
  · refine (intArg_returns _ _ _).bind fun frac _ => ?_
    cases frac with
    | none => exact .pure _
    | some frac => exact .ite (fun _ => .fail _) fun _ => .pure _

theorem fracToMs_nonneg {name : String} {args : List Value} {precIdx : ℕ} {ms : ℤ}
    (h : fracToMs name args precIdx = .ok (some ms)) : 0 ≤ ms := by
  unfold fracToMs at h
  split at h
  · cases h
  · cases h
  · obtain ⟨frac, -, h⟩ := Except.bind_eq_ok_iff.mp h
    cases frac with
    | none => cases h
    | some frac =>
      dsimp only at h
      split_ifs at h with hneg
      · cases h
      · obtain rfl := Option.some.inj (Except.ok.inj h)
        apply Int.tdiv_nonneg
        · unfold Scalar.saturating i64Min i64Max
          omega
        · positivity

/-! ## Months -/

theorem daysInMonth_bounds (y m : ℤ) : 28 ≤ daysInMonth y m ∧ daysInMonth y m ≤ 31 := by
  unfold daysInMonth
  split_ifs <;> decide

theorem partsOf_ranges (ms : ℤ) :
    (1 ≤ (partsOf ms).month ∧ (partsOf ms).month ≤ 12) ∧
    (1 ≤ (partsOf ms).day ∧ (partsOf ms).day ≤ 31) ∧
    (0 ≤ (partsOf ms).hour ∧ (partsOf ms).hour ≤ 23) ∧
    (0 ≤ (partsOf ms).minute ∧ (partsOf ms).minute ≤ 59) ∧
    (0 ≤ (partsOf ms).second ∧ (partsOf ms).second ≤ 59) ∧
    0 ≤ (partsOf ms).millisecond ∧ (partsOf ms).millisecond ≤ 999 := by
  obtain ⟨m, d, hm, hd, hvalid, -⟩ := partsOf_spec ms
  have := hvalid.month_pos
  have := hvalid.month_le
  have := hvalid.day_pos
  have := hvalid.day_le.trans (daysInMonth_le _ _)
  refine ⟨by omega, by omega, ?_⟩
  change (0 ≤ ms / 1000 % 86400 / 3600 ∧ ms / 1000 % 86400 / 3600 ≤ 23) ∧
    (0 ≤ ms / 1000 % 86400 % 3600 / 60 ∧ ms / 1000 % 86400 % 3600 / 60 ≤ 59) ∧
    (0 ≤ ms / 1000 % 86400 % 60 ∧ ms / 1000 % 86400 % 60 ≤ 59) ∧ 0 ≤ ms % 1000 ∧ ms % 1000 ≤ 999
  omega

/-- The months of an instant, counted from the year 0. -/
theorem monthCount_eq_ok {ms : ℤ} (h : InI64 ms) :
    (do add64 (← mul64 (partsOf ms).year 12) (← checked ((partsOf ms).month - 1))) =
      .ok ((partsOf ms).year * 12 + ((partsOf ms).month - 1)) := by
  obtain ⟨-, -, hyear⟩ := partsOf_bounds h
  obtain ⟨hmonth, -⟩ := partsOf_ranges ms
  have hsum : ∀ x : ℤ, -10 ^ 15 ≤ x ∧ x ≤ 10 ^ 15 → InI64 x := fun x hx =>
    inI64_iff.mpr (by omega)
  refine Except.bind_eq_ok_iff.mpr ⟨_, mul64_eq_ok.mpr ⟨hsum _ (by omega), rfl⟩, ?_⟩
  refine Except.bind_eq_ok_iff.mpr ⟨_, checked_of_inI64 (hsum _ (by omega)), ?_⟩
  exact add64_eq_ok.mpr ⟨hsum _ (by omega), rfl⟩

/-- A date some months on, at a time of day. -/
theorem shift_returns_iff {ms months hour minute second millisecond : ℤ} {day : ℤ → ℤ → ℤ}
    (hday : ∀ y m, 1 ≤ day y m ∧ day y m ≤ 31)
    (hhour : 0 ≤ hour ∧ hour ≤ 23) (hminute : 0 ≤ minute ∧ minute ≤ 59)
    (hsecond : 0 ≤ second ∧ second ≤ 59) (hmillis : 0 ≤ millisecond ∧ millisecond ≤ 999) :
    Returns (do
      let total ← add64 ((partsOf ms).year * 12 + ((partsOf ms).month - 1)) months
      msFromParts (total / 12) (total % 12 + 1) (day (total / 12) (total % 12 + 1)) hour minute
        second millisecond) ↔ ¬ ShiftUnfit ms months day := by
  unfold ShiftUnfit
  generalize (partsOf ms).year * 12 + ((partsOf ms).month - 1) = start
  dsimp only
  by_cases hfit : InI64 (start + months)
  swap
  · refine iff_of_true ?_ fun h => hfit h.1
    refine (add64_returns _ _).bind fun total htotal => ?_
    exact absurd (add64_eq_ok.mp htotal).1 hfit
  rw [add64_eq_ok.mpr ⟨hfit, rfl⟩]
  change Returns (msFromParts _ _ _ _ _ _ _) ↔ _
  have hyear : InI64 ((start + months) / 12) := by
    rw [inI64_iff] at hfit ⊢
    omega
  rw [msFromParts_returns_iff hyear, not_iff_not]
  constructor
  · exact fun h => ⟨hfit, h.unfit⟩
  · exact fun h => ⟨by omega, hhour, hminute, hsecond, hmillis, hday _ _, h.2⟩

/-! ## Instants moved and compared -/

theorem clampDay_bounds (ms y m : ℤ) : 1 ≤ clampDay ms y m ∧ clampDay ms y m ≤ 31 := by
  have hlen := daysInMonth_bounds y m
  obtain ⟨-, hday, -⟩ := partsOf_ranges ms
  unfold clampDay
  omega

theorem addMonths_returns_iff {n step ms : ℤ} (h : InI64 ms) :
    Returns (addMonths (partsOf ms) n step) ↔
      ¬ (InI64 (n * step) ∧ ShiftUnfit ms (n * step) (clampDay ms)) := by
  obtain ⟨-, -, hhour, hminute, hsecond, hmillis⟩ := partsOf_ranges ms
  obtain ⟨year, hyear, hcount⟩ := Except.bind_eq_ok_iff.mp (monthCount_eq_ok h)
  obtain ⟨month, hmonth, hcount⟩ := Except.bind_eq_ok_iff.mp hcount
  unfold addMonths
  rw [hyear, ok_bind, hmonth, ok_bind, hcount, ok_bind]
  by_cases hmul : InI64 (n * step)
  · rw [mul64_eq_ok.mpr ⟨hmul, rfl⟩, and_iff_right hmul]
    exact @shift_returns_iff ms (n * step) _ _ _ _ (clampDay ms) (clampDay_bounds ms) hhour hminute
      hsecond hmillis
  · refine iff_of_true ?_ fun hboth => hmul hboth.1
    refine (mul64_returns _ _).bind fun months hmonths => ?_
    exact absurd (mul64_eq_ok.mp hmonths).1 hmul

theorem dateadd_returns_iff {part : DatePart} {n ms : ℤ} (h : InI64 ms) :
    Returns (dateadd part n ms) ↔
      ¬ ∃ step, part.months = some step ∧ InI64 (n * step) ∧
        ShiftUnfit ms (n * step) (clampDay ms) := by
  have hfinal (x : Eval ℤ) : Returns (do
      let out ← x
      if ¬(timestampMinMs ≤ out ∧ out ≤ timestampMaxMs) then
        fail "DATEADD result out of the supported timestamp range"
      else pure out) ↔ Returns x :=
    ⟨Returns.of_bind, fun hx => hx.bind fun out _ => .ite (fun _ => .fail _) fun _ => .pure _⟩
  have hdays (step : ℤ) : Returns (addDays ms n step) :=
    (mul64_returns _ _).bind fun _ _ => (mul64_returns _ _).bind fun _ _ => add64_returns _ _
  have hunits (unit : ℤ) : Returns (addUnits ms n unit) :=
    (mul64_returns _ _).bind fun _ _ => add64_returns _ _
  have hmonths (step : ℤ) (hstep : part.months = some step) :
      (¬ ∃ step, part.months = some step ∧ InI64 (n * step) ∧
        ShiftUnfit ms (n * step) (clampDay ms)) ↔
      ¬ (InI64 (n * step) ∧ ShiftUnfit ms (n * step) (clampDay ms)) := by
    rw [hstep]
    simp only [Option.some.injEq, exists_eq_left']
  unfold dateadd
  rw [tsParts_eq_ok h, ok_bind, hfinal]
  cases part with
  | year => exact (addMonths_returns_iff h).trans (hmonths 12 rfl).symm
  | quarter => exact (addMonths_returns_iff h).trans (hmonths 3 rfl).symm
  | month => exact (addMonths_returns_iff h).trans (hmonths 1 rfl).symm
  | day => exact iff_of_true (hdays 1) nofun
  | dayOfYear => exact iff_of_true (hdays 1) nofun
  | weekday => exact iff_of_true (hdays 1) nofun
  | week => exact iff_of_true (hdays 7) nofun
  | hour => exact iff_of_true (hunits _) nofun
  | minute => exact iff_of_true (hunits _) nofun
  | second => exact iff_of_true (hunits _) nofun
  | millisecond => exact iff_of_true (add64_returns _ _) nofun
  | microsecond => exact iff_of_true (add64_returns _ _) nofun
  | nanosecond => exact iff_of_true (add64_returns _ _) nofun

theorem dateadd_valid {part : DatePart} {n ms out : ℤ} (h : dateadd part n ms = .ok out) :
    timestampMinMs ≤ out ∧ out ≤ timestampMaxMs := by
  obtain ⟨p, -, h⟩ := Except.bind_eq_ok_iff.mp h
  obtain ⟨out', -, h⟩ := Except.bind_eq_ok_iff.mp h
  split_ifs at h with hrange
  · cases h
    exact hrange
  · cases h

theorem partsOf_weekday (ms : ℤ) : 1 ≤ (partsOf ms).weekday ∧ (partsOf ms).weekday ≤ 7 := by
  change 1 ≤ (ms / 1000 / 86400 + 4) % 7 + 1 ∧ (ms / 1000 / 86400 + 4) % 7 + 1 ≤ 7
  omega

/-- Only differences in milliseconds can overflow. -/
theorem datediff_returns_iff {part : DatePart} {a b : ℤ} (ha : InI64 a) (hb : InI64 b) :
    Returns (datediff part a b) ↔
      ¬ (part ∈ [DatePart.millisecond, .microsecond, .nanosecond] ∧ ¬ InI64 (b - a)) := by
  have hsmall {x : ℤ} (hx : -2 * 10 ^ 16 ≤ x ∧ x ≤ 2 * 10 ^ 16) : Returns (checked x) := by
    rw [checked_of_inI64 (inI64_iff.mpr (by omega))]
    exact .ok _
  have hdiff : Returns (checked (b - a)) ↔ InI64 (b - a) := by
    constructor
    · intro h
      by_contra hnot
      rw [Scalar.checked_overflow hnot] at h
      exact not_returns_overflow h
    · exact fun h => by rw [checked_of_inI64 h]; exact .ok _
  have hscaled (unit : ℤ) : Returns (do mul64 (← checked (b - a)) unit) ↔ InI64 (b - a) :=
    ⟨fun h => hdiff.mp h.of_bind, fun h => (hdiff.mpr h).bind fun _ _ => mul64_returns _ _⟩
  obtain ⟨hlow, hhigh, hyear⟩ := partsOf_bounds ha
  obtain ⟨hlow', hhigh', hyear'⟩ := partsOf_bounds hb
  obtain ⟨hmonth, -⟩ := partsOf_ranges a
  obtain ⟨hmonth', -⟩ := partsOf_ranges b
  have hweekday := partsOf_weekday a
  have hweekday' := partsOf_weekday b
  rw [inI64_iff] at ha hb
  unfold datediff
  rw [tsParts_eq_ok (inI64_iff.mpr ha), ok_bind, tsParts_eq_ok (inI64_iff.mpr hb), ok_bind]
  cases part with
  | year => exact iff_of_true (hsmall (by omega)) fun h => absurd h.1 (by decide)
  | quarter => exact iff_of_true (hsmall (by omega)) fun h => absurd h.1 (by decide)
  | month => exact iff_of_true (hsmall (by omega)) fun h => absurd h.1 (by decide)
  | day => exact iff_of_true (hsmall (by omega)) fun h => absurd h.1 (by decide)
  | dayOfYear => exact iff_of_true (hsmall (by omega)) fun h => absurd h.1 (by decide)
  | weekday => exact iff_of_true (hsmall (by omega)) fun h => absurd h.1 (by decide)
  | week =>
    refine iff_of_true ((hsmall ?_).bind fun _ _ => .pure _) fun h => absurd h.1 (by decide)
    unfold TsParts.sunday
    omega
  | hour => exact iff_of_true (hsmall (by omega)) fun h => absurd h.1 (by decide)
  | minute => exact iff_of_true (hsmall (by omega)) fun h => absurd h.1 (by decide)
  | second => exact iff_of_true (hsmall (by omega)) fun h => absurd h.1 (by decide)
  | millisecond => exact hdiff.trans (by simp)
  | microsecond => exact (hscaled 1000).trans (by simp)
  | nanosecond => exact (hscaled 1000000).trans (by simp)

theorem datepartValue_returns (part : DatePart) {ms : ℤ} (h : InI64 ms) :
    Returns (datepartValue part ms) := by
  have hsmall {x : ℤ} (hx : -2 * 10 ^ 16 ≤ x ∧ x ≤ 2 * 10 ^ 16) : Returns (checked x) := by
    rw [checked_of_inI64 (inI64_iff.mpr (by omega))]
    exact .ok _
  obtain ⟨hlow, hhigh, hyear⟩ := partsOf_bounds h
  have hfirst := newYear_bounds hyear
  have hdoy : (partsOf ms).doy =
    (partsOf ms).days - Timestamp.daysFromCivil (partsOf ms).year 1 1 + 1 := rfl
  obtain ⟨-, -, -, -, -, hmillis⟩ := partsOf_ranges ms
  unfold datepartValue
  rw [tsParts_eq_ok h, ok_bind]
  cases part with
  | week => exact (hsmall (by omega)).bind fun _ _ => .pure _
  | microsecond => exact hsmall (by omega)
  | nanosecond => exact hsmall (by omega)
  | _ => exact .pure _

theorem index_returns {α : Type} {xs : List α} {i : ℕ} (h : i < xs.length) :
    Returns (index xs i) := by
  rw [Scalar.index_ok h]
  exact .ok _

theorem datenameOf_sound (part : DatePart) {ms : ℤ} (h : InI64 ms) :
    Sound (datenameOf part ms) := by
  have hname (xs : List String) (x : Eval ℤ)
      (hx : ∀ n, x = .ok n → (n - 1).toNat < xs.length) (hret : Returns x) :
      Sound (do return .str (← index xs ((← x) - 1).toNat)) := by
    refine (sound_bind_iff hret).mpr fun n hn => ?_
    exact (sound_map_iff fun _ _ h => by cases h).mpr (index_returns (hx n hn))
  have hret (p : DatePart) := datepartValue_returns p h
  obtain ⟨hmonth, -⟩ := partsOf_ranges ms
  have hweekday := partsOf_weekday ms
  unfold datenameOf
  split
  · refine hname _ _ (fun n hn => ?_) (hret _)
    rw [datepartValue, tsParts_eq_ok h] at hn
    obtain rfl := Except.ok.inj hn
    change ((partsOf ms).month - 1).toNat < 12
    omega
  · refine hname _ _ (fun n hn => ?_) (hret _)
    rw [datepartValue, tsParts_eq_ok h] at hn
    obtain rfl := Except.ok.inj hn
    change ((partsOf ms).weekday - 1).toNat < 7
    omega
  · exact (sound_map_iff fun _ _ h => by cases h).mpr (hret _)

/-! ## The family -/

variable (lib)

theorem dateaddCall_sound_iff {args : List Value} {f : DatePart → ℤ → ℤ → Eval Value} :
    Sound (threeArgDate lib args "DATEADD" f) ↔
      ∀ part n ms, ReadsDateadd lib args part n ms → Sound (f part n ms) := by
  unfold threeArgDate
  split
  · next p a b =>
    cases hname : textArg lib p with
    | none =>
      refine iff_of_true (.pure nofun) fun part n ms hreads => ?_
      obtain ⟨p', a', b', pname, hargs, hname', -⟩ := hreads
      cases hargs
      cases hname.symm.trans hname'
    | some pname =>
      dsimp only
      rw [sound_bind_iff (datepartCode_returns _)]
      simp only [sound_bind_iff (intArg_returns _ _ _), sound_bind_iff (tsArg_returns _ _)]
      constructor
      · rintro h part n ms ⟨p', a', b', pname', hargs, hname', hpart, hn, hms⟩
        cases hargs
        cases hname.symm.trans hname'
        exact h part hpart (some n) hn (some ms) hms
      · intro h part hpart n hn ms hms
        cases n with
        | none => exact .pure nofun
        | some n =>
          cases ms with
          | none => exact .pure nofun
          | some ms => exact h part n ms ⟨p, a, b, pname, rfl, hname, hpart, hn, hms⟩
  · next hshape =>
    refine iff_of_true (.fail _) fun part n ms hreads => ?_
    obtain ⟨p, a, b, pname, hargs, -⟩ := hreads
    exact absurd hargs (hshape p a b)

theorem datediffCall_sound_iff {args : List Value} {name : String} :
    Sound (datediffCall lib name args) ↔
      ∀ part a b, ReadsDatediff lib name args part a b → Returns (datediff part a b) := by
  unfold datediffCall
  split
  · next p u v =>
    cases hname : textArg lib p with
    | none =>
      refine iff_of_true (.pure nofun) fun part a b hreads => ?_
      obtain ⟨p', u', v', pname, hargs, hname', -⟩ := hreads
      cases hargs
      cases hname.symm.trans hname'
    | some pname =>
      dsimp only
      rw [sound_bind_iff (datepartCode_returns _)]
      simp only [sound_bind_iff (tsArg_returns _ _)]
      constructor
      · rintro h part a b ⟨p', u', v', pname', hargs, hname', hpart, ha, hb⟩
        cases hargs
        cases hname.symm.trans hname'
        exact (sound_map_iff fun _ _ h => by cases h).mp
          (h part hpart (some a) ha (some b) hb)
      · intro h part hpart a ha b hb
        cases a with
        | none => exact .pure nofun
        | some a =>
          cases b with
          | none => exact .pure nofun
          | some b =>
            exact (sound_map_iff fun _ _ h => by cases h).mpr
              (h part a b ⟨p, u, v, pname, rfl, hname, hpart, ha, hb⟩)
  · next hshape =>
    refine iff_of_true (.fail _) fun part a b hreads => ?_
    obtain ⟨p, u, v, pname, hargs, -⟩ := hreads
    exact absurd hargs (hshape p u v)

theorem twoArgDatepart_sound {args : List Value} {name : String} {f : DatePart → ℤ → Eval Value}
    (hf : ∀ part ms, InI64 ms → Sound (f part ms)) : Sound (twoArgDatepart lib args name f) := by
  unfold twoArgDatepart
  split
  · split
    · exact .pure nofun
    · refine (sound_bind_iff (datepartCode_returns _)).mpr fun part _ => ?_
      refine (sound_bind_iff (tsArg_returns _ _)).mpr fun ms hms => ?_
      cases ms with
      | none => exact .pure nofun
      | some ms => exact hf part ms (tsArg_range hms)
  · exact .fail _

theorem eomonth_sound_iff {v : Value} {months : ℤ} :
    Sound (eomonth lib v months) ↔
      ∀ ms, tsArg lib v "EOMONTH" = .ok (some ms) → ¬ ShiftUnfit ms months daysInMonth := by
  unfold eomonth
  rw [sound_bind_iff (tsArg_returns _ _)]
  have hreads : ∀ ms, tsArg lib v "EOMONTH" = .ok (some ms) →
      (Sound (do
        let p ← tsParts ms
        let total ← add64 (← add64 (← mul64 p.year 12) (← checked (p.month - 1))) months
        let y := total / 12
        let m := total % 12 + 1
        return .timestamp (.ofInt (← msFromParts y m (daysInMonth y m) 0 0 0 0))) ↔
          ¬ ShiftUnfit ms months daysInMonth) := by
    intro ms hms
    have hrange := tsArg_range hms
    obtain ⟨year, hyear, hcount⟩ := Except.bind_eq_ok_iff.mp (monthCount_eq_ok hrange)
    obtain ⟨month, hmonth, hcount⟩ := Except.bind_eq_ok_iff.mp hcount
    have hday : ∀ y m, 1 ≤ daysInMonth y m ∧ daysInMonth y m ≤ 31 := fun y m =>
      ⟨(daysInMonth_bounds y m).1.trans' (by decide), (daysInMonth_bounds y m).2⟩
    have hshift := @shift_returns_iff ms months 0 0 0 0 daysInMonth hday (by decide) (by decide)
      (by decide) (by decide)
    rw [tsParts_eq_ok hrange, ok_bind, hyear, ok_bind, hmonth, ok_bind, hcount, ok_bind,
      ← hshift]
    generalize (partsOf ms).year * 12 + ((partsOf ms).month - 1) = start
    by_cases hfit : InI64 (start + months)
    · rw [add64_eq_ok.mpr ⟨hfit, rfl⟩, ok_bind, ok_bind]
      refine sound_timestamp_iff fun out hout => ?_
      have hyear : InI64 ((start + months) / 12) := by
        rw [inI64_iff] at hfit ⊢
        omega
      exact ((msFromParts_eq_ok hyear).mp hout).2.2
    · rw [add64_overflow hfit]
      exact iff_of_true (.fail _) (.fail _)
  constructor
  · exact fun h ms hms => (hreads ms hms).mp (h (some ms) hms)
  · intro h ms hms
    cases ms with
    | none => exact .pure nofun
    | some ms => exact (hreads ms hms).mpr (h ms hms)

theorem ofParts_returns_iff {name : String} {args : List Value} {slots : List (Option ℕ)}
    {parts : List ℤ} (h : readParts name args slots = .ok (some parts)) :
    (Returns (ofParts msFromParts parts) ↔ ¬ ofParts Unfit parts) ∧
      ∀ ms, ofParts msFromParts parts = .ok ms ↔
        ofParts IsDateTime parts ∧ ms = ofParts instantOf parts ∧
          timestampMinMs ≤ ms ∧ ms ≤ timestampMaxMs := by
  have hyear : InI64 (parts.getD 0 0) := by
    cases parts with
    | nil => decide
    | cons x xs => exact readParts_range h x List.mem_cons_self
  exact ⟨msFromParts_returns_iff hyear, fun ms => msFromParts_eq_ok hyear⟩

theorem fromPartsCall_sound_iff {name : String} {args : List Value} {slots : List (Option ℕ)} :
    Sound (fromPartsCall name args slots) ↔ ¬ PartsUnfit name args slots := by
  unfold fromPartsCall PartsUnfit ReadsParts
  dsimp only
  split_ifs with harity
  · refine iff_of_true (.fail _) ?_
    rintro ⟨parts, hreads, -⟩
    exact harity hreads.1
  rw [not_not] at harity
  rw [sound_bind_iff (readParts_returns _ _ _)]
  constructor
  · rintro h ⟨parts, ⟨-, hreads⟩, hunfit⟩
    obtain ⟨hreturns, hok⟩ := ofParts_returns_iff hreads
    have hsound := h (some parts) hreads
    have hvalid := sound_timestamp_iff fun ms hms => ((hok ms).mp hms).2.2
    exact hreturns.mp (hvalid.mp hsound) hunfit
  · intro h parts hreads
    cases parts with
    | none => exact .pure nofun
    | some parts =>
      obtain ⟨hreturns, hok⟩ := ofParts_returns_iff hreads
      refine (sound_timestamp_iff fun ms hms => ((hok ms).mp hms).2.2).mpr (hreturns.mpr ?_)
      exact fun hunfit => h ⟨parts, ⟨harity, hreads⟩, hunfit⟩

theorem smalldatetimeFromParts_sound_iff {name : String} {args : List Value} :
    Sound (smalldatetimeFromParts name args) ↔ ¬ SmallUnfit name args := by
  unfold smalldatetimeFromParts SmallUnfit
  split
  · next y m d h mi s =>
    rw [sound_bind_iff (intArg_returns _ _ _)]
    have hcarry : ∀ minute : ℤ,
        Sound (checked minute >>= fun minute =>
          fromPartsCall name [y, m, d, h, .int (.ofInt minute)] [some 3, some 4, none, none]) ↔
        ¬ (¬ InI64 minute ∨
          PartsUnfit name [y, m, d, h, .int (.ofInt minute)] [some 3, some 4, none, none]) := by
      intro minute
      by_cases hfit : InI64 minute
      · rw [checked_of_inI64 hfit, ok_bind, fromPartsCall_sound_iff]
        exact not_congr ⟨.inr, fun h => h.resolve_left (not_not.mpr hfit)⟩
      · rw [Scalar.checked_overflow hfit]
        exact iff_of_false (fun h => not_returns_overflow h.1) (not_not.mpr (.inl hfit))
    constructor
    · rintro hsound ⟨y', m', d', h', mi', s', secs, n, hargs, hsecs, hn, hunfit⟩
      cases hargs
      have hrest := hsound (some secs) hsecs
      dsimp only at hrest
      rw [sound_bind_iff (intArg_returns _ _ _)] at hrest
      exact (hcarry _).mp (hrest (some n) hn) hunfit
    · intro hfit secs hsecs
      cases secs with
      | none => exact .pure nofun
      | some secs =>
        dsimp only
        refine (sound_bind_iff (intArg_returns _ _ _)).mpr fun n hn => ?_
        cases n with
        | none => exact .pure nofun
        | some n =>
          refine (hcarry _).mpr fun hunfit => hfit ?_
          exact ⟨y, m, d, h, mi, s, secs, n, rfl, hsecs, hn, hunfit⟩
  · next hshape =>
    refine iff_of_true (.fail _) ?_
    rintro ⟨y, m, d, h, mi, s, secs, n, hargs, -⟩
    exact hshape y m d h mi s hargs

/-- The fraction added to an instant of the domain. -/
theorem fraction_sound_iff {ms fracMs : ℤ} (hms : timestampMinMs ≤ ms ∧ ms ≤ timestampMaxMs)
    (hfrac : 0 ≤ fracMs) :
    Sound (do return .timestamp (.ofInt (← add64 (Int64.ofInt ms).toInt fracMs))) ↔
      ¬ (timestampMaxMs < ms + fracMs ∧ ms + fracMs ≤ i64Max) := by
  have hmin := hms.1
  unfold timestampMinMs at hmin
  have hrange := inI64_iff.mp (inI64_of_valid hms)
  rw [Int64.toInt_ofInt_of_le (by omega) (by omega)]
  by_cases hfit : InI64 (ms + fracMs)
  swap
  · rw [add64_overflow hfit]
    refine iff_of_true (.fail _) fun h => hfit ⟨?_, h.2⟩
    unfold i64Min
    omega
  rw [add64_eq_ok.mpr ⟨hfit, rfl⟩, ok_bind]
  have hwide := inI64_iff.mp hfit
  have hsum : (Int64.ofInt (ms + fracMs)).toInt = ms + fracMs :=
    Int64.toInt_ofInt_of_le (by omega) (by omega)
  constructor
  · rintro h ⟨hover, -⟩
    have hvalid := h.2 _ rfl
    unfold isValidTimestampMs at hvalid
    rw [hsum, Bool.and_eq_true, decide_eq_true_eq, decide_eq_true_eq] at hvalid
    omega
  · refine fun h => ⟨.pure _, fun out hout => ?_⟩
    obtain rfl := Value.timestamp.inj (Except.ok.inj hout)
    apply isValidTimestampMs_ofInt
    have hmax : ms + fracMs ≤ timestampMaxMs := by
      by_contra hnot
      exact h ⟨not_le.mp hnot, hfit.2⟩
    exact ⟨hms.1.trans (by omega), hmax⟩

/-- The last step of DATETIME2FROMPARTS: the fraction is added to the instant of the parts. -/
theorem addFraction_sound_iff {name : String} {minArgs : ℕ} {args : List Value} {fracMs : ℤ}
    (hlen : (args.take 6).length = 6) (hfrac : fracToMs name args minArgs = .ok (some fracMs)) :
    Sound (do
      match ← fromPartsCall name (args.take 6) [some 3, some 4, some 5, none] with
      | .timestamp ms => return .timestamp (.ofInt (← add64 ms.toInt fracMs))
      | other => pure other) ↔
    ∀ parts, ReadsParts name (args.take 6) [some 3, some 4, some 5, none] parts →
      ¬ (ofParts Unfit parts ∨ ofParts IsDateTime parts ∧
        (timestampMinMs ≤ ofParts instantOf parts ∧ ofParts instantOf parts ≤ timestampMaxMs) ∧
          timestampMaxMs < ofParts instantOf parts + fracMs ∧
            ofParts instantOf parts + fracMs ≤ i64Max) := by
  have hnonneg := fracToMs_nonneg hfrac
  unfold fromPartsCall ReadsParts
  rw [hlen]
  dsimp only
  rw [if_neg (by decide)]
  rcases readParts_returns name (args.take 6) (dateSlots ++ [some 3, some 4, some 5, none])
    with ⟨found, hread⟩ | ⟨text, hread⟩
  swap
  · rw [hread]
    exact iff_of_true (.fail text) fun parts hreads => by cases hreads.2
  rw [hread, ok_bind]
  cases found with
  | none => exact iff_of_true (.pure fun _ h => by cases h) fun parts hreads => by cases hreads.2
  | some parts =>
    obtain ⟨hreturns, hok⟩ := ofParts_returns_iff hread
    dsimp only
    by_cases hunfit : ofParts Unfit parts
    · exact iff_of_false (fun h => hreturns.mp h.1.of_bind.of_bind hunfit)
        fun h => h parts ⟨rfl, rfl⟩ (.inl hunfit)
    rcases hreturns.mpr hunfit with ⟨ms, hms⟩ | ⟨text, htext⟩
    · obtain ⟨hdt, hinstant, hrange⟩ := (hok ms).mp hms
      rw [hms, ok_bind]
      refine (fraction_sound_iff hrange hnonneg).trans ?_
      rw [hinstant] at hrange ⊢
      constructor
      · rintro h parts' ⟨-, hsame⟩ hor
        obtain rfl := Option.some.inj (Except.ok.inj hsame)
        exact hor.elim hunfit fun hover => h hover.2.2
      · exact fun h hover => h parts ⟨rfl, rfl⟩ (.inr ⟨hdt, hrange, hover⟩)
    · rw [htext]
      refine iff_of_true (.fail text) ?_
      rintro parts' ⟨-, hsame⟩ hor
      obtain rfl := Option.some.inj (Except.ok.inj hsame)
      refine hor.elim hunfit fun hover => ?_
      cases htext.symm.trans ((hok _).mpr ⟨hover.1, rfl, hover.2.1⟩)

theorem datetime2FromParts_sound_iff {name : String} {minArgs : ℕ} {args : List Value}
    (hmin : 6 ≤ minArgs) :
    Sound (datetime2FromParts name minArgs args) ↔ ¬ FractionUnfit name minArgs args := by
  unfold datetime2FromParts FractionUnfit
  split_ifs with harity
  · exact iff_of_true (.fail _) fun h => absurd h.1 (not_le.mpr harity)
  rw [not_lt] at harity
  have hlen : (args.take 6).length = 6 := by
    rw [List.length_take]
    omega
  rw [sound_bind_iff (fracToMs_returns _ _ _)]
  constructor
  · rintro h ⟨-, fracMs, parts, hfrac, hreads, hunfit⟩
    exact (addFraction_sound_iff hlen hfrac).mp (h (some fracMs) hfrac) parts hreads hunfit
  · intro h fracMs hfrac
    cases fracMs with
    | none => exact .pure fun _ h => by cases h
    | some fracMs =>
      refine (addFraction_sound_iff hlen hfrac).mpr fun parts hreads hunfit => h ?_
      exact ⟨harity, fracMs, parts, hfrac, hreads, hunfit⟩

theorem dateadd_sound_iff {args : List Value} :
    Sound (dateFunction lib .dateadd args) ↔ ¬ Faults lib .dateadd args := by
  have hcall {part : DatePart} {n ms : ℤ} (hreads : ReadsDateadd lib args part n ms) :
      Sound (do return .timestamp (.ofInt (← dateadd part n ms))) ↔
        ¬ ∃ step, part.months = some step ∧ InI64 (n * step) ∧
          ShiftUnfit ms (n * step) (clampDay ms) := by
    obtain ⟨p, a, b, pname, -, -, -, -, hms⟩ := hreads
    exact (sound_timestamp_iff fun _ => dateadd_valid).trans
      (dateadd_returns_iff (tsArg_range hms))
  refine (dateaddCall_sound_iff lib).trans ?_
  constructor
  · rintro h ⟨part, step, n, ms, hstep, hreads, hmul, hshift⟩
    exact (hcall hreads).mp (h part n ms hreads) ⟨step, hstep, hmul, hshift⟩
  · refine fun h part n ms hreads => (hcall hreads).mpr ?_
    rintro ⟨step, hstep, hmul, hshift⟩
    exact h ⟨part, step, n, ms, hstep, hreads, hmul, hshift⟩

theorem datediff_sound_iff {name : String} {args : List Value} :
    Sound (datediffCall lib name args) ↔
      ¬ ∃ part a b, part ∈ [DatePart.millisecond, .microsecond, .nanosecond] ∧
        ReadsDatediff lib name args part a b ∧ ¬ InI64 (b - a) := by
  have hcall {part : DatePart} {a b : ℤ} (hreads : ReadsDatediff lib name args part a b) :
      Returns (datediff part a b) ↔
        ¬ (part ∈ [DatePart.millisecond, .microsecond, .nanosecond] ∧ ¬ InI64 (b - a)) := by
    obtain ⟨p, u, v, pname, -, -, -, ha, hb⟩ := hreads
    exact datediff_returns_iff (tsArg_range ha) (tsArg_range hb)
  refine (datediffCall_sound_iff lib).trans ?_
  constructor
  · rintro h ⟨part, a, b, hpart, hreads, hover⟩
    exact (hcall hreads).mp (h part a b hreads) ⟨hpart, hover⟩
  · refine fun h part a b hreads => (hcall hreads).mpr ?_
    rintro ⟨hpart, hover⟩
    exact h ⟨part, a, b, hpart, hreads, hover⟩

theorem dateFunction_eomonth (args : List Value) :
    dateFunction lib .eomonth args =
      match args with
      | [v] => eomonth lib v 0
      | [v, o] => do
        match ← intArg o "EOMONTH" 1 with
        | some n => eomonth lib v n
        | none => pure .null
      | _ => fail "function EOMONTH takes 1 or 2 arguments" := rfl

theorem eomonthCall_sound_iff {args : List Value} :
    Sound (dateFunction lib .eomonth args) ↔ ¬ Faults lib .eomonth args := by
  change _ ↔ ¬ ∃ ms months, ReadsEomonth lib args ms months ∧ ShiftUnfit ms months daysInMonth
  rw [dateFunction_eomonth]
  split
  · next v =>
    rw [eomonth_sound_iff]
    constructor
    · rintro h ⟨ms, months, ⟨v', hargs, hms⟩, hshift⟩
      obtain ⟨hargs, rfl⟩ | ⟨o, hargs, -⟩ := hargs
      · cases hargs
        exact h ms hms hshift
      · cases hargs
    · exact fun h ms hms hshift => h ⟨ms, 0, ⟨v, .inl ⟨rfl, rfl⟩, hms⟩, hshift⟩
  · next v o =>
    rw [sound_bind_iff (intArg_returns _ _ _)]
    constructor
    · rintro h ⟨ms, months, ⟨v', hargs, hms⟩, hshift⟩
      obtain ⟨hargs, -⟩ | ⟨o, hargs, hmonths⟩ := hargs
      · cases hargs
      · cases hargs
        exact (eomonth_sound_iff lib).mp (h (some months) hmonths) ms hms hshift
    · intro h months hmonths
      cases months with
      | none => exact .pure fun _ h => by cases h
      | some months =>
        refine (eomonth_sound_iff lib).mpr fun ms hms hshift => h ?_
        exact ⟨ms, months, ⟨v, .inr ⟨o, rfl, hmonths⟩, hms⟩, hshift⟩
  · next hone htwo =>
    refine iff_of_true (.fail _) ?_
    rintro ⟨ms, months, ⟨v, ⟨hargs, -⟩ | ⟨o, hargs, -⟩, -⟩, -⟩
    · exact hone v hargs
    · exact htwo v o hargs

/-- A date function keeps to the domain on exactly the arguments that name no such date or
sum. -/
theorem dateFunction_sound_iff (f : DateFn) (args : List Value) :
    Sound (dateFunction lib f args) ↔ ¬ Faults lib f args := by
  cases f with
  | dateadd => exact dateadd_sound_iff lib
  | datediff => exact datediff_sound_iff lib
  | datediffBig => exact datediff_sound_iff lib
  | datepart =>
    refine iff_of_true (twoArgDatepart_sound lib fun part ms hms => ?_) not_false
    exact (sound_map_iff fun _ _ h => by cases h).mpr (datepartValue_returns part hms)
  | datename => exact iff_of_true (twoArgDatepart_sound lib fun _ _ => datenameOf_sound _) not_false
  | eomonth => exact eomonthCall_sound_iff lib
  | dateFromParts => exact fromPartsCall_sound_iff
  | datetimeFromParts => exact fromPartsCall_sound_iff
  | smalldatetimeFromParts => exact smalldatetimeFromParts_sound_iff
  | datetime2FromParts => exact datetime2FromParts_sound_iff (by decide)
  | datetimeoffsetFromParts => exact datetime2FromParts_sound_iff (by decide)

/-- Ten million ten-millionths behind the last second of the domain are the first instant
outside it, and no day of the greatest year fits. -/
theorem lastSecond_carried :
    dateFunction Expr.sampleLibrary.engine .datetime2FromParts
        [.int 9999, .int 12, .int 31, .int 23, .int 59, .int 59, .int 10000000] =
      .ok (.timestamp 253402300800000) ∧
    isValidTimestampMs 253402300800000 = false ∧
    dateFunction Expr.sampleLibrary.engine .dateFromParts [.int Int64.maxValue, .int 1, .int 1] =
      .error .overflow ∧
    ¬ ∀ f args, Sound (dateFunction Expr.sampleLibrary.engine f args) := by
  have hlast : dateFunction Expr.sampleLibrary.engine .datetime2FromParts
      [.int 9999, .int 12, .int 31, .int 23, .int 59, .int 59, .int 10000000] =
        .ok (.timestamp 253402300800000) := by rfl
  have hinvalid : isValidTimestampMs 253402300800000 = false := by decide
  refine ⟨hlast, hinvalid, by rfl, fun h => ?_⟩
  exact Bool.false_ne_true (hinvalid.symm.trans ((h _ _).2 _ hlast))

end Docsql.Tsql
