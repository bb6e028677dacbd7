import Docsql.Timestamp.Parse

/-!
# Text of the canonical domain

Between `TIMESTAMP_MIN_MS` and `TIMESTAMP_MAX_MS` the year has four digits.  The text
then has a fixed width, is read back as it was written, and is ordered like the instants.
-/

namespace Docsql.Timestamp

open Docsql.Json (timestampMinMs timestampMaxMs)
open Docsql.Lib.Civil Docsql.Lib.Digits Docsql.Lib.Utf8

/-- An instant with its calendar fields. -/
structure Fields where
  y : ℕ
  mo : ℕ
  d : ℕ
  hh : ℕ
  mm : ℕ
  ss : ℕ
  ms : ℕ

namespace Fields

structure InRange (f : Fields) : Prop where
  year_pos : 1 ≤ f.y
  year_le : f.y ≤ 9999
  date : Valid f.y f.mo f.d
  hour : f.hh ≤ 23
  minute : f.mm ≤ 59
  second : f.ss ≤ 59
  milli : f.ms ≤ 999

def instant (f : Fields) : ℤ :=
  (((daysFromCivil f.y f.mo f.d * 24 + f.hh) * 60 + f.mm) * 60 + f.ss) * 1000 + f.ms

def text (f : Fields) : List Char :=
  fixedDigits 4 f.y ++ '-' :: (fixedDigits 2 f.mo ++ '-' :: (fixedDigits 2 f.d ++
    'T' :: (fixedDigits 2 f.hh ++ ':' :: (fixedDigits 2 f.mm ++ ':' :: (fixedDigits 2 f.ss ++
      '.' :: (fixedDigits 3 f.ms ++ ['Z']))))))

end Fields

/-- The domain is exactly the years 1 to 9999. -/
theorem year_range {y : ℤ} {m d : ℕ} (h : Valid y m d) 
    (hmin : -719162 ≤ daysFromCivil y m d) (hmax : daysFromCivil y m d ≤ 2932896) :
    1 ≤ y ∧ y ≤ 9999 := by
  rw [daysFromCivil_eq y m h.day_pos] at hmin hmax
  have hfirst : Valid 1 1 1 := ⟨by decide, by decide, by decide, by decide⟩
  have hlast : Valid 9999 12 31 := ⟨by decide, by decide, by decide, by decide⟩
  have hfirstday : dayNumber 1 1 1 = 306 := by decide
  have hlastday : dayNumber 9999 12 31 = 3652364 := by decide
  constructor
  · by_contra hy
    have := (dayNumber_lt_iff h hfirst).mpr (.inl (by omega))
    omega
  · by_contra hy
    have := (dayNumber_lt_iff hlast h).mpr (.inl (by omega))
    omega

/-- An instant of the domain has calendar fields, and its text shows them. -/
theorem exists_fields {ms : ℤ} (hmin : timestampMinMs ≤ ms) (hmax : ms ≤ timestampMaxMs) :
    ∃ f : Fields, f.InRange ∧ f.instant = ms ∧ (formatTimestampMs ms).toList = f.text := by
  unfold timestampMinMs at hmin
  unfold timestampMaxMs at hmax
  obtain ⟨hvalid, hdays⟩ := civilFromDays_spec (ms / 1000 / 86400)
  obtain ⟨⟨y, mo, d⟩, hdate⟩ : ∃ date, date = civilFromDays (ms / 1000 / 86400) := ⟨_, rfl⟩
  rw [← hdate] at hvalid hdays
  dsimp only at hvalid hdays
  have hyear := year_range hvalid (by rw [hdays]; omega) (by rw [hdays]; omega)
  obtain ⟨year, rfl⟩ := Int.eq_ofNat_of_zero_le (show 0 ≤ y by omega)
  have hday := hvalid.day_le.trans (daysInMonth_le _ _)
  have hmo := hvalid.month_le
  obtain ⟨rem, hrem⟩ := Int.eq_ofNat_of_zero_le (show 0 ≤ ms / 1000 % 86400 by omega)
  obtain ⟨millis, hmillis⟩ := Int.eq_ofNat_of_zero_le (show 0 ≤ ms % 1000 by omega)
  have hparts : ms = ((ms / 1000 / 86400 * 86400 + rem) * 1000 + millis : ℤ) := by omega
  have hremlt : rem < 86400 := by omega
  have hmillislt : millis < 1000 := by omega
  refine ⟨⟨year, mo, d, rem / 3600, rem % 3600 / 60, rem % 60, millis⟩,
    ⟨Int.ofNat_le.mp hyear.1, Int.ofNat_le.mp hyear.2, hvalid, ?_, ?_, ?_, ?_⟩, ?_, ?_⟩
  · show rem / 3600 ≤ 23
    omega
  · show rem % 3600 / 60 ≤ 59
    omega
  · show rem % 60 ≤ 59
    omega
  · show millis ≤ 999
    omega
  · show (((daysFromCivil year mo d * 24 + (rem / 3600 : ℕ)) * 60 + (rem % 3600 / 60 : ℕ)) * 60 +
      (rem % 60 : ℕ)) * 1000 + millis = ms
    rw [hparts, hdays]
    omega
  · unfold formatTimestampMs
    dsimp only
    rw [← hdate, hrem, hmillis]
    dsimp only
    rw [Int.toNat_natCast, Int.toNat_natCast, String.toList_ofList, padInt, if_neg (by omega),
      Int.natAbs_natCast, padDigits_eq (by decide) (by omega), padDigits_eq (by decide) (by omega),
      padDigits_eq (by decide) (by omega), padDigits_eq (by decide) (by omega),
      padDigits_eq (by decide) (by omega), padDigits_eq (by decide) (by omega),
      padDigits_eq (by decide) (by omega)]
    rfl

/-! ## Reading the text back -/

namespace Fields

variable {f : Fields}

theorem length_text (f : Fields) : f.text.length = 24 := rfl

theorem ascii_text (f : Fields) : Ascii f.text := by
  have hmark : ∀ {c : Char} {rest : List Char}, c.utf8Size = 1 → Ascii rest →
      Ascii (c :: rest) := by
    intro c rest hc hrest c' hc'
    rcases List.mem_cons.mp hc' with rfl | hc'
    · exact hc
    · exact hrest c' hc'
  exact (ascii_fixedDigits 4 _).append (hmark rfl ((ascii_fixedDigits 2 _).append (hmark rfl
    ((ascii_fixedDigits 2 _).append (hmark rfl ((ascii_fixedDigits 2 _).append (hmark rfl
    ((ascii_fixedDigits 2 _).append (hmark rfl ((ascii_fixedDigits 2 _).append (hmark rfl
    ((ascii_fixedDigits 3 _).append (hmark rfl fun _ hc => nomatch hc)))))))))))))

theorem isWhitespace_digit {c : Char} (h : c.isDigit = true) : isWhitespace c = false := by
  simp only [Char.isDigit, Bool.and_eq_true, decide_eq_true_eq, UInt32.le_iff_toNat_le] at h
  have hlow : 48 ≤ c.toNat := h.1
  have hhigh : c.toNat ≤ 57 := h.2
  simp [isWhitespace]
  omega

theorem trim_text (f : Fields) : trim f.text = f.text := by
  have hfirst : ∃ c rest, f.text = c :: rest ∧ isWhitespace c = false :=
    ⟨_, _, rfl, isWhitespace_digit (isDigit_of_mem_fixedDigits (w := 4) (n := f.y) _
      List.mem_cons_self)⟩
  have hlast : ∃ front, f.text = front ++ ['Z'] := ⟨f.text.take 23, rfl⟩
  obtain ⟨c, rest, htext, hc⟩ := hfirst
  obtain ⟨front, hfront⟩ := hlast
  rw [trim, htext, List.dropWhile_cons_of_neg (by simp [hc]), ← htext, hfront,
    List.reverse_append, List.reverse_singleton, List.singleton_append,
    List.dropWhile_cons_of_neg (by decide), List.reverse_cons, List.reverse_reverse]

theorem parseI64_fixedDigits {w n : ℕ} (hw : 0 < w) (hle : w ≤ 4) (hn : n < 10 ^ w) :
    parseI64 (fixedDigits w n) = .ok n := by
  have hne : fixedDigits w n ≠ [] := by
    rw [← List.length_pos_iff, length_fixedDigits]
    exact hw
  have hall : allDigits (fixedDigits w n) = true := List.all_eq_true.mpr isDigit_of_mem_fixedDigits
  have hlt : n < 2 ^ 63 := hn.trans_le ((Nat.pow_le_pow_right (by decide) hle).trans (by decide))
  rw [parseI64, ofDigits_fixedDigits hn, if_pos ⟨hne, hall, hlt⟩]

/-- A field is read at its place. -/
theorem num_text {start stop w n : ℕ} (hw : 0 < w) (hle : w ≤ 4) (hn : n < 10 ^ w)
    (hstart : start ≤ 24) (hstop : stop - start ≤ 24 - start)
    (h : (f.text.drop start).take (stop - start) = fixedDigits w n) :
    num f.text start stop = .ok n := by
  have hdrop : Ascii (f.text.drop start) := fun c hc => ascii_text f c (List.mem_of_mem_drop hc)
  have hall : allDigits (fixedDigits w n) = true := List.all_eq_true.mpr isDigit_of_mem_fixedDigits
  have hne : (fixedDigits w n).isEmpty = false := by
    rw [List.isEmpty_eq_false_iff, ← List.length_pos_iff, length_fixedDigits]
    exact hw
  rw [num, (ascii_text f).dropBytes_eq (by rw [length_text]; exact hstart), Option.bind_some,
    hdrop.takeBytes_eq (by rw [List.length_drop, length_text]; exact hstop), h]
  dsimp only
  rw [hne, hall, if_neg (by decide), parseI64_fixedDigits hw hle hn]

theorem byteAt_eq {s : List Char} {i : ℕ} {c : Char} (hs : Ascii s) (h : s[i]? = some c) :
    byteAt (toBytes s) i = .ok c.val.toUInt8 := by
  rw [byteAt, hs.toBytes_eq, List.getElem?_map, h]
  rfl

theorem lengths_getElem? (y : ℕ) {mo : ℕ} (hpos : 1 ≤ mo) (hle : mo ≤ 12) :
    [31, if (y % 4 = 0 ∧ y % 100 ≠ 0) ∨ y % 400 = 0 then 29 else 28, 31, 30, 31, 30, 31, 31, 30,
      31, 30, 31][mo - 1]? = some (daysInMonth y mo) := by
  have hleap : (y % 4 = 0 ∧ y % 100 ≠ 0) ∨ y % 400 = 0 ↔ Leap y := by
    unfold Leap
    omega
  rw [daysInMonth, if_congr hleap rfl rfl, List.getD_eq_getElem?_getD]
  generalize (if Leap (y : ℤ) then 29 else 28) = feb
  have hlt : mo - 1 < [31, feb, 31, 30, 31, 30, 31, 31, 30, 31, 30, 31].length := by
    rw [show [31, feb, 31, 30, 31, 30, 31, 31, 30, 31, 30, 31].length = 12 from rfl]
    omega
  rw [List.getElem?_eq_getElem hlt, Option.getD_some]

theorem parseDate_text (hf : f.InRange) : parseDate f.text = .ok (f.y, f.mo, f.d) := by
  have hlen : (toBytes f.text).length = 24 := by
    rw [length_toBytes, (ascii_text f).byteLen_eq, length_text]
  have hmo := hf.date.month_le
  have hd := hf.date.day_le.trans (daysInMonth_le _ _)
  have hy := hf.year_le
  unfold parseDate
  dsimp only
  rw [if_neg (by omega)]
  refine Except.bind_eq_ok_iff.mpr ⟨_, byteAt_eq (ascii_text f) (i := 4) (c := '-') rfl, ?_⟩
  refine Except.bind_eq_ok_iff.mpr ⟨_, byteAt_eq (ascii_text f) (i := 7) (c := '-') rfl, ?_⟩
  rw [if_neg (by decide)]
  refine Except.bind_eq_ok_iff.mpr ⟨f.y, num_text (w := 4) (by decide) (by decide) (by omega)
    (by decide) (by decide) rfl, ?_⟩
  refine Except.bind_eq_ok_iff.mpr ⟨f.mo, num_text (w := 2) (by decide) (by decide) (by omega)
    (by decide) (by decide) rfl, ?_⟩
  refine Except.bind_eq_ok_iff.mpr ⟨f.d, num_text (w := 2) (by decide) (by decide) (by omega)
    (by decide) (by decide) rfl, ?_⟩
  have hpos := hf.date.month_pos
  have hday := hf.date.day_pos
  have hdim := hf.date.day_le
  have hypos := hf.year_pos
  rw [if_neg (by omega), lengths_getElem? f.y hpos hmo]
  dsimp only
  rw [if_neg (by omega)]
  rfl

theorem splitTime_text (f : Fields) :
    splitTime f.text = .ok ((f.text.drop 11).take 12, 0) := by
  have hrest : dropBytes 10 f.text = some (f.text.drop 10) :=
    (ascii_text f).dropBytes_eq (by rw [length_text]; decide)
  have htime : Ascii (f.text.drop 11) := fun c hc => ascii_text f c (List.mem_of_mem_drop hc)
  have hlen : byteLen (f.text.drop 11) = 13 := by
    rw [htime.byteLen_eq, List.length_drop, length_text]
  have hlast : (toBytes (f.text.drop 11)).getLast? = some 'Z'.val.toUInt8 := by
    rw [htime.toBytes_eq, List.getLast?_map]
    rfl
  rw [splitTime, hrest]
  dsimp only
  rw [if_pos (.inl rfl)]
  refine Except.bind_eq_ok_iff.mpr ⟨f.text.drop 11, sliceFrom_eq (dropBytes_cons_one rfl _), ?_⟩
  rw [splitOffset, hlast]
  dsimp only
  rw [if_pos (.inl rfl), hlen,
    sliceTo_eq (htime.takeBytes_eq (n := 12) (by rw [List.length_drop, length_text]; decide))]
  rfl

theorem parseClock_text (hf : f.InRange) :
    parseClock f.text ((f.text.drop 11).take 12) = .ok ⟨f.hh, f.mm, f.ss, f.ms⟩ := by
  have hclock : Ascii ((f.text.drop 11).take 12) := fun c hc =>
    ascii_text f c (List.mem_of_mem_drop (List.mem_of_mem_take hc))
  have hlen : (toBytes ((f.text.drop 11).take 12)).length = 12 := by
    rw [length_toBytes, hclock.byteLen_eq]
    rfl
  have hhour := hf.hour
  have hminute := hf.minute
  have hsecond := hf.second
  have hmilli := hf.milli
  have hms : parseMillis (fixedDigits 3 f.ms) = .ok f.ms := by
    have hall : allDigits (fixedDigits 3 f.ms) = true :=
      List.all_eq_true.mpr isDigit_of_mem_fixedDigits
    have hthree := ascii_fixedDigits 3 f.ms
    rw [parseMillis, if_neg (by rw [hall]; exact Bool.false_ne_true), hthree.byteLen_eq,
      length_fixedDigits]
    refine Except.bind_eq_ok_iff.mpr ⟨fixedDigits 3 f.ms, ?_,
      parseI64_fixedDigits (by decide) (by decide) (by omega)⟩
    exact sliceTo_eq (hthree.takeBytes_eq (n := 3) le_rfl)
  unfold parseClock
  dsimp only
  rw [if_neg (by omega), if_neg (by omega), if_neg (by omega), if_pos (by omega)]
  refine Except.bind_eq_ok_iff.mpr ⟨_, byteAt_eq hclock (i := 2) (c := ':') rfl, ?_⟩
  refine Except.bind_eq_ok_iff.mpr ⟨_, byteAt_eq hclock (i := 5) (c := ':') rfl, ?_⟩
  refine Except.bind_eq_ok_iff.mpr ⟨_, byteAt_eq hclock (i := 8) (c := '.') rfl, ?_⟩
  rw [if_neg (by decide)]
  refine Except.bind_eq_ok_iff.mpr ⟨f.hh, num_text (w := 2) (by decide) (by decide) (by omega)
    (by decide) (by decide) rfl, ?_⟩
  refine Except.bind_eq_ok_iff.mpr ⟨f.mm, num_text (w := 2) (by decide) (by decide) (by omega)
    (by decide) (by decide) rfl, ?_⟩
  refine Except.bind_eq_ok_iff.mpr ⟨f.ss, num_text (w := 2) (by decide) (by decide) (by omega)
    (by decide) (by decide) rfl, ?_⟩
  refine Except.bind_eq_ok_iff.mpr ⟨fixedDigits 3 f.ms,
    sliceFrom_eq (hclock.dropBytes_eq (show 9 ≤ 12 by decide)), ?_⟩
  exact Except.bind_eq_ok_iff.mpr ⟨f.ms, hms, rfl⟩

theorem parse_text (hf : f.InRange) (hmin : timestampMinMs ≤ f.instant)
    (hmax : f.instant ≤ timestampMaxMs) :
    parseTimestampMs (String.ofList f.text) = .ok f.instant := by
  have htrim : trim (String.ofList f.text).toList = f.text := by
    rw [String.toList_ofList, trim_text]
  have hhour := hf.hour
  have hminute := hf.minute
  have hsecond := hf.second
  unfold parseTimestampMs
  rw [htrim]
  refine Except.bind_eq_ok_iff.mpr ⟨_, parseDate_text hf, ?_⟩
  refine Except.bind_eq_ok_iff.mpr ⟨_, splitTime_text f, ?_⟩
  refine Except.bind_eq_ok_iff.mpr ⟨_, parseClock_text hf, ?_⟩
  dsimp only
  rw [if_neg (by omega)]
  have htotal : (daysFromCivil f.y f.mo f.d * 86400 + f.hh * 3600 + f.mm * 60 + f.ss) * 1000 +
      f.ms - 0 * 60000 = f.instant := by
    unfold instant
    omega
  rw [htotal, if_pos ⟨hmin, hmax⟩]
  rfl

/-! ## Order -/

theorem compare_mark (c : Char) (rest rest' : List Char) :
    cmpBytes (toBytes (c :: rest)) (toBytes (c :: rest')) =
      cmpBytes (toBytes rest) (toBytes rest') := by
  rw [cmpBytes, toBytes_cons, toBytes_cons, compareLex_append rfl]
  show (cmpBytes _ _).then _ = _
  rw [cmpBytes_self]
  rfl

theorem compare_field {w n m : ℕ} (hn : n < 10 ^ w) (hm : m < 10 ^ w) (rest rest' : List Char) :
    cmpBytes (toBytes (fixedDigits w n ++ rest)) (toBytes (fixedDigits w m ++ rest')) =
      (compare n m).then (cmpBytes (toBytes rest) (toBytes rest')) := by
  have hlen : ∀ k, (toBytes (fixedDigits w k)).length = w := fun k => by
    rw [length_toBytes, (ascii_fixedDigits w k).byteLen_eq, length_fixedDigits]
  rw [cmpBytes, toBytes_append, toBytes_append, compareLex_append ((hlen _).trans (hlen _).symm),
    compare_fixedDigits hn hm]
  rfl

/-- The clock of two instants decides only on the same day. -/
theorem instant_lt_iff (hf : f.InRange) {g : Fields} (hg : g.InRange) :
    f.instant < g.instant ↔
      daysFromCivil f.y f.mo f.d < daysFromCivil g.y g.mo g.d ∨
      daysFromCivil f.y f.mo f.d = daysFromCivil g.y g.mo g.d ∧
        (f.hh < g.hh ∨ f.hh = g.hh ∧ (f.mm < g.mm ∨ f.mm = g.mm ∧
          (f.ss < g.ss ∨ f.ss = g.ss ∧ f.ms < g.ms))) := by
  obtain ⟨-, -, -, hhour, hminute, hsecond, hmilli⟩ := hf
  obtain ⟨-, -, -, hhour', hminute', hsecond', hmilli'⟩ := hg
  unfold instant
  generalize daysFromCivil f.y f.mo f.d = day
  generalize daysFromCivil g.y g.mo g.d = day'
  omega

theorem compare_text (hf : f.InRange) {g : Fields} (hg : g.InRange) :
    cmpBytes (toBytes f.text) (toBytes g.text) = .lt ↔ f.instant < g.instant := by
  have hday := dayNumber_lt_iff hf.date hg.date
  have hday' := dayNumber_lt_iff hg.date hf.date
  rw [instant_lt_iff hf hg, daysFromCivil_eq _ _ hf.date.day_pos,
    daysFromCivil_eq _ _ hg.date.day_pos]
  have hd := hf.date.day_le.trans (daysInMonth_le _ _)
  have hd' := hg.date.day_le.trans (daysInMonth_le _ _)
  obtain ⟨hy, hyle, ⟨-, hmo, -, -⟩, hhour, hminute, hsecond, hmilli⟩ := hf
  obtain ⟨hy', hyle', ⟨-, hmo', -, -⟩, hhour', hminute', hsecond', hmilli'⟩ := hg
  unfold text
  rw [compare_field (by omega) (by omega), compare_mark, compare_field (by omega) (by omega),
    compare_mark, compare_field (by omega) (by omega), compare_mark,
    compare_field (by omega) (by omega), compare_mark, compare_field (by omega) (by omega),
    compare_mark, compare_field (by omega) (by omega), compare_mark,
    compare_field (by omega) (by omega), cmpBytes_self]
  simp only [Ordering.then_eq_lt, Nat.compare_eq_lt, Nat.compare_eq_eq, reduceCtorEq, and_false,
    or_false]
  generalize dayNumber f.y f.mo f.d = day at *
  generalize dayNumber g.y g.mo g.d = day' at *
  omega

end Fields

theorem asBytes_ofList (cs : List Char) : asBytes (String.ofList cs) = toBytes cs := by
  rw [asBytes, String.toByteArray_ofList, List.utf8Encode]
  simp [toBytes]

/-! ## Main result -/

/-- In the canonical domain the text is read back and ordered like the instants; the
calendar is inverted on every day, and no text stops the parser or leaves the domain. -/
theorem timestamp_text :
    (∀ ms, timestampMinMs ≤ ms → ms ≤ timestampMaxMs →
      parseTimestampMs (formatTimestampMs ms) = .ok ms) ∧
    (∀ a b, timestampMinMs ≤ a → a ≤ timestampMaxMs → timestampMinMs ≤ b → b ≤ timestampMaxMs →
      (a < b ↔ cmpStr (formatTimestampMs a) (formatTimestampMs b) = .lt)) ∧
    (∀ days : ℤ, daysFromCivil (civilFromDays days).1 (civilFromDays days).2.1
      (civilFromDays days).2.2 = days) ∧
    ∀ text, parseTimestampMs text = .error .malformed ∨
      ∃ ms, parseTimestampMs text = .ok ms ∧ timestampMinMs ≤ ms ∧ ms ≤ timestampMaxMs := by
  have hbytes : ∀ {ms : ℤ} {f : Fields}, (formatTimestampMs ms).toList = f.text →
      asBytes (formatTimestampMs ms) = toBytes f.text := by
    intro ms f htext
    rw [← htext, ← asBytes_ofList, String.ofList_toList]
  refine ⟨fun ms hmin hmax => ?_, fun a b hamin hamax hbmin hbmax => ?_,
    fun days => (civilFromDays_spec days).2, fun text => ?_⟩
  · obtain ⟨f, hf, rfl, htext⟩ := exists_fields hmin hmax
    rw [← String.ofList_toList (s := formatTimestampMs f.instant), htext]
    exact Fields.parse_text hf hmin hmax
  · obtain ⟨f, hf, rfl, hftext⟩ := exists_fields hamin hamax
    obtain ⟨g, hg, rfl, hgtext⟩ := exists_fields hbmin hbmax
    rw [cmpStr, hbytes hftext, hbytes hgtext, Fields.compare_text hf hg]
  · cases h : parseTimestampMs text with
    | ok ms => exact .inr ⟨ms, rfl, parseTimestampMs_range h⟩
    | error halt =>
      cases halt with
      | malformed => exact .inl rfl
      | panic => exact absurd h (parseTimestampMs_safe text)

theorem timestamp_text_at_the_ends :
    parseTimestampMs (formatTimestampMs timestampMinMs) = .ok timestampMinMs ∧
      cmpStr (formatTimestampMs timestampMinMs) (formatTimestampMs timestampMaxMs) = .lt :=
  ⟨timestamp_text.1 timestampMinMs le_rfl (by decide),
    (timestamp_text.2.1 timestampMinMs timestampMaxMs le_rfl (by decide) (by decide) le_rfl).mp
      (by decide)⟩

end Docsql.Timestamp
