import Mathlib.Data.Bool.AllAny
import Docsql.Stmt.Folding

/-!
# When folding the wall clock keeps its promise

The folded text keeps the promise exactly if the words that are folded are words of their
own to the SQL parser, with blanks behind them that it reads alike, and if no two string
literals meet.
-/

namespace Docsql.Stmt

/-! ## The words of clock calls -/

def callNames : List (List Char) :=
  ["now".toList, "now_ms".toList, "sysdate".toList, "current_timestamp".toList,
    "getdate".toList, "getutcdate".toList, "sysdatetime".toList, "sysutcdatetime".toList,
    "sysdatetimeoffset".toList]

theorem mem_callNames {name : List Char} {stamp : Stamp} (h : callStamp name = some stamp) :
    lowerWord name ∈ callNames := by
  rw [callStamp] at h
  split_ifs at h with h1 h2 h3
  · rcases h1 with h1 | h1 <;> rw [h1] <;> decide
  · rw [h2]
    decide
  · simp only [List.mem_cons, List.not_mem_nil, or_false] at h3
    rcases h3 with h3 | h3 | h3 | h3 | h3 | h3 <;> rw [h3] <;> decide

theorem isWordChar_of_toLower {c : Char} (h : isWordChar c.toLower) : isWordChar c := by
  by_cases hupper : c.isUpper
  · simp [isWordChar, Char.isAlphanum, Char.isAlpha, hupper]
  · have hc : c.toLower = c := by
      have hrange : ¬ (c.val ≥ 'A'.val ∧ c.val ≤ 'Z'.val) := by
        simpa [Char.isUpper] using hupper
      rw [Char.toLower, dif_neg hrange]
    rwa [hc] at h

/-- A clock call begins with a word. -/
theorem word_of_clockCall {space : Char → Bool} {name after : List Char}
    {call : Stamp × List Char × List Char} (h : clockCall space name after = some call) :
    name ≠ [] ∧ ∀ d ∈ name, isWordChar d := by
  obtain ⟨stamp, tail, back⟩ := call
  have hmem : lowerWord name ∈ callNames := by
    rcases clockCall_cases h with ⟨hstamp, _⟩ | ⟨hname, _⟩
    · exact mem_callNames hstamp
    · rw [hname]
      decide
  have hnames : ∀ n ∈ callNames, n ≠ [] ∧ n.all isWordChar := by decide
  obtain ⟨hne, hall⟩ := hnames _ hmem
  refine ⟨fun hnil => hne (by rw [hnil]; rfl), fun d hd => ?_⟩
  exact isWordChar_of_toLower (List.all_eq_true.mp hall _ (List.mem_map_of_mem hd))

/-- A word ends in one place. -/
theorem word_unique {a b x y : List Char} (ha : ∀ d ∈ a, isWordChar d)
    (hb : ∀ d ∈ b, isWordChar d) (hx : ∀ d, x.head? = some d → ¬ isWordChar d)
    (hy : ∀ d, y.head? = some d → ¬ isWordChar d) (h : a ++ x = b ++ y) : a = b ∧ x = y := by
  have hend {name after : List Char} (hname : ∀ d ∈ name, isWordChar d)
      (hafter : ∀ d, after.head? = some d → ¬ isWordChar d) :
      (name ++ after).takeWhile isWordChar = name := by
    rw [List.takeWhile_append_of_pos hname]
    cases after with
    | nil => exact List.append_nil _
    | cons d ds => rw [List.takeWhile_cons_of_neg (hafter d rfl), List.append_nil]
  have hab : a = b := by rw [← hend ha hx, h, hend hb hy]
  rw [hab] at h
  exact ⟨hab, List.append_cancel_left h⟩

theorem Reads.clock_inv {c : Char} {rest : List Char} {p : Reading} {r : List Char}
    (h : Reads c rest p r) {stamp : Stamp} {name tail : List Char}
    (hp : p = .clock stamp name tail) :
    (∀ d ∈ name, isWordChar d) ∧ (∀ d, (tail ++ r).head? = some d → ¬ isWordChar d) ∧
      clockCall isAsciiWhitespace name (tail ++ r) = some (stamp, tail, r) := by
  cases h with
  | clock hword hafter hcall =>
    cases hp
    rw [clockCall_append hcall]
    exact ⟨hword, hafter, hcall⟩
  | _ => exact absurd hp (by simp)

theorem clock_reading {sql : List Char} {pre post : List Reading} {stamp : Stamp}
    {name tail : List Char} (h : readings sql = pre ++ .clock stamp name tail :: post) :
    (∀ d ∈ name, isWordChar d) ∧
      (∀ d, (tail ++ rawOf post).head? = some d → ¬ isWordChar d) ∧
      clockCall isAsciiWhitespace name (tail ++ rawOf post) =
        some (stamp, tail, rawOf post) := by
  obtain ⟨c, rest, _, hreads⟩ := reads_of_readings h
  exact hreads.clock_inv rfl

theorem Reads.word_inv {c : Char} {rest : List Char} {p : Reading} {r : List Char}
    (h : Reads c rest p r) {name : List Char} (hp : p = .word name) :
    (∀ d ∈ name, isWordChar d) ∧ (∀ d, r.head? = some d → ¬ isWordChar d) ∧ name ≠ [] := by
  cases h with
  | word hword hafter _ =>
    cases hp
    exact ⟨hword, hafter, by simp⟩
  | _ => exact absurd hp (by simp)

theorem word_reading {sql : List Char} {pre post : List Reading} {name : List Char}
    (h : readings sql = pre ++ .word name :: post) :
    (∀ d ∈ name, isWordChar d) ∧ (∀ d, (rawOf post).head? = some d → ¬ isWordChar d) ∧
      name ≠ [] := by
  obtain ⟨c, rest, _, hreads⟩ := reads_of_readings h
  exact hreads.word_inv rfl

/-! ## The last character of a reading -/

theorem getLast?_append_of_ne {α : Type} {a b : List α} (hb : b ≠ []) :
    (a ++ b).getLast? = b.getLast? := by
  rw [List.getLast?_append]
  cases h : b.getLast? with
  | none => exact absurd (List.getLast?_eq_none_iff.mp h) hb
  | some d => rfl

theorem Reads.raw_ne {c : Char} {rest : List Char} {p : Reading} {r : List Char}
    (h : Reads c rest p r) : p.raw ≠ [] := by
  obtain ⟨more, hraw, _⟩ := h.raw
  rw [hraw]
  exact List.cons_ne_nil _ _

theorem rawOf_concat {pre : List Reading} {p : Reading} (h : p.raw ≠ []) :
    (rawOf (pre ++ [p])).getLast? = p.raw.getLast? := by
  have hp : rawOf [p] = p.raw := List.append_nil _
  rw [rawOf_append, hp, getLast?_append_of_ne h]

/-- What a call's argument list ends with. -/
theorem tail_last {space : Char → Bool} {name after : List Char} {stamp : Stamp}
    {tail back : List Char} (h : clockCall space name after = some (stamp, tail, back))
    (hne : tail ≠ []) : tail.getLast? = some ')' := by
  rcases clockCall_cases h with ⟨_, hcall⟩ | ⟨_, _, hnil, _⟩
  · obtain ⟨outer, rest, inner, _, _, rfl⟩ := emptyCall_iff.mp hcall
    rw [getLast?_append_of_ne (by simp), List.getLast?_cons, getLast?_append_of_ne (by simp)]
    rfl
  · exact absurd hnil hne

theorem literal_last (nowMs : ℤ) (stamp : Stamp) :
    ∃ c, (stamp.literal nowMs).getLast? = some c ∧ c ∈ marks := by
  cases stamp with
  | timestamp =>
    have htail : " AS TIMESTAMP)".toList = " AS TIMESTAMP".toList ++ [')'] := by decide
    refine ⟨')', ?_, by decide⟩
    unfold Stamp.literal
    dsimp only
    rw [htail, ← List.append_assoc, List.getLast?_concat]
  | string => exact ⟨'\'', @List.getLast?_concat _ ('\'' :: doubleQuotes _) _, by decide⟩

theorem rawOf_renewed (nowMs : ℤ) (rs : List Reading) :
    rawOf (rs.flatMap (Reading.renewed nowMs)) = rs.flatMap (Reading.folded nowMs) := by
  induction rs with
  | nil => rfl
  | cons p rs ih =>
    rw [List.flatMap_cons, List.flatMap_cons, rawOf_append, ih]
    congr 1
    cases p with
    | clock stamp name tail => exact rawOf_readings _
    | _ => exact List.append_nil _

theorem refold_of_post (nowMs : ℤ) {sql : List Char} {pre post : List Reading}
    (h : readings sql = pre ++ post) :
    rawOf (post.flatMap (Reading.renewed nowMs)) = refold nowMs (rawOf post) := by
  rw [rawOf_renewed, refold, ← (readings_split h).1]

/-- In front of a word, a name goes on in the folded text where it did before. -/
theorem ident_before_iff (lx : Lexer) (nowMs : ℤ) {sql : List Char} {pre post : List Reading}
    {name : List Char} (h : readings sql = pre ++ .word name :: post) :
    (∃ c, (rawOf (pre.flatMap (Reading.renewed nowMs))).getLast? = some c ∧ lx.ident c) ↔
      ∃ c, (rawOf pre).getLast? = some c ∧ lx.ident c := by
  rcases List.eq_nil_or_concat' pre with rfl | ⟨pre, p, rfl⟩
  · rfl
  · rw [List.append_assoc] at h
    obtain ⟨c, rest, _, hreads⟩ := reads_of_readings h
    rw [rawOf_concat hreads.raw_ne]
    by_cases hclock : p.isClock
    · cases p with
      | clock stamp nm tail =>
        obtain ⟨_, hafter, hcall⟩ := clock_reading h
        have hsecond : readings sql = (pre ++ [.clock stamp nm tail]) ++ .word name :: post := by
          rw [h, List.append_assoc]
        obtain ⟨hname, _, hne⟩ := word_reading hsecond
        have htail : tail ≠ [] := by
          rintro rfl
          cases name with
          | nil => exact hne rfl
          | cons d ds => exact hafter d rfl (hname d List.mem_cons_self)
        have hlast : (Reading.clock stamp nm tail).raw.getLast? = some ')' := by
          rw [Reading.raw, getLast?_append_of_ne htail]
          exact tail_last hcall htail
        obtain ⟨e, hlit, hmark⟩ := literal_last nowMs stamp
        have hfold : (rawOf ((pre ++ [Reading.clock stamp nm tail]).flatMap
            (Reading.renewed nowMs))).getLast? = some e := by
          rw [rawOf_renewed, List.flatMap_append, List.flatMap_singleton, Reading.folded]
          rw [getLast?_append_of_ne, hlit]
          intro hnil
          rw [hnil] at hlit
          exact absurd hlit (by simp)
        rw [hlast, hfold]
        refine iff_of_false ?_ ?_
        · rintro ⟨d, hd, hident⟩
          rw [← Option.some.inj hd] at hident
          exact lx.ident_mark e hmark hident
        · rintro ⟨d, hd, hident⟩
          rw [← Option.some.inj hd] at hident
          exact lx.ident_mark ')' (by decide) hident
      | _ => exact absurd hclock (by simp [Reading.isClock])
    · have hfold : (rawOf ((pre ++ [p]).flatMap (Reading.renewed nowMs))).getLast? =
          p.raw.getLast? := by
        rw [rawOf_renewed, List.flatMap_append, List.flatMap_singleton,
          Reading.folded_of_not_clock nowMs hclock, getLast?_append_of_ne hreads.raw_ne]
      rw [hfold]

/-! ## Two literals never stand side by side -/

theorem Reads.quoted_inv {c : Char} {rest : List Char} {p : Reading} {r : List Char}
    (h : Reads c rest p r) {quote : Char} {inside : List Char}
    (hp : p = .region (.quoted quote inside)) : r.head? ≠ some quote := by
  cases h with
  | quoted hc =>
    cases hp
    exact quotedRun_head_ne c rest
  | _ => exact absurd hp (by simp)

theorem not_adjacent {sql : List Char} {pre post : List Reading} {quote : Char}
    {a b : List Char} : readings sql ≠ pre ++ .region (.quoted quote a) ::
      .region (.quoted quote b) :: post := by
  intro h
  obtain ⟨c, rest, _, hreads⟩ := reads_of_readings h
  exact hreads.quoted_inv rfl rfl

/-- Of the readings in front of a word, only a literal ends with an apostrophe. -/
theorem Reads.last_quote {c d : Char} {rest : List Char} {p : Reading} {r more : List Char}
    (h : Reads c rest p r) (hr : r = d :: more) (hd : isWordChar d)
    (hlast : p.raw.getLast? = some '\'') : ∃ inside, p = .region (.quoted '\'' inside) := by
  have hne : r ≠ [] := hr ▸ List.cons_ne_nil d more
  cases h with
  | quoted hc =>
    have hquote := quotedRun_last c rest hne
    rw [Reading.raw, Piece.raw, List.getLast?_cons, hquote] at hlast
    have hc' : c = '\'' := by simpa using hlast
    exact ⟨_, by rw [hc']⟩
  | @line rest =>
    rcases lineRun_rest rest with hnil | hline
    · exact absurd hnil hne
    · rw [hr] at hline
      rw [Option.some.inj hline] at hd
      exact absurd hd (by decide)
  | @block rest =>
    cases hclosed : (blockRun rest).2.1 with
    | false => exact absurd (blockRun_unclosed rest hclosed) hne
    | true =>
      rw [Reading.raw, Piece.raw, hclosed, List.getLast?_cons, List.getLast?_cons,
        getLast?_append_of_ne (by decide)] at hlast
      exact absurd hlast (by decide)
  | @bracketed rest =>
    have hquote := quotedRun_last ']' rest hne
    rw [Reading.raw, Piece.raw, List.getLast?_cons, hquote] at hlast
    exact absurd hlast (by decide)
  | word hword _ _ =>
    exact absurd (hword _ (List.mem_of_getLast? hlast)) (by decide)
  | clock hword hafter hcall =>
    rename_i name after stamp tail
    by_cases htail : tail = []
    · rw [htail, Reading.raw, List.append_nil] at hlast
      exact absurd (hword _ (List.mem_of_getLast? hlast)) (by decide)
    · rw [Reading.raw, getLast?_append_of_ne htail, tail_last hcall htail] at hlast
      exact absurd hlast (by decide)
  | char h1 _ _ _ _ =>
    have hc : c = '\'' := by simpa [Reading.raw] using hlast
    rw [hc] at h1
    exact absurd h1 (by decide)

theorem readings_of_apostrophe {text : List Char} (h : text.head? = some '\'') :
    ∃ inside rest, readings text = .region (.quoted '\'' inside) :: rest := by
  obtain ⟨more, rfl⟩ := List.head?_eq_some_iff.mp h
  exact ⟨_, _, (@Reads.quoted '\'' more (by decide)).readings⟩

theorem stringsApart_of_kept (nowMs : ℤ) {sql out : List Char}
    (hkept : readings out = (readings sql).flatMap (Reading.renewed nowMs)) :
    StringsApart sql := by
  intro pre name tail post h
  have hlit : Reading.renewed nowMs (.clock .string name tail) =
      [.region (.quoted '\'' (doubleQuotes (Timestamp.formatTimestampMs nowMs).toList ++
        ['\'']))] := readings_literal nowMs .string
  obtain ⟨hword, _, hcall⟩ := clock_reading h
  obtain ⟨hne, _⟩ := word_of_clockCall hcall
  rw [h, List.flatMap_append, List.flatMap_cons, hlit] at hkept
  refine ⟨?_, ?_, ?_⟩
  · intro hlast
    rcases List.eq_nil_or_concat' pre with rfl | ⟨pre, p, rfl⟩
    · exact absurd hlast (by simp [rawOf])
    rw [List.append_assoc] at h
    obtain ⟨c, rest, _, hreads⟩ := reads_of_readings h
    rw [rawOf_concat hreads.raw_ne] at hlast
    cases name with
    | nil => exact hne rfl
    | cons d ds =>
      obtain ⟨inside, rfl⟩ := hreads.last_quote rfl (hword d List.mem_cons_self) hlast
      rw [List.flatMap_append, List.append_assoc] at hkept
      exact not_adjacent hkept
  · intro hhead
    obtain ⟨inside, rest, hrest⟩ := readings_of_apostrophe hhead
    have hsplit : readings sql = (pre ++ [.clock .string name tail]) ++ post := by
      rw [h, List.append_assoc]
      rfl
    have hpost := (readings_split hsplit).1
    rw [hpost, hrest] at hkept
    exact not_adjacent hkept
  · rintro name' tail' post' rfl
    have hlit' : Reading.renewed nowMs (.clock .string name' tail') = _ :=
      readings_literal nowMs .string
    rw [List.flatMap_cons, hlit'] at hkept
    exact not_adjacent hkept

/-! ## Clock calls in the folded text -/

/-- An element of a concatenation comes from one of its parts. -/
theorem split_of_flatMap {α β : Type} {f : α → List β} {xs : List α} {a b : List β} {x : β}
    (h : xs.flatMap f = a ++ x :: b) :
    ∃ front y back a' b', xs = front ++ y :: back ∧ f y = a' ++ x :: b' ∧
      a = front.flatMap f ++ a' ∧ b = b' ++ back.flatMap f := by
  induction xs generalizing a with
  | nil => exact absurd h (by simp)
  | cons y ys ih =>
    rw [List.flatMap_cons] at h
    rcases List.append_eq_append_iff.mp h with ⟨more, rfl, hrest⟩ | ⟨more, hy, hrest⟩
    · obtain ⟨front, z, back, a', b', rfl, hz, rfl, rfl⟩ := ih hrest
      exact ⟨y :: front, z, back, a', b', rfl, hz, by rw [List.flatMap_cons, List.append_assoc],
        rfl⟩
    · cases more with
      | nil =>
        obtain ⟨front, z, back, a', b', rfl, hz, ha, rfl⟩ := ih (a := []) hrest.symm
        refine ⟨y :: front, z, back, a', b', rfl, hz, ?_, rfl⟩
        rw [List.flatMap_cons, List.append_assoc, ← ha, hy, List.append_nil, List.append_nil]
      | cons e more =>
        obtain ⟨rfl, rfl⟩ := List.cons.inj hrest
        exact ⟨[], y, ys, a, more, rfl, hy, rfl, rfl⟩

theorem word_of_literal {nowMs : ℤ} {stamp : Stamp} {a b : List Reading} {name : List Char}
    (h : literalReadings nowMs stamp = a ++ .word name :: b) (space : Char → Bool)
    (after : List Char) : clockCall space name after = none := by
  have hmem : Reading.word name ∈ literalReadings nowMs stamp := by
    rw [h]
    exact List.mem_append_right _ List.mem_cons_self
  cases stamp with
  | string => exact absurd hmem (by simp [literalReadings])
  | timestamp =>
    simp only [literalReadings, List.mem_cons, Reading.word.injEq, reduceCtorEq, false_or,
      or_false, List.not_mem_nil] at hmem
    rcases hmem with rfl | rfl | rfl
    all_goals exact clockCall_of_other (by decide) (by decide) after

theorem not_clock_of_kept (nowMs : ℤ) {sql out : List Char}
    (hkept : readings out = (readings sql).flatMap (Reading.renewed nowMs)) :
    ∀ p ∈ readings out, ¬ p.isClock := by
  intro p hp
  rw [hkept] at hp
  obtain ⟨q, _, hq⟩ := List.mem_flatMap.mp hp
  cases q with
  | clock stamp name tail =>
    have hlit : Reading.renewed nowMs (.clock stamp name tail) = _ := readings_literal nowMs stamp
    rw [hlit] at hq
    cases stamp <;> simp only [literalReadings, List.mem_cons, List.not_mem_nil, or_false] at hq
    · rcases hq with rfl | rfl | rfl | rfl | rfl | rfl | rfl | rfl <;> simp [Reading.isClock]
    · rw [hq]
      simp [Reading.isClock]
  | _ =>
    rw [Reading.renewed, List.mem_singleton] at hq
    · rw [hq]
      simp [Reading.isClock]
    · simp

/-- A clock call of a text without clock readings stands at a word it has kept. -/
theorem ClockSite.word {lx : Lexer} {front call back : List Char} {stamp : Stamp}
    (h : ClockSite lx front call back stamp)
    (hclock : ∀ p ∈ readings (front ++ call ++ back), ¬ p.isClock) :
    ∃ pre name post, readings (front ++ call ++ back) = pre ++ .word name :: post ∧
      rawOf pre = front ∧ (∀ c, (rawOf post).head? = some c → ¬ lx.ident c) ∧
      clockCall lx.space name (rawOf post) ≠ none := by
  obtain ⟨⟨ps, qs, hps, hraw⟩, hbefore, name, tail, rfl, hafter, hcall⟩ := h
  obtain ⟨hne, hword⟩ := word_of_clockCall hcall
  have hend : ∀ d, (tail ++ back).head? = some d → ¬ isWordChar d := fun d hd hw =>
    hafter d hd (lx.ident_word d hw)
  rcases boundary_of_pieces hclock hps with ⟨pre, post, hsplit, hpre⟩ | ⟨c, hlast, hc⟩
  · rw [hraw] at hpre
    obtain ⟨hpost, htext⟩ := readings_split hsplit
    have hrest : rawOf post = name ++ (tail ++ back) := by
      rw [hpre] at htext
      simp only [List.append_assoc] at htext
      exact (List.append_cancel_left htext).symm
    cases name with
    | nil => exact absurd rfl hne
    | cons d ds =>
      have hread := reads_foldPiece d (ds ++ (tail ++ back))
      rw [foldPiece_word hword hend] at hread
      cases hfound : clockCall isAsciiWhitespace (d :: ds) (tail ++ back) with
      | none =>
        rw [hfound] at hread
        have hposts := hread.readings
        rw [← List.cons_append, ← hrest, ← hpost] at hposts
        refine ⟨pre, d :: ds, readings (tail ++ back), by rw [hsplit, hposts], hpre, ?_, ?_⟩
        all_goals rw [rawOf_readings]
        · exact hafter
        · rw [hcall]
          simp
      | some found =>
        rw [hfound] at hread
        have hposts := hread.readings
        rw [← List.cons_append, ← hrest, ← hpost] at hposts
        rw [hsplit, hposts] at hclock
        exact absurd rfl (hclock _ (List.mem_append_right _ List.mem_cons_self))
  · rw [hraw] at hlast
    exact absurd (lx.ident_word c hc) (hbefore c hlast)

/-- No clock call is left if no kept word is one to the parser. -/
theorem complete_of_words {lx : Lexer} {nowMs : ℤ} {sql out : List Char}
    (hwords : ∀ pre name post, readings sql = pre ++ .word name :: post →
      clockCall lx.space name (rawOf post) ≠ none → Touches lx (rawOf pre) (rawOf post))
    (hkept : readings out = (readings sql).flatMap (Reading.renewed nowMs)) :
    ∀ front call back stamp, out = front ++ call ++ back →
      ¬ ClockSite lx front call back stamp := by
  rintro front call back stamp rfl hsite
  have hbefore := hsite.before
  obtain ⟨pre, name, post, hsplit, hpre, hafter, hcall⟩ :=
    hsite.word (not_clock_of_kept nowMs hkept)
  rw [hkept] at hsplit
  obtain ⟨front', p, back', a, b, hsql, hp, rfl, rfl⟩ := split_of_flatMap hsplit
  by_cases hclock : p.isClock
  · cases p with
    | clock st nm tail =>
      have hlit : literalReadings nowMs st = a ++ .word name :: b :=
        (readings_literal nowMs st).symm.trans hp
      exact hcall (word_of_literal hlit _ _)
    | _ => exact absurd hclock (by simp [Reading.isClock])
  · have hsingle : Reading.renewed nowMs p = [p] := by
      cases p with
      | clock st nm tail => exact absurd rfl hclock
      | _ => rfl
    rw [hsingle] at hp
    have ha : a = [] := by
      cases a with
      | nil => rfl
      | cons x xs => exact absurd (congrArg List.length hp) (by simp)
    rw [ha, List.nil_append] at hp
    obtain ⟨rfl, hb⟩ := List.cons.inj hp
    rw [ha, List.append_nil] at hpre
    have hback : readings sql = (front' ++ [.word name]) ++ back' := by
      rw [hsql, List.append_assoc]
      rfl
    rw [← hb, List.nil_append, refold_of_post nowMs hback] at hafter hcall
    have hend := (word_reading hsql).2.1
    rw [refold_head_eq nowMs hend] at hafter
    rw [clockCall_refold nowMs lx.blankOk] at hcall
    have hsome : clockCall lx.space name (rawOf back') ≠ none := fun hnone =>
      hcall (by rw [hnone]; rfl)
    rcases hwords front' name back' hsql hsome with hident | ⟨c, hc, hident⟩
    · obtain ⟨c, hc, hident⟩ := (ident_before_iff lx nowMs hsql).mpr hident
      rw [hpre] at hc
      exact hbefore c hc hident
    · exact hafter c hc hident

/-- A kept word that is a call to the parser is one in the folded text. -/
theorem words_of_complete {lx : Lexer} {nowMs : ℤ} {sql out : List Char}
    (hkept : readings out = (readings sql).flatMap (Reading.renewed nowMs))
    (hcomplete : ∀ front call back stamp, out = front ++ call ++ back →
      ¬ ClockSite lx front call back stamp) :
    ∀ pre name post, readings sql = pre ++ .word name :: post →
      clockCall lx.space name (rawOf post) ≠ none → Touches lx (rawOf pre) (rawOf post) := by
  intro pre name post h hcall
  by_contra hfree
  obtain ⟨⟨stamp, tail, back⟩, hfound⟩ := Option.ne_none_iff_exists'.mp hcall
  have hpost : readings sql = (pre ++ [.word name]) ++ post := by
    rw [h, List.append_assoc]
    rfl
  have hfold := refold_of_post nowMs hpost
  have hsome : clockCall lx.space name (refold nowMs (rawOf post)) =
      some (stamp, tail, refold nowMs back) := by
    rw [clockCall_refold nowMs lx.blankOk, hfound]
    rfl
  have hbehind := clockCall_append hsome
  rw [h, List.flatMap_append, List.flatMap_cons] at hkept
  have hword : Reading.renewed nowMs (.word name) = [.word name] := rfl
  rw [hword] at hkept
  obtain ⟨_, hout⟩ := readings_split hkept
  rw [rawOf_append, hfold, ← hbehind] at hout
  have htext : out = rawOf (pre.flatMap (Reading.renewed nowMs)) ++ (name ++ tail) ++
      refold nowMs back := by
    rw [hout]
    simp [rawOf, Reading.raw]
  refine hcomplete _ _ _ stamp htext ⟨?_, ?_, name, tail, rfl, ?_, ?_⟩
  · obtain ⟨ps, hps, hraw⟩ := outside_of_readings hkept
    exact ⟨ps, _, by rw [← htext]; exact hps, hraw⟩
  · intro c hc hident
    exact hfree (Or.inl ((ident_before_iff lx nowMs h).mp ⟨c, hc, hident⟩))
  · rw [hbehind, refold_head_eq nowMs (word_reading h).2.1]
    exact fun c hc hident => hfree (Or.inr ⟨c, hc, hident⟩)
  · rw [hbehind]
    exact hsome

theorem foldWallClocks_some {sql out : List Char} {nowMs : ℤ}
    (h : foldWallClocks sql nowMs = some out) : out = refold nowMs sql := by
  rw [foldWallClocks] at h
  split_ifs at h
  exact (Option.some.inj h).symm

theorem foldWallClocks_none {sql : List Char} (nowMs : ℤ)
    (h : ∀ p ∈ readings sql, ¬ p.isClock) : foldWallClocks sql nowMs = none := by
  rw [foldWallClocks, if_neg]
  rintro ⟨_, hany⟩
  obtain ⟨p, hp, hclock⟩ := List.any_eq_true.mp hany
  exact h p hp hclock

/-- The folded word of a call that stands by itself. -/
theorem clockSite_of_apart {lx : Lexer} {sql : List Char} {pre post : List Reading}
    {stamp : Stamp} {name tail : List Char}
    (h : readings sql = pre ++ .clock stamp name tail :: post)
    (hapart : ¬ Touches lx (rawOf pre) (tail ++ rawOf post))
    (hcall : clockCall lx.space name (tail ++ rawOf post) = some (stamp, tail, rawOf post)) :
    ClockSite lx (rawOf pre) (name ++ tail) (rawOf post) stamp := by
  have htext : rawOf pre ++ (name ++ tail) ++ rawOf post = sql := by
    rw [(readings_split h).2, rawOf_cons, List.append_assoc]
    rfl
  refine ⟨?_, fun c hc hi => hapart (Or.inl ⟨c, hc, hi⟩), name, tail, rfl,
    fun c hc hi => hapart (Or.inr ⟨c, hc, hi⟩), hcall⟩
  obtain ⟨ps, hps, hraw⟩ := outside_of_readings h
  exact ⟨ps, _, by rw [htext]; exact hps, hraw⟩

theorem apart_of_clockSite {lx : Lexer} {sql : List Char} {pre post : List Reading}
    {stamp : Stamp} {name tail : List Char}
    (h : readings sql = pre ++ .clock stamp name tail :: post)
    (hsite : ClockSite lx (rawOf pre) (name ++ tail) (rawOf post) stamp) :
    ¬ Touches lx (rawOf pre) (tail ++ rawOf post) ∧
      clockCall lx.space name (tail ++ rawOf post) = some (stamp, tail, rawOf post) := by
  obtain ⟨_, hbefore, name', tail', heq, hafter, hcall⟩ := hsite
  obtain ⟨hword, hend, _⟩ := clock_reading h
  have hboth : name ++ (tail ++ rawOf post) = name' ++ (tail' ++ rawOf post) := by
    rw [← List.append_assoc, heq, List.append_assoc]
  obtain ⟨rfl, htail⟩ := word_unique hword (word_of_clockCall hcall).2 hend
    (fun d hd hw => hafter d hd (lx.ident_word d hw)) hboth
  have htail := List.append_cancel_right htail
  rw [← htail] at hafter hcall
  refine ⟨?_, hcall⟩
  rintro (⟨c, hc, hi⟩ | ⟨c, hc, hi⟩)
  · exact hbefore c hc hi
  · exact hafter c hc hi

/-- Where the pass folds something, it keeps its promise exactly if each folded word is a
word of its own to the parser, with blanks behind it that the parser reads alike, no other
clock name is a call to the parser, and no literal meets another. -/
theorem foldsClocks_iff (lx : Lexer) (nowMs : ℤ) (sql out : List Char)
    (h : foldWallClocks sql nowMs = some out) :
    FoldsClocks lx nowMs sql out ↔ OwnWords lx sql := by
  have hout := foldWallClocks_some h
  constructor
  · rintro ⟨_, hreplaced, hkept, hcomplete, _⟩
    refine ⟨?_, ?_, words_of_complete hkept hcomplete, stringsApart_of_kept nowMs hkept⟩
    · intro pre stamp name tail post hsplit
      exact (apart_of_clockSite hsplit (hreplaced pre stamp name tail post hsplit)).1
    · intro pre stamp name tail post hsplit
      exact (apart_of_clockSite hsplit (hreplaced pre stamp name tail post hsplit)).2
  · rintro ⟨hapart, hblanks, hwords, hstrings⟩
    have hkept : readings out = (readings sql).flatMap (Reading.renewed nowMs) := by
      rw [hout]
      exact readings_refold nowMs hstrings sql [] rfl
    refine ⟨⟨(rawOf_readings sql).symm, hout⟩, ?_, hkept, complete_of_words hwords hkept,
      foldWallClocks_none nowMs (not_clock_of_kept nowMs hkept)⟩
    intro pre stamp name tail post hsplit
    exact clockSite_of_apart hsplit (hapart pre stamp name tail post hsplit)
      (hblanks pre stamp name tail post hsplit)

/-- A whitespace character is none of a word's. -/
theorem not_isWordChar_of_isWhitespace {c : Char} (h : Timestamp.isWhitespace c) :
    ¬ isWordChar c := by
  intro hword
  rw [isWordChar, Bool.or_eq_true, decide_eq_true_eq] at hword
  rcases hword with hword | rfl
  swap
  · exact absurd h (by decide)
  simp only [Char.isAlphanum, Char.isAlpha, Char.isUpper, Char.isLower,
    Char.isDigit, Bool.or_eq_true, Bool.and_eq_true, decide_eq_true_eq, ge_iff_le,
    UInt32.le_iff_toNat_le] at hword
  simp only [Timestamp.isWhitespace, Bool.or_eq_true, Bool.and_eq_true, decide_eq_true_eq,
    beq_iff_eq] at h
  have hval : c.val.toNat = c.toNat := rfl
  have h0 : '0'.val.toNat = 48 := rfl
  have h9 : '9'.val.toNat = 57 := rfl
  have hA : 'A'.val.toNat = 65 := rfl
  have hZ : 'Z'.val.toNat = 90 := rfl
  have ha : 'a'.val.toNat = 97 := rfl
  have hz : 'z'.val.toNat = 122 := rfl
  omega

/-- A parser whose names may hold characters beyond ASCII and the signs of variables, and
which knows all of Unicode's whitespace. -/
def unicodeLexer : Lexer where
  ident c := isWordChar c || c ∈ ['@', '$', '#'] || (127 < c.toNat && !Timestamp.isWhitespace c)
  space c := Timestamp.isWhitespace c
  ident_word := by
    intro c h
    simp [h]
  space_ascii := by
    intro c h
    simp only [isAsciiWhitespace, List.mem_cons, List.not_mem_nil, or_false,
      decide_eq_true_eq] at h
    rcases h with rfl | rfl | rfl | rfl | rfl <;> decide
  ident_space := by
    intro c h
    have hsign : c ∉ ['@', '$', '#'] := by
      intro hc
      simp only [List.mem_cons, List.not_mem_nil, or_false] at hc
      rcases hc with rfl | rfl | rfl <;> exact absurd h (by decide)
    simp [not_isWordChar_of_isWhitespace h, hsign, h]
  ident_mark := List.all_iff_forall_prop.mp (by decide)
  space_mark := List.all_iff_forall_prop.mp (by decide)

theorem foldsClocks_iff_select :
    FoldsClocks unicodeLexer 0 "SELECT NOW( )".toList
        "SELECT CAST('1970-01-01T00:00:00.000Z' AS TIMESTAMP)".toList ↔
      OwnWords unicodeLexer "SELECT NOW( )".toList :=
  foldsClocks_iff unicodeLexer 0 _ _ (by decide)

/-- The tail of a name is folded, a call with other whitespace stays, and a literal runs
into the next one. -/
theorem folds_part_of_name :
    (¬ ∀ sql out, foldWallClocks sql 0 = some out → FoldsClocks unicodeLexer 0 sql out) ∧
      foldWallClocks "SELECT énow()".toList 0 =
        some "SELECT éCAST('1970-01-01T00:00:00.000Z' AS TIMESTAMP)".toList ∧
      foldWallClocks "SELECT now(), now\u3000()".toList 0 =
        some "SELECT CAST('1970-01-01T00:00:00.000Z' AS TIMESTAMP), now\u3000()".toList ∧
      foldWallClocks "SELECT sysdate()'x'".toList 0 =
        some "SELECT '1970-01-01T00:00:00.000Z''x'".toList := by
  refine ⟨fun h => ?_, by decide, by decide +kernel, by decide +kernel⟩
  have hfold := h ['é', 'n', 'o', 'w', '(', ')'] _ rfl
  have hsite := hfold.replaced [.char 'é'] .timestamp ['n', 'o', 'w'] ['(', ')'] []
    (by decide)
  exact hsite.before 'é' rfl (by decide)

end Docsql.Stmt
