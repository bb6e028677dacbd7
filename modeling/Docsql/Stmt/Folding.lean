import Docsql.Stmt.WallClock

/-!
# The folded text

What `fold_wall_clocks` promises of its output: only clock calls outside the regions have
changed, none of them is left, all else reads as before, and a second pass finds nothing.
-/

namespace Docsql.Stmt

/-! ## The promise -/

/-- The characters that open or end a region or a parenthesis. -/
def marks : List Char := ['\'', '"', '\x60', '[', '-', '/', '(', ')']

/-- How the SQL parser splits a text outside the regions: the characters of its
identifiers, and its whitespace. -/
structure Lexer where
  ident : Char → Bool
  space : Char → Bool
  ident_word : ∀ c, isWordChar c → ident c
  space_ascii : ∀ c, isAsciiWhitespace c → space c
  ident_space : ∀ c, space c → ¬ ident c
  ident_mark : ∀ c ∈ marks, ¬ ident c
  space_mark : ∀ c ∈ marks, ¬ space c

/-- In `front ++ call ++ back`, a clock call stands behind `front`: outside the regions,
between characters that are no part of a name. -/
structure ClockSite (lx : Lexer) (front call back : List Char) (stamp : Stamp) : Prop where
  outside : ∃ ps qs, textPieces (front ++ call ++ back) = ps ++ qs ∧ rawText ps = front
  before : ∀ c, front.getLast? = some c → ¬ lx.ident c
  reads : ∃ name tail, call = name ++ tail ∧
    (∀ c, (tail ++ back).head? = some c → ¬ lx.ident c) ∧
    clockCall lx.space name (tail ++ back) = some (stamp, tail, back)

/-- A reading in the folded text: a clock call has become a literal. -/
def Reading.renewed (nowMs : ℤ) : Reading → List Reading
  | .clock stamp _ _ => readings (stamp.literal nowMs)
  | p => [p]

structure FoldsClocks (lx : Lexer) (nowMs : ℤ) (sql out : List Char) : Prop where
  /-- The texts differ in the clock readings alone. -/
  spelled : sql = (readings sql).flatMap Reading.raw ∧
    out = (readings sql).flatMap (Reading.folded nowMs)
  replaced : ∀ pre stamp name tail post, readings sql = pre ++ .clock stamp name tail :: post →
    ClockSite lx (rawOf pre) (name ++ tail) (rawOf post) stamp
  kept : readings out = (readings sql).flatMap (Reading.renewed nowMs)
  complete : ∀ front call back stamp, out = front ++ call ++ back →
    ¬ ClockSite lx front call back stamp
  settled : foldWallClocks out nowMs = none

/-! ## The condition -/

/-- A name between these two texts is part of a longer one. -/
def Touches (lx : Lexer) (before after : List Char) : Prop :=
  (∃ c, before.getLast? = some c ∧ lx.ident c) ∨ ∃ c, after.head? = some c ∧ lx.ident c

/-- A call that becomes a string stands beside no string and no other such call. -/
def StringsApart (sql : List Char) : Prop :=
  ∀ pre name tail post, readings sql = pre ++ .clock .string name tail :: post →
    (rawOf pre).getLast? ≠ some '\'' ∧ (rawOf post).head? ≠ some '\'' ∧
      ∀ name' tail' post', post ≠ .clock .string name' tail' :: post'

structure OwnWords (lx : Lexer) (sql : List Char) : Prop where
  /-- No folded word is part of a longer name. -/
  apart : ∀ pre stamp name tail post, readings sql = pre ++ .clock stamp name tail :: post →
    ¬ Touches lx (rawOf pre) (tail ++ rawOf post)
  /-- The parser sees no other whitespace behind a folded word. -/
  blanks : ∀ pre stamp name tail post, readings sql = pre ++ .clock stamp name tail :: post →
    clockCall lx.space name (tail ++ rawOf post) = some (stamp, tail, rawOf post)
  /-- A word that stays begins no call of the parser's. -/
  words : ∀ pre name post, readings sql = pre ++ .word name :: post →
    clockCall lx.space name (rawOf post) ≠ none → Touches lx (rawOf pre) (rawOf post)
  strings : StringsApart sql

/-! ## The folded text and its first character -/

section Refold

variable (nowMs : ℤ)

/-- The text with every clock reading folded, whatever the cheap test says. -/
def refold (sql : List Char) : List Char := (readings sql).flatMap (Reading.folded nowMs)

theorem Reads.refold {c : Char} {rest : List Char} {p : Reading} {r : List Char}
    (h : Reads c rest p r) :
    Stmt.refold nowMs (c :: rest) = p.folded nowMs ++ Stmt.refold nowMs r := by
  rw [Stmt.refold, h.readings, List.flatMap_cons]
  rfl

theorem Reading.folded_of_not_clock {p : Reading} (h : ¬ p.isClock) :
    p.folded nowMs = p.raw := by
  cases p with
  | clock stamp name tail => exact absurd rfl h
  | _ => rfl

theorem literal_head (stamp : Stamp) :
    ∃ c more, stamp.literal nowMs = c :: more ∧ (c = 'C' ∨ c = '\'') ∧
      (c = '\'' → stamp = .string) := by
  cases stamp with
  | timestamp => exact ⟨'C', _, rfl, Or.inl rfl, fun h => absurd h (by decide)⟩
  | string => exact ⟨'\'', _, rfl, Or.inr rfl, fun _ => rfl⟩

/-- The first character stays, or a clock word has been replaced. -/
theorem refold_head (text : List Char) :
    (refold nowMs text).head? = text.head? ∨
      ∃ stamp name tail post w c, readings text = .clock stamp name tail :: post ∧
        text.head? = some w ∧ isWordChar w ∧ (refold nowMs text).head? = some c ∧
        (c = 'C' ∨ c = '\'') ∧ (c = '\'' → stamp = .string) := by
  induction text using readings_induction with
  | nil => exact Or.inl rfl
  | cons c rest p r h _ =>
    by_cases hclock : p.isClock
    · cases h with
      | clock hword hafter hcall =>
        rename_i name after stamp tail
        have hreads := Reads.clock hword hafter hcall
        obtain ⟨d, more, hlit, hd, hstring⟩ := literal_head nowMs stamp
        refine Or.inr ⟨stamp, c :: name, tail, _, c, d, hreads.readings, rfl,
          hword c List.mem_cons_self, ?_, hd, hstring⟩
        rw [hreads.refold, Reading.folded, hlit]
        rfl
      | _ => exact absurd hclock (by simp [Reading.isClock])
    · obtain ⟨more, hraw, _⟩ := h.raw
      rw [h.refold, Reading.folded_of_not_clock nowMs hclock, hraw]
      exact Or.inl rfl

theorem refold_nil : refold nowMs [] = [] := rfl

/-- A character that is neither a word's nor a literal's stays in front. -/
theorem refold_head_iff {text : List Char} {c : Char} (hword : ¬ isWordChar c)
    (hquote : c ≠ '\'') : (refold nowMs text).head? = some c ↔ text.head? = some c := by
  rcases refold_head nowMs text with h | ⟨_, _, _, _, w, d, _, htext, hw, hfold, hd, _⟩
  · rw [h]
  · rw [htext, hfold]
    constructor
    · rintro h
      rw [← Option.some.inj h] at hquote hword
      rcases hd with rfl | rfl
      · exact absurd rfl hword
      · exact absurd rfl hquote
    · intro h
      rw [← Option.some.inj h] at hword
      exact absurd hw hword

/-- Behind a text no word goes on in, the first character stays. -/
theorem refold_head_eq {text : List Char} (h : ∀ d, text.head? = some d → ¬ isWordChar d) :
    (refold nowMs text).head? = text.head? := by
  rcases refold_head nowMs text with heq | ⟨_, _, _, _, w, _, _, htext, hw, _⟩
  · exact heq
  · exact absurd hw (h w htext)

theorem refold_line (rest : List Char) :
    refold nowMs (lineRun rest).2 = [] ∨ (refold nowMs (lineRun rest).2).head? = some '\n' := by
  rcases lineRun_rest rest with h | h
  · rw [h]
    exact Or.inl rfl
  · exact Or.inr ((refold_head_iff nowMs (by decide) (by decide)).mpr h)

/-! ## Blanks in the folded text -/

/-- Whitespace is no word and no mark. -/
def BlankOk (space : Char → Bool) : Prop := ∀ c, space c → ¬ isWordChar c ∧ c ∉ marks

theorem blankOk_ascii : BlankOk isAsciiWhitespace := by
  intro c hc
  simp only [isAsciiWhitespace, List.mem_cons, List.not_mem_nil, or_false,
    decide_eq_true_eq] at hc
  rcases hc with rfl | rfl | rfl | rfl | rfl <;> decide

theorem Lexer.blankOk (lx : Lexer) : BlankOk lx.space := by
  intro c hc
  exact ⟨fun hw => lx.ident_space c hc (lx.ident_word c hw), fun hm => lx.space_mark c hm hc⟩

variable {space : Char → Bool}

theorem blankPiece_refold_some (hspace : BlankOk space) {c : Char}
    {rest blank after : List Char} (h : blankPiece space c rest = some (blank, after)) :
    ∃ more, refold nowMs (c :: rest) = c :: more ∧
      blankPiece space c more = some (blank, refold nowMs after) := by
  rw [blankPiece] at h
  split_ifs at h with h1 h2 h3
  · cases h
    obtain ⟨hword, hmark⟩ := hspace c h1
    simp only [marks, List.mem_cons, List.not_mem_nil, or_false, not_or] at hmark
    have hreads : Reads c rest (.char c) rest := by
      refine .char (by simp [quoteMarks, hmark]) hmark.2.2.2.1 ?_ ?_ hword
      · exact fun hc => hmark.2.2.2.2.1 hc.1
      · exact fun hc => hmark.2.2.2.2.2.1 hc.1
    exact ⟨refold nowMs rest, hreads.refold nowMs, by rw [blankPiece, if_pos h1]⟩
  · obtain ⟨rfl, hdash⟩ := h2
    obtain ⟨more, rfl⟩ := List.head?_eq_some_iff.mp hdash
    have hline : lineRun ('-' :: '-' :: more) = ('-' :: '-' :: (lineRun more).1,
        (lineRun more).2) := by simp [lineRun]
    rw [hline] at h
    cases h
    refine ⟨'-' :: ((lineRun more).1 ++ refold nowMs (lineRun more).2),
      Reads.line.refold nowMs, ?_⟩
    have hrun := @lineRun_replace ('-' :: '-' :: more) (refold nowMs (lineRun more).2)
      (refold_line nowMs more)
    rw [hline] at hrun
    rw [blankPiece, if_neg h1, if_pos ⟨rfl, rfl⟩]
    exact congrArg some hrun
  · obtain ⟨rfl, hstar⟩ := h3
    obtain ⟨more, rfl⟩ := List.head?_eq_some_iff.mp hstar
    cases h
    refine ⟨'*' :: ((blockRun more).1 ++ blockEnd (blockRun more).2.1 ++
      refold nowMs (blockRun more).2.2), Reads.block.refold nowMs, ?_⟩
    have hrun := @blockRun_replace more (refold nowMs (blockRun more).2.2)
      (fun h => by rw [blockRun_unclosed more h]; rfl)
    rw [blankPiece, if_neg h1, if_neg (by simp), if_pos ⟨rfl, rfl⟩]
    simp only [List.tail_cons]
    rw [hrun]

theorem blankPiece_refold_none (hspace : BlankOk space) {c : Char} {rest : List Char}
    (h : blankPiece space c rest = none) :
    ∃ d more, refold nowMs (c :: rest) = d :: more ∧ blankPiece space d more = none := by
  have hnone {d : Char} {more : List Char} (h1 : ¬ space d)
      (h2 : ¬ (d = '-' ∧ more.head? = some '-')) (h3 : ¬ (d = '/' ∧ more.head? = some '*')) :
      blankPiece space d more = none := by
    rw [blankPiece, if_neg h1, if_neg h2, if_neg h3]
  have hword {d : Char} (hd : isWordChar d) (more : List Char) :
      blankPiece space d more = none := by
    obtain ⟨_, _, h3, h4⟩ := not_mark_of_isWordChar hd
    exact hnone (fun hs => (hspace d hs).1 hd) (fun h => h3 h.1) (fun h => h4 h.1)
  have hmark {d : Char} (hd : d ∈ marks) (h3 : d ≠ '-') (h4 : d ≠ '/') (more : List Char) :
      blankPiece space d more = none :=
    hnone (fun hs => (hspace d hs).2 hd) (fun h => h3 h.1) (fun h => h4 h.1)
  have hread := reads_foldPiece c rest
  generalize foldPiece c rest = found at hread
  obtain ⟨p, r⟩ := found
  have hfold := hread.refold nowMs
  cases hread with
  | quoted hc =>
    refine ⟨_, _, hfold, hmark ?_ ?_ ?_ _⟩
    all_goals
      simp only [quoteMarks, List.mem_cons, List.not_mem_nil, or_false] at hc
      rcases hc with rfl | rfl | rfl <;> decide
  | bracketed => exact ⟨_, _, hfold, hmark (by decide) (by decide) (by decide) _⟩
  | line =>
    rw [blankPiece] at h
    split_ifs at h with h1 h2 h3
    exact absurd ⟨rfl, rfl⟩ h2
  | block =>
    rw [blankPiece] at h
    split_ifs at h with h1 h2 h3
    exact absurd ⟨rfl, rfl⟩ h3
  | word hw _ _ => exact ⟨_, _, hfold, hword (hw c List.mem_cons_self) _⟩
  | @clock _ _ _ stamp _ _ hw _ _ =>
    obtain ⟨d, more, hlit, hd, _⟩ := literal_head nowMs stamp
    rw [Reading.folded, hlit] at hfold
    refine ⟨d, _, hfold, ?_⟩
    rcases hd with rfl | rfl
    · exact hword (by decide) _
    · exact hmark (by decide) (by decide) (by decide) _
  | char h1 h2 h3 h4 h5 =>
    refine ⟨_, _, hfold, hnone ?_ ?_ ?_⟩
    · intro hs
      rw [blankPiece, if_pos hs] at h
      exact absurd h (by simp)
    · rintro ⟨hc, hdash⟩
      exact h3 ⟨hc, (refold_head_iff nowMs (by decide) (by decide)).mp hdash⟩
    · rintro ⟨hc, hstar⟩
      exact h4 ⟨hc, (refold_head_iff nowMs (by decide) (by decide)).mp hstar⟩

/-- Whitespace and comments stay as they are. -/
theorem skipBlanks_refold (hspace : BlankOk space) (text : List Char) :
    skipBlanks space (refold nowMs text) =
      ((skipBlanks space text).1, refold nowMs (skipBlanks space text).2) := by
  induction text using skipBlanks_induction space with
  | nil => rfl
  | stop c rest h =>
    obtain ⟨d, more, hfold, hnone⟩ := blankPiece_refold_none nowMs hspace h
    rw [skipBlanks_cons, h, hfold, skipBlanks_cons, hnone]
  | skip c rest blank after h ih =>
    obtain ⟨more, hfold, hsome⟩ := blankPiece_refold_some nowMs hspace h
    rw [skipBlanks_cons, h, hfold, skipBlanks_cons, hsome]
    simp only [ih]

theorem refold_paren {c : Char} (hc : c = '(' ∨ c = ')') (rest : List Char) :
    refold nowMs (c :: rest) = c :: refold nowMs rest := by
  have hreads : Reads c rest (.char c) rest := by
    rcases hc with rfl | rfl
    all_goals
      exact .char (by decide) (by decide) (fun h => absurd h.1 (by decide))
        (fun h => absurd h.1 (by decide)) (by decide)
  exact hreads.refold nowMs

theorem emptyCall_refold (hspace : BlankOk space) (text : List Char) :
    emptyCall space (refold nowMs text) =
      (emptyCall space text).map fun call => (call.1, refold nowMs call.2) := by
  have hparen {c : Char} (hc : c = '(' ∨ c = ')') {rest more : List Char}
      (h : refold nowMs rest = c :: more) : ∃ more', rest = c :: more' := by
    apply List.head?_eq_some_iff.mp
    have hhead : (refold nowMs rest).head? = some c := congrArg List.head? h
    rcases hc with rfl | rfl
    all_goals exact (refold_head_iff nowMs (by decide) (by decide)).mp hhead
  cases h : emptyCall space text with
  | some call =>
    obtain ⟨tail, back⟩ := call
    obtain ⟨outer, rest, inner, houter, hinner, htail⟩ := emptyCall_iff.mp h
    apply emptyCall_iff.mpr
    refine ⟨outer, refold nowMs rest, inner, ?_, ?_, htail⟩
    · rw [skipBlanks_refold nowMs hspace, houter, refold_paren nowMs (Or.inl rfl)]
    · rw [skipBlanks_refold nowMs hspace, hinner, refold_paren nowMs (Or.inr rfl)]
  | none =>
    apply Option.eq_none_iff_forall_not_mem.mpr
    rintro ⟨tail, back⟩ hcall
    obtain ⟨outer, rest, inner, houter, hinner, htail⟩ := emptyCall_iff.mp hcall
    rw [skipBlanks_refold nowMs hspace] at houter
    obtain ⟨rest', hrest⟩ := hparen (Or.inl rfl) (Prod.mk.inj houter).2
    have hfold := (Prod.mk.inj houter).2
    rw [hrest, refold_paren nowMs (Or.inl rfl)] at hfold
    rw [← (List.cons.inj hfold).2, skipBlanks_refold nowMs hspace] at hinner
    obtain ⟨back', hback⟩ := hparen (Or.inr rfl) (Prod.mk.inj hinner).2
    have hsome : emptyCall space text = some (_, back') :=
      emptyCall_iff.mpr ⟨_, rest', _, Prod.ext rfl hrest, Prod.ext rfl hback, rfl⟩
    rw [h] at hsome
    exact absurd hsome (by simp)

/-- A word begins the same call, or none, in the folded text. -/
theorem clockCall_refold (hspace : BlankOk space) (name after : List Char) :
    clockCall space name (refold nowMs after) =
      (clockCall space name after).map fun call =>
        (call.1, call.2.1, refold nowMs call.2.2) := by
  have hopen : (skipBlanks space (refold nowMs after)).2.head? = some '(' ↔
      (skipBlanks space after).2.head? = some '(' := by
    rw [skipBlanks_refold nowMs hspace]
    exact refold_head_iff nowMs (by decide) (by decide)
  rw [clockCall, clockCall, emptyCall_refold nowMs hspace]
  cases callStamp name <;> cases emptyCall space after
  all_goals
    simp only [Option.map_none, Option.map_some, ne_eq, hopen]
    try split_ifs <;> rfl

/-! ## The folded text read again -/

theorem readings_word {name after : List Char} (hne : name ≠ [])
    (hword : ∀ d ∈ name, isWordChar d)
    (hafter : ∀ d, after.head? = some d → ¬ isWordChar d)
    (hcall : clockCall isAsciiWhitespace name after = none) :
    readings (name ++ after) = .word name :: readings after := by
  cases name with
  | nil => exact absurd rfl hne
  | cons c name => exact (Reads.word hword hafter hcall).readings

theorem readings_char {c : Char} (h1 : c ∉ quoteMarks) (h2 : c ∉ ['[', '-', '/'])
    (h3 : ¬ isWordChar c) (after : List Char) :
    readings (c :: after) = .char c :: readings after := by
  simp only [List.mem_cons, List.not_mem_nil, or_false, not_or] at h2
  exact (Reads.char h1 h2.1 (fun h => h2.2.1 h.1) (fun h => h2.2.2 h.1) h3).readings

theorem clockCall_of_other {name : List Char} (h1 : callStamp name = none)
    (h2 : lowerWord name ≠ "current_timestamp".toList) (after : List Char) :
    clockCall space name after = none := by
  simp only [clockCall, h1, h2, false_and, if_false]

theorem quotedRun_doubleQuotes (text : List Char) {other : List Char}
    (h : other.head? ≠ some '\'') :
    quotedRun '\'' (doubleQuotes text ++ '\'' :: other) =
      (doubleQuotes text ++ ['\''], other) := by
  induction text with
  | nil =>
    cases other with
    | nil => rfl
    | cons e es =>
      have he : e ≠ '\'' := by simpa using h
      simp [doubleQuotes, quotedRun, he]
  | cons c text ih =>
    have hdouble : doubleQuotes (c :: text) =
        (if c = '\'' then ['\'', '\''] else [c]) ++ doubleQuotes text := rfl
    rw [hdouble]
    by_cases hc : c = '\''
    · simp only [hc, if_true, List.cons_append, List.nil_append, quotedRun, ih]
    · rw [if_neg hc, List.append_assoc, List.singleton_append]
      cases hrest : doubleQuotes text ++ '\'' :: other with
      | nil => exact absurd hrest (by simp)
      | cons d ds =>
        rw [quotedRun, if_neg hc, ← hrest, ih]
        rfl

/-- The readings of a literal. -/
def literalReadings (stamp : Stamp) : List Reading :=
  let inside := doubleQuotes (Timestamp.formatTimestampMs nowMs).toList ++ ['\'']
  match stamp with
  | .timestamp =>
    [.word "CAST".toList, .char '(', .region (.quoted '\'' inside), .char ' ',
      .word "AS".toList, .char ' ', .word "TIMESTAMP".toList, .char ')']
  | .string => [.region (.quoted '\'' inside)]

theorem readings_stringLiteral (text : List Char) {other : List Char}
    (h : other.head? ≠ some '\'') :
    readings (sqlStringLiteral text ++ other) =
      .region (.quoted '\'' (doubleQuotes text ++ ['\''])) :: readings other := by
  have hreads : Reads '\'' (doubleQuotes text ++ '\'' :: other) _ _ :=
    .quoted (by decide)
  rw [sqlStringLiteral, List.cons_append, List.append_assoc, List.singleton_append,
    hreads.readings, quotedRun_doubleQuotes text h]

theorem castText_append (text other : List Char) :
    "CAST(".toList ++ text ++ " AS TIMESTAMP)".toList ++ other = "CAST".toList ++
      '(' :: (text ++ ' ' :: ("AS".toList ++ ' ' :: ("TIMESTAMP".toList ++ ')' :: other))) := by
  simp

/-- The literal's own readings stand in front of what follows. -/
theorem readings_literal_append (stamp : Stamp) {other : List Char}
    (h : stamp = .string → other.head? ≠ some '\'') :
    readings (stamp.literal nowMs ++ other) =
      literalReadings nowMs stamp ++ readings other := by
  cases stamp with
  | string => exact readings_stringLiteral _ (h rfl)
  | timestamp =>
    have hword (name : List Char) (hne : name ≠ []) (hchars : ∀ d ∈ name, isWordChar d)
        (h1 : callStamp name = none) (h2 : lowerWord name ≠ "current_timestamp".toList)
        {c : Char} (hc : ¬ isWordChar c) (after : List Char) :
        readings (name ++ c :: after) = .word name :: readings (c :: after) :=
      readings_word hne hchars (by simpa using hc) (clockCall_of_other h1 h2 _)
    calc
      readings (Stamp.timestamp.literal nowMs ++ other) = readings ("CAST".toList ++
          '(' :: (sqlStringLiteral (Timestamp.formatTimestampMs nowMs).toList ++
            ' ' :: ("AS".toList ++ ' ' :: ("TIMESTAMP".toList ++ ')' :: other)))) := by
        exact congrArg readings (castText_append _ other)
      _ = literalReadings nowMs .timestamp ++ readings other := by
        rw [hword "CAST".toList (by decide) (List.all_eq_true.mp (by decide))
            (by decide) (by decide) (by decide),
          readings_char (by decide) (by decide) (by decide),
          readings_stringLiteral _ (by simp),
          readings_char (by decide) (by decide) (by decide),
          hword "AS".toList (by decide) (List.all_eq_true.mp (by decide))
            (by decide) (by decide) (by decide),
          readings_char (by decide) (by decide) (by decide),
          hword "TIMESTAMP".toList (by decide) (List.all_eq_true.mp (by decide))
            (by decide) (by decide) (by decide),
          readings_char (by decide) (by decide) (by decide)]
        rfl

theorem readings_literal (stamp : Stamp) :
    readings (stamp.literal nowMs) = literalReadings nowMs stamp := by
  have h := @readings_literal_append nowMs stamp [] (fun _ => by simp)
  rwa [List.append_nil, show readings [] = [] from rfl, List.append_nil] at h

/-- All but the clock calls reads as before, if no literal meets another. -/
theorem readings_refold {sql : List Char} (hsql : StringsApart sql) (text : List Char) :
    ∀ pre, readings sql = pre ++ readings text →
      readings (refold nowMs text) = (readings text).flatMap (Reading.renewed nowMs) := by
  induction text using readings_induction with
  | nil => exact fun _ _ => rfl
  | cons c rest p r h ih =>
    intro pre hpre
    rw [h.readings] at hpre
    have htail := ih (pre ++ [p]) (by rw [hpre, List.append_assoc]; rfl)
    have hfold := h.refold nowMs
    rw [h.readings, List.flatMap_cons, ← htail, hfold]
    cases h with
    | @quoted _ rest hc =>
      have hhead : (refold nowMs (quotedRun c rest).2).head? ≠ some c := by
        rcases refold_head nowMs (quotedRun c rest).2 with
          heq | ⟨stamp, name, tail, post, w, d, hread, hw, _, hd, hdc, hstring⟩
        · rw [heq]
          exact quotedRun_head_ne c rest
        · rw [hd]
          intro hdc'
          rw [Option.some.inj hdc'] at hdc hstring
          rcases hdc with rfl | rfl
          · exact absurd hc (by decide)
          · have hne : (quotedRun '\'' rest).2 ≠ [] := fun hnil => by
              rw [hnil] at hw
              exact absurd hw (by simp)
            have hlast := quotedRun_last '\'' rest hne
            rw [hread, hstring rfl] at hpre
            have hcond := (hsql (pre ++ [.region (.quoted '\'' (quotedRun '\'' rest).1)])
              name tail post (hpre.trans (List.append_cons _ _ _))).1
            rw [rawOf_append, List.getLast?_append] at hcond
            refine hcond ?_
            have hraw : (rawOf [.region (.quoted '\'' (quotedRun '\'' rest).1)]).getLast? =
                some '\'' := by
              simp [rawOf, Reading.raw, Piece.raw, List.getLast?_cons, hlast]
            rw [hraw]
            rfl
      have hrun := @quotedRun_replace c rest (refold nowMs (quotedRun c rest).2)
        (fun hnil => by rw [hnil]; rfl) hhead
      have hreads := @Reads.quoted c ((quotedRun c rest).1 ++ refold nowMs (quotedRun c rest).2) hc
      rw [hrun] at hreads
      exact hreads.readings
    | @line rest =>
      have hrun := @lineRun_replace rest (refold nowMs (lineRun rest).2) (refold_line nowMs rest)
      have hreads := @Reads.line ((lineRun rest).1 ++ refold nowMs (lineRun rest).2)
      rw [hrun] at hreads
      exact hreads.readings
    | @block rest =>
      have hrun := @blockRun_replace rest (refold nowMs (blockRun rest).2.2)
        (fun hopen => by rw [blockRun_unclosed rest hopen]; rfl)
      have hreads := @Reads.block ((blockRun rest).1 ++ blockEnd (blockRun rest).2.1 ++
        refold nowMs (blockRun rest).2.2)
      rw [hrun] at hreads
      exact hreads.readings
    | @bracketed rest =>
      have hhead : (refold nowMs (quotedRun ']' rest).2).head? ≠ some ']' := fun hhead =>
        quotedRun_head_ne ']' rest
          ((refold_head_iff nowMs (by decide) (by decide)).mp hhead)
      have hrun := @quotedRun_replace ']' rest (refold nowMs (quotedRun ']' rest).2)
        (fun hnil => by rw [hnil]; rfl) hhead
      have hreads := @Reads.bracketed ((quotedRun ']' rest).1 ++
        refold nowMs (quotedRun ']' rest).2)
      rw [hrun] at hreads
      exact hreads.readings
    | word hword hafter hcall =>
      apply readings_word (by simp) hword
      · rw [refold_head_eq nowMs hafter]
        exact hafter
      · rw [clockCall_refold nowMs blankOk_ascii, hcall]
        rfl
    | @clock _ name after stamp tail _ hword hafter hcall =>
      have hhead : stamp = .string → (refold nowMs r).head? ≠ some '\'' := by
        rintro rfl
        obtain ⟨_, hnext, hcalls⟩ := hsql pre (c :: name) tail (readings r) hpre
        rw [rawOf_readings] at hnext
        rcases refold_head nowMs r with
          heq | ⟨stamp, name', tail', post, w, d, hread, _, _, hd, _, hstring⟩
        · rwa [heq]
        · rw [hd]
          intro hquote
          rw [hstring (Option.some.inj hquote)] at hread
          exact hcalls name' tail' post hread
      rw [Reading.renewed, readings_literal]
      exact readings_literal_append nowMs stamp hhead
    | char h1 h2 h3 h4 h5 =>
      refine (Reads.char h1 h2 ?_ ?_ h5).readings
      · rintro ⟨hc, hdash⟩
        exact h3 ⟨hc, (refold_head_iff nowMs (by decide) (by decide)).mp hdash⟩
      · rintro ⟨hc, hstar⟩
        exact h4 ⟨hc, (refold_head_iff nowMs (by decide) (by decide)).mp hstar⟩

end Refold

/-! ## The readings and the regions of a text -/

theorem textPiece_word {c : Char} (h : isWordChar c) (rest : List Char) :
    textPiece c rest = (.plain c, rest) := by
  obtain ⟨h1, h2, h3, h4⟩ := not_mark_of_isWordChar h
  have h1' : ¬ (c = '\'' ∨ c = '"' ∨ c = '\x60') := by simpa [quoteMarks] using h1
  have h5 : c ≠ ';' := by
    rintro rfl
    exact absurd h (by decide)
  have h6 : c ≠ '\n' := by
    rintro rfl
    exact absurd h (by decide)
  rw [textPiece, if_neg h1', if_neg h2, if_neg fun h => h3 h.1, if_neg fun h => h4 h.1,
    if_neg h5, if_neg h6]

theorem textPieces_words {name : List Char} (h : ∀ d ∈ name, isWordChar d)
    (rest : List Char) :
    textPieces (name ++ rest) = name.map Piece.plain ++ textPieces rest := by
  induction name with
  | nil => rfl
  | cons c name ih =>
    rw [List.cons_append, textPieces_cons, textPiece_word (h c List.mem_cons_self),
      ih fun d hd => h d (List.mem_cons_of_mem c hd)]
    rfl

theorem rawText_plain (name : List Char) : rawText (name.map Piece.plain) = name := by
  induction name with
  | nil => rfl
  | cons c name ih => exact congrArg (c :: ·) ih

/-- A character that opens no region is a piece of its own. -/
theorem textPiece_single {c : Char} {rest : List Char} (h1 : c ∉ quoteMarks) (h2 : c ≠ '[')
    (h3 : ¬ (c = '-' ∧ rest.head? = some '-')) (h4 : ¬ (c = '/' ∧ rest.head? = some '*')) :
    ∃ x : Piece, textPiece c rest = (x, rest) ∧ x.raw = [c] := by
  have h1' : ¬ (c = '\'' ∨ c = '"' ∨ c = '\x60') := by simpa [quoteMarks] using h1
  rw [textPiece, if_neg h1', if_neg h2, if_neg h3, if_neg h4]
  split_ifs with h5 h6
  · exact ⟨_, rfl, by rw [h5]; rfl⟩
  · exact ⟨_, rfl, by rw [h6]; rfl⟩
  · exact ⟨_, rfl, rfl⟩

theorem textPieces_blanks (text : List Char) :
    ∃ ps, textPieces text = ps ++ textPieces (skipBlanks isAsciiWhitespace text).2 ∧
      rawText ps = (skipBlanks isAsciiWhitespace text).1 := by
  induction text using skipBlanks_induction isAsciiWhitespace with
  | nil => exact ⟨[], rfl, rfl⟩
  | stop c rest h =>
    refine ⟨[], ?_, ?_⟩
    all_goals
      rw [skipBlanks_cons, h]
      rfl
  | skip c rest blank after h ih =>
    obtain ⟨ps, hps, hraw⟩ := ih
    have hpiece : ∃ x : Piece, textPiece c rest = (x, after) ∧ x.raw = blank := by
      rw [blankPiece] at h
      split_ifs at h with h1 h2 h3
      · cases h
        have hmark := (blankOk_ascii c h1).2
        simp only [marks, List.mem_cons, List.not_mem_nil, or_false, not_or] at hmark
        exact textPiece_single (by simp [quoteMarks, hmark]) hmark.2.2.2.1
          (fun h => hmark.2.2.2.2.1 h.1) (fun h => hmark.2.2.2.2.2.1 h.1)
      · obtain ⟨rfl, hdash⟩ := h2
        refine ⟨.lineComment blank, ?_, rfl⟩
        rw [textPiece, if_neg (by decide), if_neg (by decide), if_pos ⟨rfl, hdash⟩,
          Option.some.inj h]
      · obtain ⟨rfl, hstar⟩ := h3
        cases h
        refine ⟨.blockComment (blockRun rest.tail).1 (blockRun rest.tail).2.1, ?_, rfl⟩
        rw [textPiece, if_neg (by decide), if_neg (by decide),
          if_neg fun h => absurd h.1 (by decide), if_pos ⟨rfl, hstar⟩]
    obtain ⟨x, hx, hxraw⟩ := hpiece
    refine ⟨x :: ps, ?_, ?_⟩
    · rw [textPieces_cons, hx, hps, skipBlanks_cons, h]
      rfl
    · rw [rawText_cons, hraw, hxraw, skipBlanks_cons, h]

theorem textPieces_paren {c : Char} (hc : c = '(' ∨ c = ')') (rest : List Char) :
    textPieces (c :: rest) = .plain c :: textPieces rest := by
  rw [textPieces_cons]
  rcases hc with rfl | rfl <;> rfl

theorem textPieces_call {text tail back : List Char}
    (h : emptyCall isAsciiWhitespace text = some (tail, back)) :
    ∃ ps, textPieces text = ps ++ textPieces back ∧ rawText ps = tail := by
  obtain ⟨outer, rest, inner, houter, hinner, rfl⟩ := emptyCall_iff.mp h
  obtain ⟨ps, hps, hraw⟩ := textPieces_blanks text
  obtain ⟨qs, hqs, hraw'⟩ := textPieces_blanks rest
  rw [houter] at hps hraw
  rw [hinner] at hqs hraw'
  refine ⟨ps ++ .plain '(' :: (qs ++ [.plain ')']), ?_, ?_⟩
  · rw [hps, textPieces_paren (Or.inl rfl), hqs, textPieces_paren (Or.inr rfl)]
    simp
  · rw [rawText_append, hraw, rawText_cons, rawText_append, hraw']
    rfl

/-- The pieces of a word, one for each of its characters. -/
def SpellsWord (ps : List Piece) : Prop :=
  ∃ name : List Char, ps = name.map Piece.plain ∧ ∀ d ∈ name, isWordChar d

/-- The pieces a reading is made of: one, those of a word, or those of a call. -/
theorem Reads.pieces {c : Char} {rest : List Char} {p : Reading} {r : List Char}
    (h : Reads c rest p r) :
    ∃ ps, textPieces (c :: rest) = ps ++ textPieces r ∧ rawText ps = p.raw ∧
      ((∃ x, ps = [x]) ∨ SpellsWord ps ∨ p.isClock) := by
  have hone {x : Piece} (hx : textPiece c rest = (x, r)) (hraw : x.raw = p.raw) :
      ∃ ps, textPieces (c :: rest) = ps ++ textPieces r ∧ rawText ps = p.raw ∧
        ((∃ x, ps = [x]) ∨ SpellsWord ps ∨ p.isClock) := by
    refine ⟨[x], by rw [textPieces_cons, hx]; rfl, ?_, Or.inl ⟨x, rfl⟩⟩
    rw [← hraw]
    exact List.append_nil _
  cases h with
  | quoted hc =>
    have hc' : c = '\'' ∨ c = '"' ∨ c = '\x60' := by simpa [quoteMarks] using hc
    exact hone (by rw [textPiece, if_pos hc']) rfl
  | @line rest =>
    refine hone (x := .lineComment ('-' :: '-' :: (lineRun rest).1)) ?_ rfl
    rw [textPiece, if_neg (by decide), if_neg (by decide), if_pos ⟨rfl, rfl⟩]
    simp [lineRun]
  | block => exact hone rfl rfl
  | bracketed => exact hone rfl rfl
  | @word _ name after hword _ _ =>
    refine ⟨(c :: name).map Piece.plain, textPieces_words hword _, rawText_plain _,
      Or.inr (Or.inl ⟨_, rfl, hword⟩)⟩
  | @clock _ name after stamp tail _ hword _ hcall =>
    have hwords := textPieces_words hword after
    rcases clockCall_cases hcall with ⟨_, hempty⟩ | ⟨_, _, rfl, rfl, _⟩
    · obtain ⟨ps, hps, hraw⟩ := textPieces_call hempty
      refine ⟨(c :: name).map Piece.plain ++ ps, ?_, ?_, Or.inr (Or.inr rfl)⟩
      · rw [List.append_assoc, ← hps]
        exact hwords
      · rw [rawText_append, rawText_plain, hraw]
        rfl
    · refine ⟨(c :: name).map Piece.plain, hwords, ?_, Or.inr (Or.inr rfl)⟩
      rw [rawText_plain]
      exact (List.append_nil _).symm
  | char h1 h2 h3 h4 _ =>
    obtain ⟨x, hx, hraw⟩ := textPiece_single h1 h2 h3 h4
    exact hone hx hraw

/-- Readings end outside the regions. -/
theorem outside_of_readings {sql : List Char} {pre post : List Reading}
    (h : readings sql = pre ++ post) :
    ∃ ps, textPieces sql = ps ++ textPieces (rawOf post) ∧ rawText ps = rawOf pre := by
  induction sql using readings_induction generalizing pre with
  | nil =>
    obtain ⟨rfl, rfl⟩ := List.append_eq_nil_iff.mp h.symm
    exact ⟨[], rfl, rfl⟩
  | cons c rest p r hreads ih =>
    cases pre with
    | nil =>
      rw [List.nil_append] at h
      exact ⟨[], by rw [← h, rawOf_readings]; rfl, rfl⟩
    | cons q pre =>
      rw [hreads.readings, List.cons_append] at h
      obtain ⟨rfl, hrest⟩ := List.cons.inj h
      obtain ⟨ps, hps, hraw⟩ := ih hrest
      obtain ⟨qs, hqs, hraw', _⟩ := hreads.pieces
      exact ⟨qs ++ ps, by rw [hqs, hps, List.append_assoc],
        by rw [rawText_append, hraw, hraw', rawOf_cons]⟩

/-- Outside the regions of a text without clock readings, a place is between two readings
or inside a word. -/
theorem boundary_of_pieces {sql : List Char} (hclock : ∀ p ∈ readings sql, ¬ p.isClock)
    {ps qs : List Piece} (h : textPieces sql = ps ++ qs) :
    (∃ pre post, readings sql = pre ++ post ∧ rawOf pre = rawText ps) ∨
      ∃ c, (rawText ps).getLast? = some c ∧ isWordChar c := by
  induction sql using readings_induction generalizing ps with
  | nil =>
    obtain ⟨rfl, rfl⟩ := List.append_eq_nil_iff.mp h.symm
    exact Or.inl ⟨[], [], rfl, rfl⟩
  | cons c rest p r hreads ih =>
    obtain ⟨own, hown, hraw, hkind⟩ := hreads.pieces
    rw [hreads.readings] at hclock ⊢
    rw [hown] at h
    rcases List.append_eq_append_iff.mp h with ⟨more, rfl, hrest⟩ | ⟨more, hsplit, _⟩
    · rcases ih (fun q hq => hclock q (List.mem_cons_of_mem p hq)) hrest with
        ⟨pre, post, hpre, hpreraw⟩ | ⟨d, hlast, hd⟩
      · refine Or.inl ⟨p :: pre, post, by rw [hpre]; rfl, ?_⟩
        rw [rawOf_cons, hpreraw, rawText_append, hraw]
      · refine Or.inr ⟨d, ?_, hd⟩
        rw [rawText_append, List.getLast?_append, hlast]
        rfl
    · cases ps with
      | nil => exact Or.inl ⟨[], _, rfl, rfl⟩
      | cons x ps =>
        rcases hkind with ⟨y, rfl⟩ | ⟨name, rfl, hname⟩ | hc
        · obtain ⟨rfl, hnil⟩ := List.cons.inj hsplit
          obtain ⟨rfl, rfl⟩ := List.append_eq_nil_iff.mp hnil.symm
          exact Or.inl ⟨[p], readings r, rfl, by rw [hraw]; exact List.append_nil _⟩
        · obtain ⟨front, back, rfl, hfront, _⟩ := List.map_eq_append_iff.mp hsplit
          refine Or.inr ?_
          rw [← hfront, rawText_plain]
          cases hlast : front.getLast? with
          | none =>
            rw [List.getLast?_eq_none_iff.mp hlast] at hfront
            exact absurd hfront (by simp)
          | some d =>
            exact ⟨d, rfl, hname d (List.mem_append_left _ (List.mem_of_getLast? hlast))⟩
        · exact absurd hc (hclock p List.mem_cons_self)

end Docsql.Stmt
