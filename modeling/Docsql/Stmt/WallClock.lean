import Docsql.Stmt.Batches

/-!
# Folding the wall clock

`mentions_wall_clock`, `skip_ws_comments` and `fold_wall_clocks` of `stmt.rs`: the clock
calls of a statement text become literals of one instant.  Regions are copied as they are.
-/

namespace Docsql.Stmt

open Docsql.Timestamp (formatTimestampMs)

/-! ## Whitespace and words -/

/-- `u8::is_ascii_whitespace` -/
def isAsciiWhitespace (c : Char) : Bool := c ∈ [' ', '\t', '\n', '\x0c', '\r']

/-- The characters of a word. -/
def isWordChar (c : Char) : Bool := c.isAlphanum || c = '_'

/-- A turn of `skip_ws_comments`: whitespace or a comment, if one stands at the start. -/
def blankPiece (space : Char → Bool) (c : Char) (rest : List Char) :
    Option (List Char × List Char) :=
  if space c then
    some ([c], rest)
  else if c = '-' ∧ rest.head? = some '-' then
    some (lineRun (c :: rest))
  else if c = '/' ∧ rest.head? = some '*' then
    let r := blockRun rest.tail
    some (c :: '*' :: (r.1 ++ blockEnd r.2.1), r.2.2)
  else
    none

/-- The whitespace and comments a text starts with, and what stands behind them. -/
def skipBlanksFuel (space : Char → Bool) : ℕ → List Char → List Char × List Char
  | 0, text => ([], text)
  | _ + 1, [] => ([], [])
  | n + 1, c :: rest =>
    match blankPiece space c rest with
    | none => ([], c :: rest)
    | some (blank, after) =>
      let r := skipBlanksFuel space n after
      (blank ++ r.1, r.2)

def skipBlanks (space : Char → Bool) (text : List Char) : List Char × List Char :=
  skipBlanksFuel space text.length text

def skipWsComments (text : List Char) : List Char × List Char :=
  skipBlanks isAsciiWhitespace text

/-! ## Clock calls -/

/-- What a call becomes: a timestamp, or the text of one. -/
inductive Stamp where
  | timestamp
  | string
deriving DecidableEq

def lowerWord (word : List Char) : List Char := word.map Char.toLower

/-- The functions a clock call can be of. -/
def callStamp (word : List Char) : Option Stamp :=
  let w := lowerWord word
  if w = "now".toList ∨ w = "now_ms".toList then some .timestamp
  else if w = "sysdate".toList then some .string
  else if w ∈ ["current_timestamp".toList, "getdate".toList, "getutcdate".toList,
      "sysdatetime".toList, "sysutcdatetime".toList, "sysdatetimeoffset".toList] then
    some .timestamp
  else none

/-- `()` with what may stand in front of either parenthesis, and the text behind it. -/
def emptyCall (space : Char → Bool) (text : List Char) : Option (List Char × List Char) :=
  match skipBlanks space text with
  | (outer, '(' :: rest) =>
    match skipBlanks space rest with
    | (inner, ')' :: back) => some (outer ++ '(' :: (inner ++ [')']), back)
    | _ => none
  | _ => none

/-- The clock call that a word begins, given what stands behind the word: what it becomes,
the rest of the call and the text behind it. -/
def clockCall (space : Char → Bool) (word after : List Char) :
    Option (Stamp × List Char × List Char) :=
  match callStamp word, emptyCall space after with
  | some stamp, some (tail, back) => some (stamp, tail, back)
  | _, _ =>
    if lowerWord word = "current_timestamp".toList ∧
        (skipBlanks space after).2.head? ≠ some '(' then
      some (.timestamp, [], after)
    else
      none

/-! ## The scan -/

/-- What one turn of the loop of `fold_wall_clocks` reads. -/
inductive Reading where
  | region (kind : Piece)
  | word (text : List Char)
  /-- A clock word and the rest of its call. -/
  | clock (stamp : Stamp) (name tail : List Char)
  | char (c : Char)
deriving DecidableEq

def Reading.raw : Reading → List Char
  | .region p => p.raw
  | .word text => text
  | .clock _ name tail => name ++ tail
  | .char c => [c]

def foldPiece (c : Char) (rest : List Char) : Reading × List Char :=
  if c = '\'' ∨ c = '"' ∨ c = '\x60' then
    let r := quotedRun c rest
    (.region (.quoted c r.1), r.2)
  else if c = '-' ∧ rest.head? = some '-' then
    let r := lineRun (c :: rest)
    (.region (.lineComment r.1), r.2)
  else if c = '/' ∧ rest.head? = some '*' then
    let r := blockRun rest.tail
    (.region (.blockComment r.1 r.2.1), r.2.2)
  else if c = '[' then
    let r := quotedRun ']' rest
    (.region (.bracketed r.1), r.2)
  else if isWordChar c then
    let word := c :: rest.takeWhile isWordChar
    let after := rest.dropWhile isWordChar
    match clockCall isAsciiWhitespace word after with
    | some (stamp, tail, back) => (.clock stamp word tail, back)
    | none => (.word word, after)
  else
    (.char c, rest)

def readings (sql : List Char) : List Reading := piecesFuel foldPiece sql.length sql

/-! ## The literals -/

/-- `replace('\'', "''")` -/
def doubleQuotes (text : List Char) : List Char :=
  text.flatMap fun c => if c = '\'' then ['\'', '\''] else [c]

def sqlStringLiteral (text : List Char) : List Char :=
  '\'' :: (doubleQuotes text ++ ['\''])

def Stamp.literal (nowMs : ℤ) : Stamp → List Char
  | .timestamp =>
    "CAST(".toList ++ sqlStringLiteral (formatTimestampMs nowMs).toList ++
      " AS TIMESTAMP)".toList
  | .string => sqlStringLiteral (formatTimestampMs nowMs).toList

def Reading.folded (nowMs : ℤ) : Reading → List Char
  | .clock stamp _ _ => stamp.literal nowMs
  | p => p.raw

def Reading.isClock : Reading → Bool
  | .clock _ _ _ => true
  | _ => false

/-! ## The pass -/

/-- The names the cheap test looks for. -/
def clockNames : List (List Char) :=
  ["now".toList, "sysdate".toList, "current_timestamp".toList, "getdate".toList,
    "getutcdate".toList, "sysdatetime".toList, "sysutcdatetime".toList]

def mentionsWallClock (sql : List Char) : Bool :=
  clockNames.any fun name => name <:+: lowerWord sql

def foldWallClocks (sql : List Char) (nowMs : ℤ) : Option (List Char) :=
  if mentionsWallClock sql ∧ (readings sql).any Reading.isClock then
    some ((readings sql).flatMap (Reading.folded nowMs))
  else
    none

end Docsql.Stmt

/-!
# What the clock scanner reads

One turn of `fold_wall_clocks` as a relation, and the text as the sequence of its
readings: nothing is skipped, words are as long as they can be, and two literals never
stand side by side.
-/

namespace Docsql.Stmt

/-! ## Blanks -/

theorem blankPiece_append {space : Char → Bool} {c : Char} {rest blank after : List Char}
    (h : blankPiece space c rest = some (blank, after)) :
    ∃ more, blank = c :: more ∧ more ++ after = rest := by
  rw [blankPiece] at h
  split_ifs at h with h1 h2 h3
  · cases h
    exact ⟨[], rfl, rfl⟩
  · rw [Option.some.injEq] at h
    have happend := lineRun_append (c :: rest)
    have hfirst : (lineRun (c :: rest)).1 = c :: (lineRun rest).1 := by
      simp [lineRun, h2.1]
    rw [h] at happend hfirst
    have hblank : blank = c :: (lineRun rest).1 := hfirst
    rw [hblank] at happend
    exact ⟨_, hblank, (List.cons.inj happend).2⟩
  · cases h
    obtain ⟨more, rfl⟩ := List.head?_eq_some_iff.mp h3.2
    refine ⟨_, rfl, ?_⟩
    exact congrArg ('*' :: ·) (blockRun_append more)

theorem skipBlanksFuel_eq (space : Char → Bool) :
    ∀ (n m : ℕ) (text : List Char), text.length ≤ n → text.length ≤ m →
      skipBlanksFuel space n text = skipBlanksFuel space m text
  | 0, m, text, hn, _ => by
    rw [List.eq_nil_of_length_eq_zero (Nat.le_zero.mp hn)]
    cases m <;> rfl
  | n + 1, 0, text, _, hm => by
    rw [List.eq_nil_of_length_eq_zero (Nat.le_zero.mp hm)]
    rfl
  | n + 1, m + 1, [], _, _ => rfl
  | n + 1, m + 1, c :: rest, hn, hm => by
    rw [skipBlanksFuel, skipBlanksFuel]
    split
    · rfl
    · next blank after hblank =>
      obtain ⟨more, _, rfl⟩ := blankPiece_append hblank
      rw [List.length_cons, List.length_append] at hn hm
      rw [skipBlanksFuel_eq space n m after (by omega) (by omega)]

theorem skipBlanks_cons (space : Char → Bool) (c : Char) (rest : List Char) :
    skipBlanks space (c :: rest) =
      match blankPiece space c rest with
      | none => ([], c :: rest)
      | some (blank, after) =>
        (blank ++ (skipBlanks space after).1, (skipBlanks space after).2) := by
  rw [skipBlanks, List.length_cons, skipBlanksFuel]
  cases hblank : blankPiece space c rest with
  | none => rfl
  | some found =>
    obtain ⟨more, _, rfl⟩ := blankPiece_append hblank
    simp only
    rw [skipBlanksFuel_eq space _ found.2.length found.2 (by simp) le_rfl]
    rfl

/-- Induction along the blanks of a text. -/
theorem skipBlanks_induction (space : Char → Bool) {motive : List Char → Prop}
    (nil : motive [])
    (stop : ∀ c rest, blankPiece space c rest = none → motive (c :: rest))
    (skip : ∀ c rest blank after, blankPiece space c rest = some (blank, after) →
      motive after → motive (c :: rest)) : ∀ text, motive text := by
  intro text
  induction hlen : text.length using Nat.strong_induction_on generalizing text with
  | _ n ih =>
    cases text with
    | nil => exact nil
    | cons c rest =>
      cases hblank : blankPiece space c rest with
      | none => exact stop c rest hblank
      | some found =>
        obtain ⟨blank, after⟩ := found
        have ⟨more, _, hrest⟩ := blankPiece_append hblank
        rw [← hrest, List.length_cons, List.length_append] at hlen
        exact skip c rest blank after hblank (ih _ (by omega) _ rfl)

theorem skipBlanks_append (space : Char → Bool) (text : List Char) :
    (skipBlanks space text).1 ++ (skipBlanks space text).2 = text := by
  induction text using skipBlanks_induction space with
  | nil => rfl
  | stop c rest h => rw [skipBlanks_cons, h]; rfl
  | skip c rest blank after h ih =>
    obtain ⟨more, rfl, hrest⟩ := blankPiece_append h
    rw [skipBlanks_cons, h]
    simp only
    rw [List.append_assoc, ih, List.cons_append, hrest]

theorem emptyCall_iff {space : Char → Bool} {text tail back : List Char} :
    emptyCall space text = some (tail, back) ↔
      ∃ outer rest inner, skipBlanks space text = (outer, '(' :: rest) ∧
        skipBlanks space rest = (inner, ')' :: back) ∧
        tail = outer ++ '(' :: (inner ++ [')']) := by
  rw [emptyCall]
  constructor
  · intro h
    split at h
    · next outer rest houter =>
      split at h
      · next inner back' hinner =>
        cases h
        exact ⟨outer, rest, inner, houter, hinner, rfl⟩
      · exact absurd h (by simp)
    · exact absurd h (by simp)
  · rintro ⟨outer, rest, inner, houter, hinner, rfl⟩
    rw [houter]
    simp only [hinner]

theorem emptyCall_append {space : Char → Bool} {text tail back : List Char}
    (h : emptyCall space text = some (tail, back)) : tail ++ back = text := by
  obtain ⟨outer, rest, inner, houter, hinner, rfl⟩ := emptyCall_iff.mp h
  have ho := skipBlanks_append space text
  have hi := skipBlanks_append space rest
  rw [houter] at ho
  rw [hinner] at hi
  rw [← ho, ← hi]
  simp

/-- A call is an empty argument list, or none at all. -/
theorem clockCall_cases {space : Char → Bool} {word after : List Char} {stamp : Stamp}
    {tail back : List Char} (h : clockCall space word after = some (stamp, tail, back)) :
    (callStamp word = some stamp ∧ emptyCall space after = some (tail, back)) ∨
      (lowerWord word = "current_timestamp".toList ∧ stamp = .timestamp ∧ tail = [] ∧
        back = after ∧ (skipBlanks space after).2.head? ≠ some '(') := by
  rw [clockCall] at h
  split at h
  · next stamp' tail' back' hstamp hcall =>
    cases h
    exact Or.inl ⟨hstamp, hcall⟩
  · split_ifs at h with hbare
    cases h
    exact Or.inr ⟨hbare.1, rfl, rfl, rfl, hbare.2⟩

theorem clockCall_append {space : Char → Bool} {word after : List Char} {stamp : Stamp}
    {tail back : List Char} (h : clockCall space word after = some (stamp, tail, back)) :
    tail ++ back = after := by
  rcases clockCall_cases h with ⟨_, hcall⟩ | ⟨_, _, rfl, rfl, _⟩
  · exact emptyCall_append hcall
  · rfl

/-! ## One turn -/

def quoteMarks : List Char := ['\'', '"', '\x60']

/-- One turn of the scanner, case by case. -/
inductive Reads : Char → List Char → Reading → List Char → Prop
  | quoted {c rest} : c ∈ quoteMarks →
      Reads c rest (.region (.quoted c (quotedRun c rest).1)) (quotedRun c rest).2
  | line {rest} :
      Reads '-' ('-' :: rest) (.region (.lineComment ('-' :: '-' :: (lineRun rest).1)))
        (lineRun rest).2
  | block {rest} :
      Reads '/' ('*' :: rest) (.region (.blockComment (blockRun rest).1 (blockRun rest).2.1))
        (blockRun rest).2.2
  | bracketed {rest} :
      Reads '[' rest (.region (.bracketed (quotedRun ']' rest).1)) (quotedRun ']' rest).2
  | clock {c rest after stamp tail back} : (∀ d ∈ c :: rest, isWordChar d) →
      (∀ d, after.head? = some d → ¬ isWordChar d) →
      clockCall isAsciiWhitespace (c :: rest) after = some (stamp, tail, back) →
      Reads c (rest ++ after) (.clock stamp (c :: rest) tail) back
  | word {c rest after} : (∀ d ∈ c :: rest, isWordChar d) →
      (∀ d, after.head? = some d → ¬ isWordChar d) →
      clockCall isAsciiWhitespace (c :: rest) after = none →
      Reads c (rest ++ after) (.word (c :: rest)) after
  | char {c rest} : c ∉ quoteMarks → c ≠ '[' → ¬ (c = '-' ∧ rest.head? = some '-') →
      ¬ (c = '/' ∧ rest.head? = some '*') → ¬ isWordChar c → Reads c rest (.char c) rest

theorem not_wordChar_head_dropWhile (rest : List Char) :
    ∀ d, (rest.dropWhile isWordChar).head? = some d → ¬ isWordChar d := by
  intro d hd
  have h := List.head?_dropWhile_not isWordChar rest
  rw [hd] at h
  simpa using h

theorem reads_foldPiece (c : Char) (rest : List Char) :
    Reads c rest (foldPiece c rest).1 (foldPiece c rest).2 := by
  rw [foldPiece]
  split_ifs with h1 h2 h3 h4 h5
  · exact .quoted (by simpa [quoteMarks] using h1)
  · obtain ⟨rfl, hdash⟩ := h2
    obtain ⟨more, rfl⟩ := List.head?_eq_some_iff.mp hdash
    exact .line
  · obtain ⟨rfl, hstar⟩ := h3
    obtain ⟨more, rfl⟩ := List.head?_eq_some_iff.mp hstar
    exact .block
  · rw [h4]
    exact .bracketed
  · have hword : ∀ d ∈ c :: rest.takeWhile isWordChar, isWordChar d := by
      intro d hd
      rcases List.mem_cons.mp hd with rfl | hd
      · exact h5
      · exact List.mem_takeWhile_imp hd
    have hsplit : rest = rest.takeWhile isWordChar ++ rest.dropWhile isWordChar :=
      List.takeWhile_append_dropWhile.symm
    simp only
    split
    · next stamp tail back hcall =>
      have h := Reads.clock hword (not_wordChar_head_dropWhile rest) hcall
      rwa [← hsplit] at h
    · next hcall =>
      have h := Reads.word hword (not_wordChar_head_dropWhile rest) hcall
      rwa [← hsplit] at h
  · exact .char (by simpa [quoteMarks] using h1) h4 h2 h3 h5

/-- A word character opens no region. -/
theorem not_mark_of_isWordChar {c : Char} (h : isWordChar c) :
    c ∉ quoteMarks ∧ c ≠ '[' ∧ c ≠ '-' ∧ c ≠ '/' := by
  refine ⟨?_, ?_, ?_, ?_⟩
  · intro hc
    simp only [quoteMarks, List.mem_cons, List.not_mem_nil, or_false] at hc
    rcases hc with rfl | rfl | rfl <;> exact absurd h (by decide)
  all_goals
    rintro rfl
    exact absurd h (by decide)

theorem foldPiece_word {c : Char} {rest after : List Char}
    (hword : ∀ d ∈ c :: rest, isWordChar d)
    (hafter : ∀ d, after.head? = some d → ¬ isWordChar d) :
    foldPiece c (rest ++ after) =
      match clockCall isAsciiWhitespace (c :: rest) after with
      | some (stamp, tail, back) => (.clock stamp (c :: rest) tail, back)
      | none => (.word (c :: rest), after) := by
  obtain ⟨h1, h2, h3, h4⟩ := not_mark_of_isWordChar (hword c List.mem_cons_self)
  have h1' : ¬ (c = '\'' ∨ c = '"' ∨ c = '\x60') := by simpa [quoteMarks] using h1
  have hstop : after.takeWhile isWordChar = [] := by
    cases after with
    | nil => rfl
    | cons d ds => exact List.takeWhile_cons_of_neg (hafter d rfl)
  have hrest : ∀ d ∈ rest, isWordChar d := fun d hd => hword d (List.mem_cons_of_mem c hd)
  have htake : (rest ++ after).takeWhile isWordChar = rest := by
    rw [List.takeWhile_append_of_pos hrest, hstop, List.append_nil]
  have hdrop : (rest ++ after).dropWhile isWordChar = after := by
    have h := List.takeWhile_append_dropWhile (p := isWordChar) (l := rest ++ after)
    rw [htake] at h
    exact List.append_cancel_left h
  rw [foldPiece, if_neg h1', if_neg fun h => h3 h.1, if_neg fun h => h4 h.1, if_neg h2,
    if_pos (hword c List.mem_cons_self)]
  cases hcall : clockCall isAsciiWhitespace (c :: rest) after with
  | none => simp only [htake, hdrop, hcall]
  | some call => simp only [htake, hdrop, hcall]

theorem Reads.eq {c : Char} {rest : List Char} {p : Reading} {r : List Char}
    (h : Reads c rest p r) : foldPiece c rest = (p, r) := by
  cases h with
  | quoted hc =>
    have hc' : c = '\'' ∨ c = '"' ∨ c = '\x60' := by simpa [quoteMarks] using hc
    rw [foldPiece, if_pos hc']
  | line => rfl
  | block => rfl
  | bracketed => rfl
  | clock hword hafter hcall => rw [foldPiece_word hword hafter, hcall]
  | word hword hafter hcall => rw [foldPiece_word hword hafter, hcall]
  | char h1 h2 h3 h4 h5 =>
    have h1' : ¬ (c = '\'' ∨ c = '"' ∨ c = '\x60') := by simpa [quoteMarks] using h1
    rw [foldPiece, if_neg h1', if_neg h3, if_neg h4, if_neg h2, if_neg h5]

/-- A turn takes the character it starts at and nothing it leaves. -/
theorem Reads.raw {c : Char} {rest : List Char} {p : Reading} {r : List Char}
    (h : Reads c rest p r) : ∃ more, p.raw = c :: more ∧ more ++ r = rest := by
  cases h with
  | quoted _ => exact ⟨_, rfl, quotedRun_append c rest⟩
  | @line rest => exact ⟨_, rfl, congrArg ('-' :: ·) (lineRun_append rest)⟩
  | @block rest => exact ⟨_, rfl, congrArg ('*' :: ·) (blockRun_append rest)⟩
  | bracketed => exact ⟨_, rfl, quotedRun_append ']' rest⟩
  | clock _ _ hcall =>
    exact ⟨_, rfl, (List.append_assoc _ _ _).trans (by rw [clockCall_append hcall])⟩
  | word _ _ _ => exact ⟨_, rfl, rfl⟩
  | char _ _ _ _ _ => exact ⟨[], rfl, rfl⟩

theorem shrinks_foldPiece : Shrinks foldPiece := by
  intro c rest
  obtain ⟨more, _, hrest⟩ := (reads_foldPiece c rest).raw
  have hlen := congrArg List.length hrest
  rw [List.length_append] at hlen
  omega

theorem readings_cons (c : Char) (rest : List Char) :
    readings (c :: rest) = (foldPiece c rest).1 :: readings (foldPiece c rest).2 :=
  piecesFuel_cons shrinks_foldPiece c rest

theorem Reads.readings {c : Char} {rest : List Char} {p : Reading} {r : List Char}
    (h : Reads c rest p r) : readings (c :: rest) = p :: Stmt.readings r := by
  rw [readings_cons, h.eq]

/-- Induction along the turns of the clock scanner. -/
theorem readings_induction {motive : List Char → Prop} (nil : motive [])
    (cons : ∀ c rest p r, Reads c rest p r → motive r → motive (c :: rest)) :
    ∀ text, motive text :=
  scan_induction shrinks_foldPiece nil
    fun c rest ih => cons c rest _ _ (reads_foldPiece c rest) ih

/-! ## The text as readings -/

def rawOf (rs : List Reading) : List Char := rs.flatMap Reading.raw

theorem rawOf_cons (p : Reading) (rs : List Reading) : rawOf (p :: rs) = p.raw ++ rawOf rs :=
  rfl

theorem rawOf_append (rs qs : List Reading) : rawOf (rs ++ qs) = rawOf rs ++ rawOf qs :=
  List.flatMap_append

theorem rawOf_readings (sql : List Char) : rawOf (readings sql) = sql := by
  induction sql using readings_induction with
  | nil => rfl
  | cons c rest p r h ih =>
    obtain ⟨more, hraw, hrest⟩ := h.raw
    rw [h.readings, rawOf_cons, ih, hraw, List.cons_append, hrest]

/-- What stands behind some of the readings is read on its own. -/
theorem readings_split {sql : List Char} {pre post : List Reading}
    (h : readings sql = pre ++ post) :
    post = readings (rawOf post) ∧ sql = rawOf pre ++ rawOf post := by
  refine ⟨?_, by rw [← rawOf_append, ← h, rawOf_readings]⟩
  induction sql using readings_induction generalizing pre with
  | nil =>
    rw [(List.append_eq_nil_iff.mp h.symm).2]
    rfl
  | cons c rest p r hreads ih =>
    cases pre with
    | nil => rw [← List.nil_append post, ← h, rawOf_readings]
    | cons q pre =>
      rw [hreads.readings] at h
      exact ih (List.cons.inj h).2

/-- The turn that a reading comes from. -/
theorem reads_of_readings {sql : List Char} {pre post : List Reading} {p : Reading}
    (h : readings sql = pre ++ p :: post) :
    ∃ c rest, rawOf (p :: post) = c :: rest ∧ Reads c rest p (rawOf post) := by
  have hsplit := (readings_split h).1
  cases hraw : rawOf (p :: post) with
  | nil =>
    rw [hraw] at hsplit
    exact absurd hsplit (by simp [readings, piecesFuel])
  | cons c rest =>
    rw [hraw, readings_cons] at hsplit
    obtain ⟨hp, hpost⟩ := List.cons.inj hsplit
    have hreads := reads_foldPiece c rest
    rw [hp]
    rw [hpost, rawOf_readings]
    exact ⟨c, rest, rfl, hreads⟩

end Docsql.Stmt
