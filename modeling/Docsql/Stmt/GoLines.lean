import Docsql.Stmt.Batches

/-!
# When the batch scanners agree

Three things the scanners promise: the same stretches are no code for either of them, they
cut at the same GO lines, and nothing of the text is lost but its separators.
-/

namespace Docsql.Stmt

open Docsql.Timestamp (isWhitespace trim)

/-! ## The promise -/

/-- The kinds of stretches that are not code. -/
inductive Region where
  | string
  | doubleQuoted
  | backQuoted
  | bracketed
  | lineComment
  | blockComment
deriving DecidableEq

def Piece.region : Piece → Option Region
  | .quoted quote _ =>
    if quote = '"' then some .doubleQuoted
    else if quote = '\x60' then some .backQuoted
    else some .string
  | .bracketed _ => some .bracketed
  | .lineComment _ => some .lineComment
  | .blockComment _ _ => some .blockComment
  | .semicolon | .newline | .plain _ => none

/-- The region each character of the text stands in. -/
def shading (ps : List Piece) : List (Option Region) :=
  ps.flatMap fun p => List.replicate p.raw.length p.region

/-- Where the GO lines end that a scanner cuts at, as offsets into the text. -/
def cutsFrom (s : Scan) (offset : ℕ) : List Piece → List ℕ
  | [] => if isGo s.line then [offset] else []
  | p :: ps =>
    (if p = .newline ∧ isGo s.line then [offset] else []) ++
      cutsFrom (s.step p) (offset + p.raw.length) ps

theorem marked_nil : 0 ≤ ([] : List Char).length := Nat.le_refl 0

def cuts (ps : List Piece) : List ℕ := cutsFrom { marked := marked_nil } 0 ps

/-- A GO line and the whitespace in front of it. -/
def IsGoLine (text : List Char) : Prop :=
  ∃ blank line, text = blank ++ line ∧ (∀ c ∈ blank, isWhitespace c) ∧ isGo line ∧
    '\n' ∉ line

/-- What stands between two chunks. -/
inductive Separator : List Char → Prop
  | semicolon : Separator [';']
  | goLine {text} : IsGoLine text → Separator (text ++ ['\n'])

/-- `Joined chunks text`: the text is the chunks, each with a separator behind it. -/
inductive Joined : List (List Char) → List Char → Prop
  | nil : Joined [] []
  | snoc {chunks text chunk separator} :
      Joined chunks text → Separator separator →
        Joined (chunks ++ [chunk]) (text ++ chunk ++ separator)

/-- The text is the chunks with separators between them, and perhaps a GO line at its
end. -/
def Rejoins (chunks : List (List Char)) (sql : List Char) : Prop :=
  ∃ front chunk text tail, chunks = front ++ [chunk] ∧ Joined front text ∧
    (tail = [] ∨ IsGoLine tail) ∧ sql = text ++ chunk ++ tail

structure ScannersAgree (sql : List Char) : Prop where
  regions : shading (textPieces sql) = shading (goPieces sql)
  goLines : cuts (textPieces sql) = cuts (goPieces sql)
  rejoins : Rejoins (textChunks sql) sql

/-! ## The condition -/

namespace Piece

/-- Delimited identifiers that only `text_chunks` knows. -/
def delimits : Piece → Bool
  | quoted quote _ => quote ≠ '\''
  | _ => false

def closesComment : Piece → Bool
  | blockComment _ closed => closed
  | _ => false

end Piece

/-- The pieces behind the last semicolon of a line. -/
def afterSemicolon (line : List Piece) : List Piece :=
  line.rtakeWhile (· ≠ Piece.semicolon)

/-- The lines of the input, `line` being the pieces of the first one read before. -/
def linesFrom (line : List Piece) : List Piece → List (List Piece)
  | [] => [line]
  | .newline :: ps => line :: linesFrom [] ps
  | p :: ps => linesFrom (line ++ [p]) ps

/-- No semicolon of the line stands in front of GO or behind it. -/
def NoGoBeside (line : List Piece) : Prop :=
  Piece.semicolon ∈ line → ¬ isGo (rawText line) ∧ ¬ isGo (rawText (afterSemicolon line))

structure PlainScript (sql : List Char) : Prop where
  undelimited : ∀ p ∈ textPieces sql, ¬ p.delimits
  uncommented : ∀ p ∈ textPieces sql, ¬ p.closesComment
  noGoBeside : ∀ line ∈ linesFrom [] (textPieces sql), NoGoBeside line

/-! ## The two readings of one text -/

/-- The pieces of `text_chunks` beside those of `go_batches`, where nothing but the
semicolons and doubled apostrophes is read in a different way. -/
inductive Splits : List Piece → List Piece → Prop
  | nil : Splits [] []
  | same {p ts gs} : p ≠ .semicolon → Splits ts gs → Splits (p :: ts) (p :: gs)
  | semicolon {ts gs} : Splits ts gs → Splits (.semicolon :: ts) (.plain ';' :: gs)
  | string {text strings ts gs} :
      (∀ p ∈ strings, ∃ inside, p = .quoted '\'' inside) → rawText strings = '\'' :: text →
        Splits ts gs → Splits (.quoted '\'' text :: ts) (strings ++ gs)

theorem shading_cons (p : Piece) (ps : List Piece) :
    shading (p :: ps) = List.replicate p.raw.length p.region ++ shading ps := rfl

theorem shading_append (ps qs : List Piece) : shading (ps ++ qs) = shading ps ++ shading qs :=
  List.flatMap_append

/-- A literal with doubled apostrophes is several literals for `go_batches`. -/
theorem goPieces_string (rest : List Char) :
    ∃ strings, (∀ p ∈ strings, ∃ inside, p = Piece.quoted '\'' inside) ∧
      rawText strings = '\'' :: (quotedRun '\'' rest).1 ∧
      goPieces ('\'' :: rest) = strings ++ goPieces (quotedRun '\'' rest).2 := by
  induction hlen : rest.length using Nat.strong_induction_on generalizing rest with
  | _ n ih =>
    have hgo : goPieces ('\'' :: rest) =
        .quoted '\'' (untilQuote '\'' rest).1 :: goPieces (untilQuote '\'' rest).2 :=
      goPieces_cons '\'' rest
    rcases quotedRun_cases '\'' rest with ⟨_, hrun⟩ | ⟨more, hmore, hrun⟩
    · refine ⟨[.quoted '\'' (untilQuote '\'' rest).1], ?_, ?_, ?_⟩
      · intro p hp
        exact ⟨_, List.mem_singleton.mp hp⟩
      · rw [hrun, rawText_cons]
        exact List.append_nil _
      · rw [hrun, hgo]
        rfl
    · have hle := untilQuote_rest_le '\'' rest
      rw [hmore, List.length_cons] at hle
      obtain ⟨strings, hall, htext, hpieces⟩ := ih more.length (by omega) more rfl
      refine ⟨.quoted '\'' (untilQuote '\'' rest).1 :: strings, ?_, ?_, ?_⟩
      · intro p hp
        rcases List.mem_cons.mp hp with hp | hp
        · exact ⟨_, hp⟩
        · exact hall p hp
      · rw [rawText_cons, htext, hrun]
        rfl
      · rw [hgo, hmore, hpieces, hrun]
        rfl

/-- What one character tells of the pieces that start there. -/
theorem piece_cases (c : Char) (rest : List Char) :
    (textPiece c rest = (.quoted '\'' (quotedRun '\'' rest).1, (quotedRun '\'' rest).2) ∧
      c = '\'') ∨
    ((textPiece c rest).1.delimits ∧ (textPiece c rest).1.region ≠ none ∧
      goPiece c rest = (.plain c, rest)) ∨
    (textPiece c rest = (.semicolon, rest) ∧ goPiece c rest = (.plain ';', rest)) ∨
    (textPiece c rest = goPiece c rest ∧ (textPiece c rest).1 ≠ .semicolon ∧
      ¬ (textPiece c rest).1.delimits) := by
  by_cases h1 : c = '\''
  · exact Or.inl ⟨by rw [h1]; rfl, h1⟩
  by_cases h2 : c = '"'
  · rw [h2]
    exact Or.inr (Or.inl ⟨by simp [textPiece, Piece.delimits],
      by simp [textPiece, Piece.region], rfl⟩)
  by_cases h3 : c = '\x60'
  · rw [h3]
    exact Or.inr (Or.inl ⟨by simp [textPiece, Piece.delimits],
      by simp [textPiece, Piece.region], rfl⟩)
  by_cases h4 : c = ';'
  · rw [h4]
    exact Or.inr (Or.inr (Or.inl ⟨rfl, rfl⟩))
  · have hc : c ∉ ['\'', '"', '\x60', ';'] := by simp [h1, h2, h3, h4]
    refine Or.inr (Or.inr (Or.inr ⟨textPiece_eq_goPiece hc rest, ?_, ?_⟩))
    all_goals
      simp only [textPiece, h1, h2, h3, h4, or_false, if_false]
      split_ifs <;> simp [Piece.delimits]

theorem splits_of_undelimited (sql : List Char) :
    (∀ p ∈ textPieces sql, ¬ p.delimits) → Splits (textPieces sql) (goPieces sql) := by
  induction sql using scan_induction shrinks_textPiece with
  | nil => exact fun _ => .nil
  | cons c rest ih =>
    intro h
    rw [textPieces_cons] at h ⊢
    have hhead := h _ List.mem_cons_self
    have htail := ih fun p hp => h p (List.mem_cons_of_mem _ hp)
    rcases piece_cases c rest with ⟨ht, rfl⟩ | ⟨hd, _⟩ | ⟨ht, hg⟩ | ⟨he, hs, _⟩
    · obtain ⟨strings, hall, htext, hpieces⟩ := goPieces_string rest
      rw [ht] at htail ⊢
      rw [hpieces]
      exact .string hall htext htail
    · exact absurd hd hhead
    · rw [ht] at htail ⊢
      rw [goPieces_cons, hg]
      exact .semicolon htail
    · rw [goPieces_cons, ← he]
      exact .same hs htail

theorem Piece.raw_ne_nil_of_delimits {p : Piece} (h : p.delimits) : 0 < p.raw.length := by
  cases p with
  | quoted quote text => exact Nat.succ_pos _
  | _ => exact absurd h (by simp [Piece.delimits])

theorem shading_strings {strings : List Piece} {text : List Char}
    (hall : ∀ p ∈ strings, ∃ inside, p = Piece.quoted '\'' inside)
    (htext : rawText strings = text) :
    shading strings = List.replicate text.length (some .string) := by
  subst htext
  induction strings with
  | nil => rfl
  | cons p ps ih =>
    obtain ⟨inside, rfl⟩ := hall p List.mem_cons_self
    rw [shading_cons, ih fun q hq => hall q (List.mem_cons_of_mem _ hq), rawText_cons,
      List.length_append, List.replicate_add]
    rfl

theorem Splits.shading_eq {ts gs : List Piece} (h : Splits ts gs) :
    shading ts = shading gs := by
  induction h with
  | nil => rfl
  | same _ _ ih => rw [shading_cons, shading_cons, ih]
  | semicolon _ ih =>
    rw [shading_cons, shading_cons, ih]
    rfl
  | string hall htext _ ih =>
    rw [shading_cons, shading_append, shading_strings hall htext, ih]
    rfl

/-- Only a delimited identifier is no code for one scanner alone. -/
theorem undelimited_of_shading (sql : List Char) :
    shading (textPieces sql) = shading (goPieces sql) →
      ∀ p ∈ textPieces sql, ¬ p.delimits := by
  induction sql using scan_induction shrinks_textPiece with
  | nil => exact fun _ p hp => absurd hp (by simp [textPieces, piecesFuel])
  | cons c rest ih =>
    intro h p hp
    rw [textPieces_cons] at h hp
    have hrest : ¬ (textPiece c rest).1.delimits ∧
        shading (textPieces (textPiece c rest).2) = shading (goPieces (textPiece c rest).2) := by
      rw [shading_cons] at h
      rcases piece_cases c rest with ⟨ht, rfl⟩ | ⟨hd, hr, hg⟩ | ⟨ht, hg⟩ | ⟨he, _, hd⟩
      · obtain ⟨strings, hall, htext, hpieces⟩ := goPieces_string rest
        rw [ht] at h ⊢
        rw [hpieces, shading_append, shading_strings hall htext] at h
        exact ⟨by simp [Piece.delimits], List.append_cancel_left h⟩
      · rw [goPieces_cons, hg, shading_cons] at h
        obtain ⟨n, hn⟩ := Nat.exists_eq_add_of_lt (Piece.raw_ne_nil_of_delimits hd)
        rw [hn] at h
        exact absurd (List.cons.inj h).1 hr
      · rw [goPieces_cons, ht, hg, shading_cons] at h
        rw [ht]
        exact ⟨by simp [Piece.delimits], List.append_cancel_left h⟩
      · rw [goPieces_cons, ← he, shading_cons] at h
        exact ⟨hd, List.append_cancel_left h⟩
    rcases List.mem_cons.mp hp with rfl | hp
    · exact hrest.1
    · exact ih hrest.2 p hp

/-! ## The shape of a GO line -/

theorem trim_shape (cs : List Char) :
    ∃ front back, cs = front ++ trim cs ++ back ∧ (∀ c ∈ front, isWhitespace c) ∧
      ∀ c ∈ back, isWhitespace c := by
  refine ⟨cs.takeWhile isWhitespace, (cs.dropWhile isWhitespace).rtakeWhile isWhitespace, ?_,
    fun c hc => List.mem_takeWhile_imp hc, fun c hc => List.mem_rtakeWhile_imp hc⟩
  rw [List.append_assoc, trim, ← List.rdropWhile, List.rdropWhile_append_rtakeWhile,
    List.takeWhile_append_dropWhile]

theorem stripSemicolon_shape (line : List Char) :
    ∃ stop, line = stripSemicolon line ++ stop ∧ (stop = [] ∨ stop = [';']) := by
  rw [stripSemicolon]
  split_ifs with h
  · exact ⟨[';'], (List.dropLast_append_getLast? ';' h).symm, Or.inr rfl⟩
  · exact ⟨[], (List.append_nil line).symm, Or.inl rfl⟩

theorem lower_eq_go {core : List Char} (h : core.map Char.toLower = ['g', 'o']) :
    ∃ g o, core = [g, o] ∧ g.toLower = 'g' ∧ o.toLower = 'o' := by
  obtain ⟨g, more, rfl, hg, hmore⟩ := List.map_eq_cons_iff.mp h
  obtain ⟨o, last, rfl, ho, hlast⟩ := List.map_eq_cons_iff.mp hmore
  rw [List.map_eq_nil_iff.mp hlast]
  exact ⟨g, o, rfl, hg, ho⟩

/-- A GO line: the word, perhaps a semicolon, and whitespace. -/
theorem isGo_shape {line : List Char} (h : isGo line) :
    ∃ front g o middle stop back, line = front ++ [g, o] ++ middle ++ stop ++ back ∧
      g.toLower = 'g' ∧ o.toLower = 'o' ∧ (stop = [] ∨ stop = [';']) ∧
      (∀ c ∈ front, isWhitespace c) ∧ (∀ c ∈ middle, isWhitespace c) ∧
      ∀ c ∈ back, isWhitespace c := by
  rw [isGo, decide_eq_true_iff] at h
  obtain ⟨f1, b1, h1, hf1, hb1⟩ := trim_shape line
  obtain ⟨stop, h2, hstop⟩ := stripSemicolon_shape (trim line)
  obtain ⟨f2, b2, h3, hf2, hb2⟩ := trim_shape (stripSemicolon (trim line))
  obtain ⟨g, o, hcore, hg, ho⟩ := lower_eq_go h
  refine ⟨f1 ++ f2, g, o, b2, stop, b1, ?_, hg, ho, hstop, ?_, hb2, hb1⟩
  · calc
      line = f1 ++ trim line ++ b1 := h1
      _ = f1 ++ (f2 ++ [g, o] ++ b2 ++ stop) ++ b1 := by rw [← hcore, ← h3, ← h2]
      _ = f1 ++ f2 ++ [g, o] ++ b2 ++ stop ++ b1 := by simp only [List.append_assoc]
  · intro c hc
    exact (List.mem_append.mp hc).elim (hf1 c) (hf2 c)

/-- The characters a GO line is made of. -/
def goChar (c : Char) : Bool :=
  isWhitespace c || c.toLower = 'g' || c.toLower = 'o' || c = ';'

theorem goChar_of_isGo {line : List Char} (h : isGo line) : ∀ c ∈ line, goChar c := by
  obtain ⟨front, g, o, middle, stop, back, rfl, hg, ho, hstop, hf, hm, hb⟩ := isGo_shape h
  intro c hc
  simp only [List.mem_append, List.mem_cons, List.not_mem_nil, or_false] at hc
  rcases hc with (((hc | rfl | rfl) | hc) | hc) | hc
  · simp [goChar, hf c hc]
  · simp [goChar, hg]
  · simp [goChar, ho]
  · simp [goChar, hm c hc]
  · rcases hstop with rfl | rfl
    · exact absurd hc List.not_mem_nil
    · rw [List.mem_singleton.mp hc]
      rfl
  · simp [goChar, hb c hc]

theorem semicolon_notMem_blank {blank : List Char} (h : ∀ c ∈ blank, isWhitespace c) :
    ';' ∉ blank := fun hmem => absurd (h ';' hmem) (by decide)

/-- Only whitespace follows a semicolon on a GO line. -/
theorem blank_of_isGo {front after : List Char} (h : isGo (front ++ ';' :: after)) :
    ∀ c ∈ after, isWhitespace c := by
  obtain ⟨f, g, o, middle, stop, back, heq, hg, ho, hstop, hf, hm, hb⟩ := isGo_shape h
  have hword : ';' ∉ f ++ [g, o] ++ middle := by
    simp only [List.mem_append, List.mem_cons, List.not_mem_nil, or_false, not_or]
    refine ⟨⟨semicolon_notMem_blank hf, ?_, ?_⟩, semicolon_notMem_blank hm⟩
    · rintro rfl
      exact absurd hg (by decide)
    · rintro rfl
      exact absurd ho (by decide)
  rw [List.append_assoc] at heq
  rcases List.append_eq_append_iff.mp heq with ⟨between, hword', hstop'⟩ | ⟨between, _, hstop'⟩
  · cases between with
    | cons c cs =>
      rw [List.cons_append] at hstop'
      rw [(List.cons.inj hstop').1] at hword
      exact absurd (hword' ▸ List.mem_append_right _ List.mem_cons_self) hword
    | nil =>
      rcases hstop with rfl | rfl
      · rw [List.nil_append, List.nil_append] at hstop'
        exact absurd (hstop' ▸ List.mem_cons_self) (semicolon_notMem_blank hb)
      · exact (List.cons.inj hstop').2 ▸ hb
  · rcases hstop with rfl | rfl
    · rw [List.nil_append] at hstop'
      intro c hc
      exact hb c (hstop' ▸ List.mem_append_right _ (List.mem_cons_of_mem _ hc))
    · cases between with
      | nil => exact (List.cons.inj hstop').2 ▸ hb
      | cons d ds =>
        have hback : back = ds ++ ';' :: after := (List.cons.inj hstop').2
        intro c hc
        exact hb c (hback ▸ List.mem_append_right _ (List.mem_cons_of_mem _ hc))

theorem toLower_of_isWhitespace {c : Char} (h : isWhitespace c) : c.toLower = c := by
  have hupper : ¬ (c.val ≥ 'A'.val ∧ c.val ≤ 'Z'.val) := by
    rintro ⟨hA, hZ⟩
    have hA : 65 ≤ c.toNat := hA
    have hZ : c.toNat ≤ 90 := hZ
    simp only [isWhitespace, Bool.or_eq_true, Bool.and_eq_true, decide_eq_true_eq,
      beq_iff_eq] at h
    omega
  rw [Char.toLower, dif_neg hupper]

theorem not_isGo_of_blank {line : List Char} (h : ∀ c ∈ line, isWhitespace c) : ¬ isGo line := by
  intro hgo
  obtain ⟨front, g, o, middle, stop, back, rfl, hg, _⟩ := isGo_shape hgo
  have hblank := h g (by simp)
  rw [toLower_of_isWhitespace hblank] at hg
  rw [hg] at hblank
  exact absurd hblank (by decide)

/-! ## The GO lines of the two readings -/

theorem afterSemicolon_concat (line : List Piece) {p : Piece} (h : p ≠ .semicolon) :
    afterSemicolon (line ++ [p]) = afterSemicolon line ++ [p] :=
  List.rtakeWhile_concat_pos _ _ p (by simpa using h)

theorem afterSemicolon_semicolon (line : List Piece) :
    afterSemicolon (line ++ [.semicolon]) = [] :=
  List.rtakeWhile_concat_neg _ _ _ (by simp)

theorem rawText_afterSemicolon {line : List Piece} (h : Piece.semicolon ∈ line) :
    ∃ front, rawText line = front ++ ';' :: rawText (afterSemicolon line) := by
  induction line using List.reverseRecOn with
  | nil => exact absurd h List.not_mem_nil
  | append_singleton line p ih =>
    by_cases hp : p = .semicolon
    · refine ⟨rawText line, ?_⟩
      rw [hp, afterSemicolon_semicolon, rawText_append]
      rfl
    · rcases List.mem_append.mp h with h | h
      · obtain ⟨front, hfront⟩ := ih h
        refine ⟨front, ?_⟩
        rw [afterSemicolon_concat line hp, rawText_append, rawText_append, hfront,
          List.append_assoc, List.cons_append]
      · exact absurd (List.mem_singleton.mp h).symm hp

theorem afterSemicolon_eq_self {line : List Piece} (h : Piece.semicolon ∉ line) :
    afterSemicolon line = line := by
  apply List.rtakeWhile_eq_self_iff.mpr
  intro p hp
  simpa using fun heq : p = .semicolon => h (heq ▸ hp)

/-- A line is cut by both scanners or by none, unless GO stands beside a semicolon. -/
theorem isGo_iff_noGoBeside (line : List Piece) :
    (isGo (rawText (afterSemicolon line)) ↔ isGo (rawText line)) ↔ NoGoBeside line := by
  by_cases hmem : Piece.semicolon ∈ line
  · obtain ⟨front, hfront⟩ := rawText_afterSemicolon hmem
    have hnot : isGo (rawText line) → ¬ isGo (rawText (afterSemicolon line)) := by
      intro hgo
      rw [hfront] at hgo
      exact not_isGo_of_blank (blank_of_isGo hgo)
    constructor
    · intro h _
      exact ⟨fun hgo => hnot hgo (h.mpr hgo), fun hgo => hnot (h.mp hgo) hgo⟩
    · intro h
      exact iff_of_false (h hmem).2 (h hmem).1
  · rw [afterSemicolon_eq_self hmem]
    exact iff_of_true Iff.rfl fun h => absurd h hmem

theorem Scan.line_push (s : Scan) (text : List Char) :
    (s.push text).line = s.line ++ text := by
  rw [Scan.line, Scan.push, List.drop_append_of_le_length s.marked]
  rfl

theorem Scan.line_semicolon (s : Scan) : (s.step .semicolon).line = [] := rfl

theorem Scan.line_newline (s : Scan) : (s.step .newline).line = [] := by
  rw [Scan.step]
  split
  · rfl
  · rw [Scan.line, Scan.endLine]
    simp

/-- A piece that ends no line. -/
theorem Scan.step_inner (s : Scan) {p : Piece} (hs : p ≠ .semicolon) (hn : p ≠ .newline) :
    s.step p = s.push p.copied := by
  cases p with
  | semicolon => exact absurd rfl hs
  | newline => exact absurd rfl hn
  | _ => rfl

theorem Piece.copied_eq_raw {p : Piece} (h : ¬ p.closesComment) : p.copied = p.raw := by
  cases p with
  | blockComment text closed =>
    cases closed with
    | true => exact absurd rfl h
    | false => rfl
  | _ => rfl

theorem le_of_mem_cutsFrom (ps : List Piece) :
    ∀ (s : Scan) (offset : ℕ), ∀ n ∈ cutsFrom s offset ps, offset ≤ n := by
  induction ps with
  | nil =>
    intro s offset n hn
    rw [cutsFrom, List.mem_ite_nil_right] at hn
    exact (List.mem_singleton.mp hn.2).ge
  | cons p ps ih =>
    intro s offset n hn
    rw [cutsFrom, List.mem_append, List.mem_ite_nil_right] at hn
    rcases hn with hn | hn
    · exact (List.mem_singleton.mp hn.2).ge
    · exact (Nat.le_add_right _ _).trans (ih _ _ n hn)

theorem cutsFrom_inner {p : Piece} (hn : p ≠ .newline) (s : Scan) (offset : ℕ)
    (ps : List Piece) :
    cutsFrom s offset (p :: ps) = cutsFrom (s.step p) (offset + p.raw.length) ps := by
  rw [cutsFrom, if_neg fun h => hn h.1, List.nil_append]

theorem cutsFrom_strings {strings : List Piece}
    (hall : ∀ p ∈ strings, ∃ inside, p = Piece.quoted '\'' inside) (gs : List Piece) :
    ∀ (s : Scan) (offset : ℕ), ∃ s' : Scan, s'.line = s.line ++ rawText strings ∧
      cutsFrom s offset (strings ++ gs) =
        cutsFrom s' (offset + (rawText strings).length) gs := by
  induction strings with
  | nil => exact fun s offset => ⟨s, (List.append_nil _).symm, rfl⟩
  | cons p ps ih =>
    intro s offset
    obtain ⟨inside, rfl⟩ := hall p List.mem_cons_self
    obtain ⟨s', hline, hcuts⟩ := ih (fun q hq => hall q (List.mem_cons_of_mem _ hq))
      (s.push ('\'' :: inside)) (offset + (inside.length + 1))
    refine ⟨s', ?_, ?_⟩
    · rw [hline, Scan.line_push, rawText_cons, List.append_assoc]
      rfl
    · rw [List.cons_append, cutsFrom_inner (by simp), rawText_cons, List.length_append,
        ← Nat.add_assoc]
      exact hcuts

/-- Two readings of a line's end at one offset, and of what follows it. -/
theorem cut_eq_iff {a b : Bool} {offset next : ℕ} (hlt : offset < next) {xs ys : List ℕ}
    (hxs : ∀ n ∈ xs, next ≤ n) (hys : ∀ n ∈ ys, next ≤ n) :
    (if a then [offset] else []) ++ xs = (if b then [offset] else []) ++ ys ↔
      (a ↔ b) ∧ xs = ys := by
  have hx : offset ∉ xs := fun h => absurd (hxs offset h) (by omega)
  have hy : offset ∉ ys := fun h => absurd (hys offset h) (by omega)
  cases a <;> cases b
  · simp
  · refine iff_of_false (fun h => ?_) (fun h => absurd h.1 (by decide))
    have h : xs = offset :: ys := h
    exact hx (h ▸ List.mem_cons_self)
  · refine iff_of_false (fun h => ?_) (fun h => absurd h.1 (by decide))
    have h : offset :: xs = ys := h
    exact hy (h ▸ List.mem_cons_self)
  · simp

theorem linesFrom_inner {p : Piece} (hn : p ≠ .newline) (line ps : List Piece) :
    linesFrom line (p :: ps) = linesFrom (line ++ [p]) ps := by
  cases p with
  | newline => exact absurd rfl hn
  | _ => rfl

/-- The readings cut alike exactly if GO stands beside no semicolon, from any two states
in the same line of the text. -/
theorem Splits.cuts_eq_iff {ts gs : List Piece} (h : Splits ts gs) :
    (∀ p ∈ ts, ¬ p.closesComment) → ∀ (s s' : Scan) (line : List Piece) (offset : ℕ),
      s.line = rawText (afterSemicolon line) → s'.line = rawText line →
      (cutsFrom s offset ts = cutsFrom s' offset gs ↔
        ∀ l ∈ linesFrom line ts, NoGoBeside l) := by
  induction h with
  | nil =>
    intro _ s s' line offset hs hs'
    have hiff := isGo_iff_noGoBeside line
    have hcut := @cut_eq_iff (isGo s.line) (isGo s'.line) offset _ (Nat.lt_succ_self offset) [] []
      (by simp) (by simp)
    rw [List.append_nil, List.append_nil] at hcut
    rw [cutsFrom, cutsFrom, hcut, hs, hs', linesFrom, List.forall_mem_singleton, ← hiff]
    exact and_iff_left rfl
  | @same p ts gs hp _ ih =>
    intro hu s s' line offset hs hs'
    have hraw := Piece.copied_eq_raw (hu p List.mem_cons_self)
    have hu' := fun q hq => hu q (List.mem_cons_of_mem _ hq)
    by_cases hn : p = .newline
    · subst hn
      rw [linesFrom, List.forall_mem_cons, ← isGo_iff_noGoBeside line,
        ← ih hu' (s.step .newline) (s'.step .newline) [] (offset + 1) s.line_newline
          s'.line_newline, ← hs, ← hs', cutsFrom, cutsFrom]
      simp only [true_and]
      exact cut_eq_iff (Nat.lt_succ_self offset) (le_of_mem_cutsFrom _ _ _)
        (le_of_mem_cutsFrom _ _ _)
    · rw [cutsFrom_inner hn, cutsFrom_inner hn, linesFrom_inner hn]
      apply ih hu'
      · rw [s.step_inner hp hn, Scan.line_push, hs, hraw, afterSemicolon_concat line hp,
          rawText_append]
        exact congrArg _ (List.append_nil _).symm
      · rw [s'.step_inner hp hn, Scan.line_push, hs', hraw, rawText_append]
        exact congrArg _ (List.append_nil _).symm
  | semicolon _ ih =>
    intro hu s s' line offset hs hs'
    rw [cutsFrom_inner (by simp), cutsFrom_inner (by simp), linesFrom_inner (by simp)]
    apply ih fun q hq => hu q (List.mem_cons_of_mem _ hq)
    · rw [s.line_semicolon, afterSemicolon_semicolon]
      rfl
    · rw [s'.step_inner (by simp) (by simp), Scan.line_push, hs', rawText_append]
      rfl
  | @string text strings ts gs hall htext _ ih =>
    intro hu s s' line offset hs hs'
    have hq : Piece.quoted '\'' text ≠ .semicolon := by simp
    have hn : Piece.quoted '\'' text ≠ .newline := by simp
    obtain ⟨after, hline, hcuts⟩ := cutsFrom_strings hall gs s' offset
    rw [htext] at hline hcuts
    rw [cutsFrom_inner hn, linesFrom_inner hn, hcuts]
    apply ih fun q hq => hu q (List.mem_cons_of_mem _ hq)
    · rw [s.step_inner hq hn, Scan.line_push, hs, afterSemicolon_concat line hq, rawText_append]
      exact congrArg _ (List.append_nil _).symm
    · rw [hline, hs', rawText_append]
      exact congrArg _ (List.append_nil _).symm

/-! ## Joining the chunks -/

/-- A line break of the text, if there is one, stands in a region: a GO line has none of
the characters that open one. -/
def Inline (text : List Char) : Prop := '\n' ∉ text ∨ ∃ c ∈ text, ¬ goChar c

theorem Inline.append {line text : List Char} (hl : Inline line) (ht : Inline text) :
    Inline (line ++ text) := by
  rcases hl with hl | ⟨c, hc, hgo⟩
  · rcases ht with ht | ⟨c, hc, hgo⟩
    · exact Or.inl fun h => (List.mem_append.mp h).elim hl ht
    · exact Or.inr ⟨c, List.mem_append_right _ hc, hgo⟩
  · exact Or.inr ⟨c, List.mem_append_left _ hc, hgo⟩

theorem Inline.of_isGo {line : List Char} (h : Inline line) (hgo : isGo line) :
    '\n' ∉ line := by
  rcases h with h | ⟨c, hc, hnot⟩
  · exact h
  · exact absurd (goChar_of_isGo hgo c hc) hnot

theorem inline_of_mem {c : Char} (h : c ∈ ['\'', '"', '\x60', '[', '-', '/'])
    {text : List Char} (hmem : c ∈ text) : Inline text := by
  refine Or.inr ⟨c, hmem, ?_⟩
  simp only [List.mem_cons, List.not_mem_nil, or_false] at h
  rcases h with rfl | rfl | rfl | rfl | rfl | rfl <;> decide

theorem textPiece_inline (c : Char) (rest : List Char) :
    (textPiece c rest).1 = .newline ∨ Inline (textPiece c rest).1.raw := by
  rw [textPiece]
  split_ifs with h1 h2 h3 h4 h5 h6
  · refine Or.inr (inline_of_mem (c := c) ?_ List.mem_cons_self)
    rcases h1 with h | h | h <;> simp [h]
  · exact Or.inr (inline_of_mem (c := '[') (by decide) List.mem_cons_self)
  · refine Or.inr (inline_of_mem (c := '-') (by decide) ?_)
    simp [Piece.raw, lineRun, h3.1]
  · exact Or.inr (inline_of_mem (c := '/') (by decide) List.mem_cons_self)
  · exact Or.inr (Or.inl (by simp [Piece.raw]))
  · exact Or.inl rfl
  · exact Or.inr (Or.inl (by simpa [Piece.raw] using fun h => h6 h.symm))

theorem textPieces_inline (sql : List Char) :
    ∀ p ∈ textPieces sql, p = .newline ∨ Inline p.raw := by
  induction sql using scan_induction shrinks_textPiece with
  | nil => exact fun p hp => absurd hp (by simp [textPieces, piecesFuel])
  | cons c rest ih =>
    intro p hp
    rw [textPieces_cons] at hp
    rcases List.mem_cons.mp hp with rfl | hp
    · exact textPiece_inline c rest
    · exact ih p hp

/-- What the chunks so far stand for: all the text read, but for the chunk in the
making. -/
def Kept (s : Scan) (sql : List Char) : Prop :=
  Inline s.line ∧ ∃ text, Joined s.chunks text ∧ sql = text ++ s.cur

theorem Scan.cur_eq (s : Scan) : s.cur = s.cur.take s.lineBegin ++ s.line :=
  (List.take_append_drop s.lineBegin s.cur).symm

/-- The chunk in front of a GO line, and the line with its whitespace. -/
theorem Scan.cur_eq_beforeLine (s : Scan) (hline : Inline s.line) (hgo : isGo s.line) :
    ∃ text, s.cur = s.beforeLine ++ text ∧ IsGoLine text := by
  refine ⟨(s.cur.take s.lineBegin).rtakeWhile isWhitespace ++ s.line, ?_, ?_⟩
  · rw [← List.append_assoc, Scan.beforeLine, List.rdropWhile_append_rtakeWhile]
    exact s.cur_eq
  · exact ⟨_, _, rfl, fun c hc => List.mem_rtakeWhile_imp hc, hgo, hline.of_isGo hgo⟩

theorem Kept.push {s : Scan} {sql : List Char} (h : Kept s sql) {text : List Char}
    (ht : Inline text) : Kept (s.push text) (sql ++ text) := by
  obtain ⟨hline, kept, hjoined, rfl⟩ := h
  exact ⟨(s.line_push text).symm ▸ hline.append ht, kept, hjoined, List.append_assoc _ _ _⟩

theorem inline_nil : Inline [] := Or.inl List.not_mem_nil

theorem Kept.step {s : Scan} {sql : List Char} (h : Kept s sql) {p : Piece}
    (hp : p = .newline ∨ Inline p.raw) (hu : ¬ p.closesComment) :
    Kept (s.step p) (sql ++ p.raw) := by
  have ⟨hline, text, hjoined, heq⟩ := h
  by_cases hs : p = .semicolon
  · subst hs
    exact ⟨inline_nil, _, hjoined.snoc .semicolon, by rw [heq]; exact (List.append_nil _).symm⟩
  by_cases hn : p = .newline
  · subst hn
    refine ⟨s.line_newline.symm ▸ inline_nil, ?_⟩
    rw [Scan.step]
    split
    · next hgo =>
      obtain ⟨removed, hcur, hremoved⟩ := s.cur_eq_beforeLine hline hgo
      refine ⟨_, hjoined.snoc (.goLine hremoved), ?_⟩
      rw [heq, hcur]
      simp [Scan.close, Piece.raw]
    · exact ⟨text, hjoined, by rw [heq, List.append_assoc]; rfl⟩
  · rw [s.step_inner hs hn, Piece.copied_eq_raw hu]
    exact h.push (hp.resolve_left hn)

theorem Kept.run {ps : List Piece} (hp : ∀ p ∈ ps, p = .newline ∨ Inline p.raw)
    (hu : ∀ p ∈ ps, ¬ p.closesComment) {s : Scan} {sql : List Char} (h : Kept s sql) :
    Kept (ps.foldl Scan.step s) (sql ++ rawText ps) := by
  induction ps generalizing s sql with
  | nil => exact (List.append_nil sql).symm ▸ h
  | cons p ps ih =>
    rw [rawText_cons, ← List.append_assoc]
    exact ih (fun q hq => hp q (List.mem_cons_of_mem _ hq))
      (fun q hq => hu q (List.mem_cons_of_mem _ hq))
      (h.step (hp p List.mem_cons_self) (hu p List.mem_cons_self))

theorem Kept.finish {s : Scan} {sql : List Char} (h : Kept s sql) : Rejoins s.finish sql := by
  obtain ⟨hline, text, hjoined, rfl⟩ := h
  rw [Scan.finish]
  split
  · next hgo =>
    obtain ⟨removed, hcur, hremoved⟩ := s.cur_eq_beforeLine hline hgo
    exact ⟨_, _, text, removed, rfl, hjoined, Or.inr hremoved,
      by rw [List.append_assoc, ← hcur]⟩
  · exact ⟨_, _, text, [], rfl, hjoined, Or.inl rfl, (List.append_nil _).symm⟩

theorem rejoins_of_uncommented {sql : List Char}
    (hu : ∀ p ∈ textPieces sql, ¬ p.closesComment) : Rejoins (textChunks sql) sql := by
  have h : Kept {} [] := ⟨inline_nil, [], .nil, rfl⟩
  have hrun := h.run (textPieces_inline sql) hu
  rw [List.nil_append, rawText_textPieces] at hrun
  exact hrun.finish

/-! ## The stars of closed comments -/

def stars (text : List Char) : ℕ := text.count '*'

theorem stars_append (a b : List Char) : stars (a ++ b) = stars a + stars b :=
  List.count_append

theorem stars_blank_go {blank line : List Char} (hblank : ∀ c ∈ blank, isWhitespace c)
    (hgo : isGo line) : stars (blank ++ line) = 0 := by
  apply List.count_eq_zero.mpr
  intro hmem
  rcases List.mem_append.mp hmem with hmem | hmem
  · exact absurd (hblank _ hmem) (by decide)
  · exact absurd (goChar_of_isGo hgo _ hmem) (by decide)

theorem stars_goLine {text : List Char} (h : IsGoLine text) : stars text = 0 := by
  obtain ⟨blank, line, rfl, hblank, hgo, _⟩ := h
  exact stars_blank_go hblank hgo

theorem Joined.stars_eq {chunks : List (List Char)} {text : List Char}
    (h : Joined chunks text) : stars text = stars chunks.flatten := by
  induction h with
  | nil => rfl
  | @snoc chunks text chunk separator _ hsep ih =>
    have hzero : stars separator = 0 := by
      cases hsep with
      | semicolon => rfl
      | goLine hgo =>
        rw [stars_append, stars_goLine hgo]
        rfl
    rw [stars_append, stars_append, ih, hzero, List.flatten_append, stars_append,
      List.flatten_singleton]
    rfl

theorem Rejoins.stars_eq {chunks : List (List Char)} {sql : List Char}
    (h : Rejoins chunks sql) : stars sql = stars chunks.flatten := by
  obtain ⟨front, chunk, text, tail, rfl, hjoined, htail, rfl⟩ := h
  have hzero : stars tail = 0 := by
    rcases htail with rfl | htail
    · rfl
    · exact stars_goLine htail
  rw [stars_append, stars_append, hzero, hjoined.stars_eq, List.flatten_append, stars_append,
    List.flatten_singleton]
  rfl

/-- The stars a scanner has written. -/
def Scan.stars (s : Scan) : ℕ := Stmt.stars s.chunks.flatten + Stmt.stars s.cur

theorem Scan.stars_beforeLine (s : Scan) (hgo : isGo s.line) :
    Stmt.stars s.beforeLine = Stmt.stars s.cur := by
  have hcur : s.cur = s.beforeLine ++
      ((s.cur.take s.lineBegin).rtakeWhile isWhitespace ++ s.line) := by
    rw [← List.append_assoc, Scan.beforeLine, List.rdropWhile_append_rtakeWhile]
    exact s.cur_eq
  have hzero : Stmt.stars ((s.cur.take s.lineBegin).rtakeWhile isWhitespace ++ s.line) = 0 :=
    stars_blank_go (fun c hc => List.mem_rtakeWhile_imp hc) hgo
  calc
    Stmt.stars s.beforeLine = Stmt.stars s.beforeLine + 0 := rfl
    _ = Stmt.stars s.cur := by rw [hcur, stars_append, hzero]

/-- Stars added by the closed comments of the pieces. -/
def closings (ps : List Piece) : ℕ := ps.countP Piece.closesComment

theorem Piece.stars_copied (p : Piece) :
    stars p.copied = stars p.raw + if p.closesComment then 1 else 0 := by
  by_cases h : p.closesComment
  · cases p with
    | blockComment text closed =>
      have hc : closed = true := h
      subst hc
      simp [copied, raw, Stmt.stars, closesComment, blockEnd]
    | _ => exact absurd h (by simp [closesComment])
  · rw [copied_eq_raw h, if_neg h]
    rfl

theorem Scan.stars_step (s : Scan) (p : Piece) :
    (s.step p).stars = s.stars + Stmt.stars p.raw + if p.closesComment then 1 else 0 := by
  have hclose (chunk : List Char) :
      (s.close chunk).stars = Stmt.stars s.chunks.flatten + Stmt.stars chunk := by
    rw [Scan.stars, Scan.close, List.flatten_append, stars_append, List.flatten_singleton]
    rfl
  by_cases hs : p = .semicolon
  · subst hs
    exact hclose s.cur
  by_cases hn : p = .newline
  · subst hn
    rw [Scan.step]
    split
    · next hgo =>
      rw [hclose, s.stars_beforeLine hgo]
      rfl
    · rw [Scan.stars, Scan.endLine, stars_append]
      rfl
  · have hpush : (s.push p.copied).stars = s.stars + Stmt.stars p.copied := by
      rw [Scan.stars, Scan.stars, Nat.add_assoc, ← stars_append s.cur]
      rfl
    rw [s.step_inner hs hn, hpush, Piece.stars_copied, Nat.add_assoc]

theorem Scan.stars_run (ps : List Piece) (s : Scan) :
    (ps.foldl Scan.step s).stars = s.stars + Stmt.stars (rawText ps) + closings ps := by
  induction ps generalizing s with
  | nil => rfl
  | cons p ps ih =>
    rw [List.foldl_cons, ih, s.stars_step, rawText_cons, stars_append, closings, closings,
      List.countP_cons]
    omega

theorem Scan.stars_finish (s : Scan) : Stmt.stars s.finish.flatten = s.stars := by
  rw [Scan.finish, List.flatten_append, stars_append, List.flatten_singleton, Scan.stars]
  split
  · next hgo => rw [s.stars_beforeLine hgo]
  · rfl

theorem uncommented_of_rejoins {sql : List Char} (h : Rejoins (textChunks sql) sql) :
    ∀ p ∈ textPieces sql, ¬ p.closesComment := by
  have hrun := Scan.stars_run (textPieces sql) {}
  rw [rawText_textPieces] at hrun
  have hfinish : stars (textChunks sql).flatten = (run (textPieces sql)).stars :=
    Scan.stars_finish _
  have hzero : closings (textPieces sql) = 0 := by
    have heq := h.stars_eq
    have hstart : Scan.stars {} = 0 := rfl
    rw [run] at hfinish
    omega
  exact List.countP_eq_zero.mp hzero

/-- The scanners agree on a text and lose nothing of it exactly if it has no identifier
between double or back quotes, closes no block comment, and has no GO that shares its line
with nothing but semicolons in front of it or one behind it. -/
theorem scannersAgree_iff (sql : List Char) : ScannersAgree sql ↔ PlainScript sql := by
  constructor
  · rintro ⟨hregions, hgoLines, hrejoins⟩
    have hd := undelimited_of_shading sql hregions
    have hu := uncommented_of_rejoins hrejoins
    refine ⟨hd, hu, ?_⟩
    exact ((splits_of_undelimited sql hd).cuts_eq_iff hu {} {} [] 0 rfl rfl).mp hgoLines
  · rintro ⟨hd, hu, hgo⟩
    have hsplits := splits_of_undelimited sql hd
    exact ⟨hsplits.shading_eq, (hsplits.cuts_eq_iff hu {} {} [] 0 rfl rfl).mpr hgo,
      rejoins_of_uncommented hu⟩

/-- A comment comes back with another star, a quoted identifier is code for one scanner,
and a GO next to a semicolon cuts for one of them. -/
theorem scanners_disagree :
    (¬ ∀ sql, ScannersAgree sql) ∧
      textChunks "/* x */".toList = ["/* x **/".toList] ∧
      textChunks "\"\nGO\n\"".toList = ["\"\nGO\n\"".toList] ∧
      goBatches "\"\nGO\n\"".toList = ["\"".toList, "\"".toList] ∧
      cuts (textPieces "SELECT 1; GO\n".toList) = [12] ∧
      cuts (goPieces "SELECT 1; GO\n".toList) = [] ∧
      cuts (textPieces "GO;\n".toList) = [] ∧
      cuts (goPieces "GO;\n".toList) = [3] := by
  refine ⟨fun h => ?_, by decide, by decide, by decide, by decide, by decide, by decide,
    by decide⟩
  exact absurd (h "GO;\n".toList).goLines (by decide)

end Docsql.Stmt
