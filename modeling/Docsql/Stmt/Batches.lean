import Docsql.Stmt.Regions
import Docsql.Timestamp.Calendar
import Mathlib.Data.List.DropRight

/-!
# Statement chunks and GO batches

`text_chunks` and `go_batches` of `stmt.rs`: two scanners that cut a script into pieces,
at its semicolons and GO lines and at its GO lines alone.
-/

namespace Docsql.Stmt

open Docsql.Timestamp (isWhitespace trim)

/-! ## What one turn of a scanner's loop reads -/

inductive Piece where
  /-- A run between quotes. -/
  | quoted (quote : Char) (text : List Char)
  | bracketed (text : List Char)
  | lineComment (text : List Char)
  /-- The text between `/*` and the end. -/
  | blockComment (text : List Char) (closed : Bool)
  | semicolon
  | newline
  | plain (c : Char)
deriving DecidableEq

namespace Piece

/-- The characters a piece takes from the input. -/
def raw : Piece → List Char
  | quoted quote text => quote :: text
  | bracketed text => '[' :: text
  | lineComment text => text
  | blockComment text closed => '/' :: '*' :: (text ++ blockEnd closed)
  | semicolon => [';']
  | newline => ['\n']
  | plain c => [c]

/-- The characters a piece adds to the output.  The star that ends a block comment has
been pushed when the loop sees that `*/` stands there, and is pushed once more. -/
def copied : Piece → List Char
  | blockComment text closed =>
    '/' :: '*' :: (text ++ (if closed then '*' :: blockEnd closed else []))
  | p => p.raw

end Piece

/-- One turn of `text_chunks`. -/
def textPiece (c : Char) (rest : List Char) : Piece × List Char :=
  if c = '\'' ∨ c = '"' ∨ c = '\x60' then
    let r := quotedRun c rest
    (.quoted c r.1, r.2)
  else if c = '[' then
    let r := quotedRun ']' rest
    (.bracketed r.1, r.2)
  else if c = '-' ∧ rest.head? = some '-' then
    let r := lineRun (c :: rest)
    (.lineComment r.1, r.2)
  else if c = '/' ∧ rest.head? = some '*' then
    let r := blockRun rest.tail
    (.blockComment r.1 r.2.1, r.2.2)
  else if c = ';' then
    (.semicolon, rest)
  else if c = '\n' then
    (.newline, rest)
  else
    (.plain c, rest)

/-- One turn of `go_batches`: only the apostrophe opens a quoted run, and a semicolon is a
character like any other. -/
def goPiece (c : Char) (rest : List Char) : Piece × List Char :=
  if c = '\'' then
    let r := untilQuote c rest
    (.quoted c r.1, r.2)
  else if c = '[' then
    let r := quotedRun ']' rest
    (.bracketed r.1, r.2)
  else if c = '-' ∧ rest.head? = some '-' then
    let r := lineRun (c :: rest)
    (.lineComment r.1, r.2)
  else if c = '/' ∧ rest.head? = some '*' then
    let r := blockRun rest.tail
    (.blockComment r.1 r.2.1, r.2.2)
  else if c = '\n' then
    (.newline, rest)
  else
    (.plain c, rest)

def textPieces (sql : List Char) : List Piece := piecesFuel textPiece sql.length sql

def goPieces (sql : List Char) : List Piece := piecesFuel goPiece sql.length sql

/-! ## What the scanners keep -/

def stripSemicolon (line : List Char) : List Char :=
  if line.getLast? = some ';' then line.dropLast else line

/-- Whether a line is a batch separator. -/
def isGo (line : List Char) : Bool :=
  (trim (stripSemicolon (trim line))).map Char.toLower = ['g', 'o']

structure Scan where
  chunks : List (List Char) := []
  cur : List Char := []
  lineBegin : ℕ := 0
  marked : lineBegin ≤ cur.length := by simp

namespace Scan

def line (s : Scan) : List Char := s.cur.drop s.lineBegin

/-- The chunk in front of a GO line, without the whitespace at its end. -/
def beforeLine (s : Scan) : List Char := (s.cur.take s.lineBegin).rdropWhile isWhitespace

def push (s : Scan) (text : List Char) : Scan where
  chunks := s.chunks
  cur := s.cur ++ text
  lineBegin := s.lineBegin
  marked := by
    rw [List.length_append]
    exact Nat.le_add_right_of_le s.marked

def endLine (s : Scan) : Scan where
  chunks := s.chunks
  cur := s.cur ++ ['\n']
  lineBegin := s.cur.length + 1

def close (s : Scan) (chunk : List Char) : Scan where
  chunks := s.chunks ++ [chunk]

def step (s : Scan) : Piece → Scan
  | .semicolon => s.close s.cur
  | .newline =>
    if isGo s.line then
      s.close s.beforeLine
    else
      s.endLine
  | p => s.push p.copied

/-- The chunks when the input has ended. -/
def finish (s : Scan) : List (List Char) :=
  s.chunks ++ [if isGo s.line then s.beforeLine else s.cur]

end Scan

def run (ps : List Piece) : Scan := ps.foldl Scan.step {}

def textChunks (sql : List Char) : List (List Char) := (run (textPieces sql)).finish

def goBatches (sql : List Char) : List (List Char) := (run (goPieces sql)).finish

example : textChunks "SELECT 1;\nGO\nSELECT 2".toList =
    ["SELECT 1".toList, [], "SELECT 2".toList] := by decide

/-! ## Reading piece by piece -/

theorem comment_rest_le (rest : List Char) :
    (lineRun ('-' :: rest)).2.length ≤ rest.length := by
  have h : (lineRun ('-' :: rest)).2 = (lineRun rest).2 := by simp [lineRun]
  rw [h]
  exact lineRun_rest_le rest

theorem block_rest_le (rest : List Char) :
    (blockRun rest.tail).2.2.length ≤ rest.length := by
  have h := blockRun_rest_le rest.tail
  rw [List.length_tail] at h
  omega

theorem shrinks_textPiece : Shrinks textPiece := by
  intro c rest
  rw [textPiece]
  split_ifs with h1 h2 h3 h4
  · exact quotedRun_rest_le c rest
  · exact quotedRun_rest_le ']' rest
  · rw [h3.1]
    exact comment_rest_le rest
  · exact block_rest_le rest
  all_goals exact le_rfl

theorem shrinks_goPiece : Shrinks goPiece := by
  intro c rest
  rw [goPiece]
  split_ifs with h1 h2 h3 h4
  · exact untilQuote_rest_le c rest
  · exact quotedRun_rest_le ']' rest
  · rw [h3.1]
    exact comment_rest_le rest
  · exact block_rest_le rest
  all_goals exact le_rfl

theorem textPieces_cons (c : Char) (rest : List Char) :
    textPieces (c :: rest) = (textPiece c rest).1 :: textPieces (textPiece c rest).2 :=
  piecesFuel_cons shrinks_textPiece c rest

theorem goPieces_cons (c : Char) (rest : List Char) :
    goPieces (c :: rest) = (goPiece c rest).1 :: goPieces (goPiece c rest).2 :=
  piecesFuel_cons shrinks_goPiece c rest

theorem textPiece_raw (c : Char) (rest : List Char) :
    (textPiece c rest).1.raw ++ (textPiece c rest).2 = c :: rest := by
  rw [textPiece]
  split_ifs with h1 h2 h3 h4 h5 h6
  · exact congrArg (c :: ·) (quotedRun_append c rest)
  · rw [h2]
    exact congrArg ('[' :: ·) (quotedRun_append ']' rest)
  · exact lineRun_append (c :: rest)
  · obtain ⟨rfl, hstar⟩ := h4
    obtain ⟨more, rfl⟩ := List.head?_eq_some_iff.mp hstar
    have hrun := blockRun_append more
    exact congrArg (fun text => '/' :: '*' :: text) hrun
  · rw [h5]
    rfl
  · rw [h6]
    rfl
  · rfl

/-- The text of pieces. -/
def rawText (ps : List Piece) : List Char := ps.flatMap Piece.raw

theorem rawText_cons (p : Piece) (ps : List Piece) :
    rawText (p :: ps) = p.raw ++ rawText ps := rfl

theorem rawText_append (ps qs : List Piece) : rawText (ps ++ qs) = rawText ps ++ rawText qs :=
  List.flatMap_append

theorem rawText_textPieces (sql : List Char) : rawText (textPieces sql) = sql := by
  induction sql using scan_induction shrinks_textPiece with
  | nil => rfl
  | cons c rest ih => rw [textPieces_cons, rawText_cons, ih, textPiece_raw]

/-- Every character but these is read alike. -/
theorem textPiece_eq_goPiece {c : Char} (h : c ∉ ['\'', '"', '\x60', ';']) (rest : List Char) :
    textPiece c rest = goPiece c rest := by
  simp only [List.mem_cons, List.not_mem_nil, or_false, not_or] at h
  simp only [textPiece, goPiece, h, or_false, if_false]

end Docsql.Stmt
