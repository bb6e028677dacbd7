import Mathlib

/-!
# Regions of a statement text

The stretches the scanners of `stmt.rs` step over whole: literals and delimited
identifiers with doubled closing quotes, line comments, block comments.  Every function
reads the text behind the opening and returns what it consumed and what is left.
-/

namespace Docsql.Stmt

/-- Up to the closing quote, which a second one escapes. -/
def quotedRun (quote : Char) : List Char → List Char × List Char
  | [] => ([], [])
  | [c] => ([c], [])
  | c :: d :: rest =>
    if c = quote then
      if d = quote then
        let r := quotedRun quote rest
        (c :: d :: r.1, r.2)
      else
        ([c], d :: rest)
    else
      let r := quotedRun quote (d :: rest)
      (c :: r.1, r.2)

/-- Up to the first closing quote. -/
def untilQuote (quote : Char) : List Char → List Char × List Char
  | [] => ([], [])
  | c :: rest =>
    if c = quote then
      ([c], rest)
    else
      let r := untilQuote quote rest
      (c :: r.1, r.2)

/-- Up to the end of the line, which stays in the text. -/
def lineRun (text : List Char) : List Char × List Char :=
  (text.takeWhile (· ≠ '\n'), text.dropWhile (· ≠ '\n'))

/-- Up to the end of a block comment: the text of the comment, whether `*/` closed it, and
what follows. -/
def blockRun : List Char → List Char × Bool × List Char
  | [] => ([], false, [])
  | [c] => ([c], false, [])
  | c :: d :: rest =>
    if c = '*' ∧ d = '/' then
      ([], true, rest)
    else
      let r := blockRun (d :: rest)
      (c :: r.1, r.2.1, r.2.2)

/-- What ends a block comment. -/
def blockEnd (closed : Bool) : List Char := if closed then ['*', '/'] else []

theorem quotedRun_append (quote : Char) (text : List Char) :
    (quotedRun quote text).1 ++ (quotedRun quote text).2 = text := by
  induction text using quotedRun.induct quote with
  | case1 => rfl
  | case2 c => rfl
  | case3 rest ih => simp [quotedRun, ih]
  | case4 d rest hd => simp [quotedRun, hd]
  | case5 c d rest hc ih => simp [quotedRun, hc, ih]

theorem untilQuote_append (quote : Char) (text : List Char) :
    (untilQuote quote text).1 ++ (untilQuote quote text).2 = text := by
  induction text with
  | nil => rfl
  | cons c rest ih =>
    by_cases hc : c = quote
    · simp [untilQuote, hc]
    · simp [untilQuote, hc, ih]

theorem lineRun_append (text : List Char) : (lineRun text).1 ++ (lineRun text).2 = text :=
  List.takeWhile_append_dropWhile

theorem blockRun_append (text : List Char) :
    (blockRun text).1 ++ blockEnd (blockRun text).2.1 ++ (blockRun text).2.2 = text := by
  induction text using blockRun.induct with
  | case1 => rfl
  | case2 c => rfl
  | case3 c d rest h => simp [blockRun, h, blockEnd]
  | case4 c d rest h ih =>
    rw [blockRun, if_neg h]
    simpa using ih

theorem quotedRun_rest_le (quote : Char) (text : List Char) :
    (quotedRun quote text).2.length ≤ text.length := by
  have h := congrArg List.length (quotedRun_append quote text)
  rw [List.length_append] at h
  omega

theorem untilQuote_rest_le (quote : Char) (text : List Char) :
    (untilQuote quote text).2.length ≤ text.length := by
  have h := congrArg List.length (untilQuote_append quote text)
  rw [List.length_append] at h
  omega

theorem lineRun_rest_le (text : List Char) : (lineRun text).2.length ≤ text.length := by
  have h := congrArg List.length (lineRun_append text)
  rw [List.length_append] at h
  omega

theorem blockRun_rest_le (text : List Char) : (blockRun text).2.2.length ≤ text.length := by
  have h := congrArg List.length (blockRun_append text)
  rw [List.length_append, List.length_append] at h
  omega

/-- A run with doubled quotes is the run up to the first quote, or goes on behind a second
one. -/
theorem quotedRun_cases (quote : Char) (text : List Char) :
    ((untilQuote quote text).2.head? ≠ some quote ∧
      quotedRun quote text = untilQuote quote text) ∨
    ∃ rest, (untilQuote quote text).2 = quote :: rest ∧
      quotedRun quote text =
        ((untilQuote quote text).1 ++ quote :: (quotedRun quote rest).1,
          (quotedRun quote rest).2) := by
  induction text using quotedRun.induct quote with
  | case1 => exact Or.inl ⟨by simp [untilQuote], rfl⟩
  | case2 c =>
    refine Or.inl ⟨?_, ?_⟩ <;> by_cases hc : c = quote <;> simp [untilQuote, quotedRun, hc]
  | case3 rest => exact Or.inr ⟨rest, by simp [untilQuote], by simp [untilQuote, quotedRun]⟩
  | case4 d rest hd =>
    exact Or.inl ⟨by simpa [untilQuote] using hd, by simp [untilQuote, quotedRun, hd]⟩
  | case5 c d rest hc ih =>
    have hu : untilQuote quote (c :: d :: rest) =
        (c :: (untilQuote quote (d :: rest)).1, (untilQuote quote (d :: rest)).2) := by
      rw [untilQuote, if_neg hc]
    have hq : quotedRun quote (c :: d :: rest) =
        (c :: (quotedRun quote (d :: rest)).1, (quotedRun quote (d :: rest)).2) := by
      rw [quotedRun, if_neg hc]
    rcases ih with ⟨hhead, hrun⟩ | ⟨more, hmore, hrun⟩
    · exact Or.inl ⟨by rw [hu]; exact hhead, by rw [hu, hq, hrun]⟩
    · exact Or.inr ⟨more, by rw [hu]; exact hmore, by rw [hu, hq, hrun]; rfl⟩

/-! ## What a region leaves behind -/

theorem quotedRun_head_ne (quote : Char) (text : List Char) :
    (quotedRun quote text).2.head? ≠ some quote := by
  induction text using quotedRun.induct quote with
  | case1 => simp [quotedRun]
  | case2 c => simp [quotedRun]
  | case3 rest ih => simpa [quotedRun] using ih
  | case4 d rest hd => simp [quotedRun, hd]
  | case5 c d rest hc ih => simpa [quotedRun, hc] using ih

theorem quotedRun_last (quote : Char) (text : List Char) :
    (quotedRun quote text).2 ≠ [] → (quotedRun quote text).1.getLast? = some quote := by
  induction text using quotedRun.induct quote with
  | case1 => simp [quotedRun]
  | case2 c => simp [quotedRun]
  | case3 rest ih =>
    intro h
    have h' : (quotedRun quote rest).2 ≠ [] := by simpa [quotedRun] using h
    have hlast := ih h'
    simp only [quotedRun, if_true]
    rw [List.getLast?_cons_cons, List.getLast?_cons, hlast]
    rfl
  | case4 d rest hd => simp [quotedRun, hd]
  | case5 c d rest hc ih =>
    intro h
    have h' : (quotedRun quote (d :: rest)).2 ≠ [] := by simpa [quotedRun, hc] using h
    have hlast := ih h'
    rw [quotedRun, if_neg hc, List.getLast?_cons, hlast]
    rfl

/-- The run ends where it ended when other text follows. -/
theorem quotedRun_replace (quote : Char) {text other : List Char}
    (hnil : (quotedRun quote text).2 = [] → other = []) (hhead : other.head? ≠ some quote) :
    quotedRun quote ((quotedRun quote text).1 ++ other) = ((quotedRun quote text).1, other) := by
  induction text using quotedRun.induct quote with
  | case1 =>
    rw [hnil rfl]
    rfl
  | case2 c =>
    rw [hnil rfl]
    rfl
  | case3 rest ih =>
    have h := ih (by simpa [quotedRun] using hnil)
    simp only [quotedRun, if_true, List.cons_append]
    rw [h]
  | case4 d rest hd =>
    simp only [quotedRun, if_true, if_neg hd, List.singleton_append]
    cases other with
    | nil => rfl
    | cons e es =>
      have he : e ≠ quote := by simpa using hhead
      rw [quotedRun, if_pos rfl, if_neg he]
  | case5 c d rest hc ih =>
    have h := ih (by simpa [quotedRun, hc] using hnil)
    simp only [quotedRun, if_neg hc, List.cons_append]
    cases hrun : (quotedRun quote (d :: rest)).1 ++ other with
    | nil =>
      rw [(List.append_eq_nil_iff.mp hrun).1, (List.append_eq_nil_iff.mp hrun).2]
      rfl
    | cons e es =>
      rw [quotedRun, if_neg hc, ← hrun, h]

theorem lineRun_replace {text other : List Char}
    (hhead : other = [] ∨ other.head? = some '\n') :
    lineRun ((lineRun text).1 ++ other) = ((lineRun text).1, other) := by
  have hin : ∀ c ∈ text.takeWhile (fun c => decide (c ≠ '\n')), decide (c ≠ '\n') :=
    fun c hc => by simpa using List.mem_takeWhile_imp hc
  have hstop : other.takeWhile (· ≠ '\n') = [] ∧ other.dropWhile (· ≠ '\n') = other := by
    rcases hhead with rfl | hhead
    · exact ⟨rfl, rfl⟩
    · obtain ⟨more, rfl⟩ := List.head?_eq_some_iff.mp hhead
      exact ⟨rfl, rfl⟩
  rw [lineRun, lineRun, List.takeWhile_append_of_pos hin, List.dropWhile_append_of_pos hin,
    hstop.1, hstop.2, List.append_nil]

theorem lineRun_rest (text : List Char) :
    (lineRun text).2 = [] ∨ (lineRun text).2.head? = some '\n' := by
  rw [lineRun]
  cases hdrop : text.dropWhile (· ≠ '\n') with
  | nil => exact Or.inl rfl
  | cons c rest =>
    have h := List.head?_dropWhile_not (fun c : Char => decide (c ≠ '\n')) text
    rw [hdrop] at h
    have hc : c = '\n' := by simpa using h
    exact Or.inr (congrArg some hc)

theorem blockRun_replace {text other : List Char}
    (hnil : (blockRun text).2.1 = false → other = []) :
    blockRun ((blockRun text).1 ++ blockEnd (blockRun text).2.1 ++ other) =
      ((blockRun text).1, (blockRun text).2.1, other) := by
  induction text using blockRun.induct with
  | case1 => rw [hnil rfl]; rfl
  | case2 c => rw [hnil rfl]; rfl
  | case3 c d rest h => simp [blockRun, h, blockEnd]
  | case4 c d rest h ih =>
    have hnil : (blockRun (d :: rest)).2.1 = false → other = [] := by
      simpa [blockRun, h] using hnil
    have ih := ih hnil
    have happend := blockRun_append (d :: rest)
    simp only [blockRun, if_neg h, List.cons_append]
    generalize blockRun (d :: rest) = r at ih happend hnil
    obtain ⟨inside, closed, after⟩ := r
    simp only at ih happend hnil ⊢
    cases htext : inside ++ blockEnd closed ++ other with
    | nil =>
      rw [htext] at ih
      rw [blockRun, ← (Prod.mk.inj ih).1, ← (Prod.mk.inj (Prod.mk.inj ih).2).1,
        ← (Prod.mk.inj (Prod.mk.inj ih).2).2]
    | cons e es =>
      have he : ¬ (c = '*' ∧ e = '/') := by
        cases inside with
        | cons a as =>
          rw [← (List.cons.inj htext).1, (List.cons.inj happend).1]
          exact h
        | nil =>
          cases closed with
          | true =>
            rw [← (List.cons.inj htext).1]
            exact fun hc => absurd hc.2 (by decide)
          | false =>
            rw [hnil rfl] at htext
            exact absurd htext (by simp [blockEnd])
      rw [blockRun, if_neg he, ← htext, ih]

theorem blockRun_unclosed (text : List Char) :
    (blockRun text).2.1 = false → (blockRun text).2.2 = [] := by
  induction text using blockRun.induct with
  | case1 => exact fun _ => rfl
  | case2 c => exact fun _ => rfl
  | case3 c d rest h => simp [blockRun, h]
  | case4 c d rest h ih => simpa [blockRun, h] using ih

/-! ## A scanner's loop -/

variable {α : Type}

/-- What a scanner reads, one thing each turn. -/
def piecesFuel (next : Char → List Char → α × List Char) : ℕ → List Char → List α
  | 0, _ => []
  | _ + 1, [] => []
  | n + 1, c :: rest => (next c rest).1 :: piecesFuel next n (next c rest).2

/-- A turn leaves no more than was behind the character it starts at. -/
def Shrinks (next : Char → List Char → α × List Char) : Prop :=
  ∀ c rest, (next c rest).2.length ≤ rest.length

/-- Fuel for the length of the text is fuel enough. -/
theorem piecesFuel_eq {next : Char → List Char → α × List Char} (hnext : Shrinks next) :
    ∀ (n m : ℕ) (text : List Char), text.length ≤ n → text.length ≤ m →
      piecesFuel next n text = piecesFuel next m text
  | 0, m, text, hn, _ => by
    rw [List.eq_nil_of_length_eq_zero (Nat.le_zero.mp hn)]
    cases m <;> rfl
  | n + 1, 0, text, _, hm => by
    rw [List.eq_nil_of_length_eq_zero (Nat.le_zero.mp hm)]
    rfl
  | n + 1, m + 1, [], _, _ => rfl
  | n + 1, m + 1, c :: rest, hn, hm => by
    have hle := hnext c rest
    rw [List.length_cons] at hn hm
    rw [piecesFuel, piecesFuel, piecesFuel_eq hnext n m _ (by omega) (by omega)]

theorem piecesFuel_cons {next : Char → List Char → α × List Char} (hnext : Shrinks next)
    (c : Char) (rest : List Char) :
    piecesFuel next (c :: rest).length (c :: rest) =
      (next c rest).1 :: piecesFuel next (next c rest).2.length (next c rest).2 := by
  rw [List.length_cons, piecesFuel,
    piecesFuel_eq hnext rest.length _ _ (hnext c rest) le_rfl]

/-- Induction along the turns of a scanner. -/
theorem scan_induction {next : Char → List Char → α × List Char} (hnext : Shrinks next)
    {motive : List Char → Prop} (nil : motive [])
    (cons : ∀ c rest, motive (next c rest).2 → motive (c :: rest)) :
    ∀ text, motive text := by
  intro text
  induction hlen : text.length using Nat.strong_induction_on generalizing text with
  | _ n ih =>
    cases text with
    | nil => exact nil
    | cons c rest =>
      rw [List.length_cons] at hlen
      exact cons c rest (ih _ (by have := hnext c rest; omega) _ rfl)

end Docsql.Stmt
