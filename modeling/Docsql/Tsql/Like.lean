import Docsql.Lib.Wildcard

/-!
# LIKE

`like_match`, `tokenize_like` and `like_literal_prefix` of `tsql.rs`, and the language that the
comments there give a pattern.
-/

namespace Docsql.Tsql

/-! ## Tokens -/

inductive LikeTok where
  | literal (c : Char)
  | anyOne
  | anyRun
  | oneOf (neg : Bool) (ranges : List (Char × Char))
  | never
deriving DecidableEq

/-- What the loop over the members of a class finds. -/
structure ClassScan where
  ranges : List (Char × Char) := []
  malformed : Bool := false
  closed : Bool := false
  rest : List Char := []

def ClassScan.push (r : ClassScan) (lo hi : Char) : ClassScan :=
  { r with ranges := (lo, hi) :: r.ranges, malformed := decide (hi < lo) || r.malformed }

/-- The members up to the closing bracket; a bracket in the first place is a member. -/
def scanClass : List Char → Bool → ClassScan
  | [], _ => {}
  | c :: rest, first =>
    if c = ']' ∧ first = false then { closed := true, rest }
    else
      match rest with
      | '-' :: last :: rest' =>
        if last ≠ ']' then (scanClass rest' false).push c last
        else (scanClass ('-' :: last :: rest') false).push c c
      | rest => (scanClass rest false).push c c
termination_by pattern => pattern.length

/-- A class, behind its opening bracket. -/
def readClass (pattern : List Char) : Bool × ClassScan :=
  match pattern with
  | '^' :: members => (true, scanClass members true)
  | members => (false, scanClass members true)

/-- The token a pattern starts with, and the pattern behind it. -/
def readToken (esc : Option Char) (c : Char) (rest : List Char) : LikeTok × List Char :=
  if some c = esc then
    match rest with
    | e :: rest' => (.literal e, rest')
    | [] => (.literal c, [])
  else if c = '%' then (.anyRun, rest)
  else if c = '_' then (.anyOne, rest)
  else if c = '[' ∧ rest ≠ [] then
    let (neg, scan) := readClass rest
    if scan.malformed then (.never, scan.rest)
    else if scan.closed ∧ scan.ranges ≠ [] then (.oneOf neg scan.ranges, scan.rest)
    else (.literal '[', rest)
  else (.literal c, rest)

theorem scanClass_rest_le (pattern : List Char) (first : Bool) :
    (scanClass pattern first).rest.length ≤ pattern.length := by
  fun_induction scanClass pattern first with
  | case1 => exact le_rfl
  | case2 => exact Nat.le_succ _
  | case3 c first _ last rest _ ih =>
    change (scanClass rest false).rest.length ≤ _
    simp only [List.length_cons]
    omega
  | case4 c first _ last rest _ ih => exact ih.trans (Nat.le_succ _)
  | case5 c first rest _ _ ih => exact ih.trans (Nat.le_succ _)

theorem readClass_rest_le (pattern : List Char) :
    (readClass pattern).2.rest.length ≤ pattern.length := by
  unfold readClass
  split
  · exact (scanClass_rest_le _ _).trans (Nat.le_succ _)
  · exact scanClass_rest_le _ _

theorem readToken_rest_le (esc : Option Char) (c : Char) (rest : List Char) :
    (readToken esc c rest).2.length ≤ rest.length := by
  have hclass := readClass_rest_le rest
  unfold readToken
  split_ifs
  · cases rest with
    | nil => exact le_rfl
    | cons e rest' => exact Nat.le_succ _
  · exact le_rfl
  · exact le_rfl
  · dsimp only
    split_ifs
    · exact hclass
    · exact hclass
    · exact le_rfl
  · exact le_rfl

def tokenizeLike (pat : List Char) (esc : Option Char) : List LikeTok :=
  match pat with
  | [] => []
  | c :: rest => (readToken esc c rest).1 :: tokenizeLike (readToken esc c rest).2 esc
termination_by pat.length
decreasing_by exact Nat.lt_succ_of_le (readToken_rest_le esc c rest)

@[simp] theorem tokenizeLike_nil (esc : Option Char) : tokenizeLike [] esc = [] := by
  rw [tokenizeLike]

theorem tokenizeLike_cons (c : Char) (rest : List Char) (esc : Option Char) :
    tokenizeLike (c :: rest) esc =
      (readToken esc c rest).1 :: tokenizeLike (readToken esc c rest).2 esc := by
  rw [tokenizeLike]

/-! ## Matching -/

def LikeTok.isRun : LikeTok → Bool
  | .anyRun => true
  | _ => false

/-- `hit` of the loop. -/
def LikeTok.hit (c : Char) : LikeTok → Bool
  | .literal l => c == l
  | .anyOne => true
  | .oneOf neg ranges => (ranges.any fun r => decide (r.1 ≤ c) && decide (c ≤ r.2)) != neg
  | .never => false
  | .anyRun => false

def likeReader : Wildcard.Reader LikeTok Char := ⟨LikeTok.isRun, fun t c => t.hit c⟩

def likeMatch (s pat : List Char) (esc : Option Char) : Bool :=
  Wildcard.matchFrom likeReader (tokenizeLike pat esc) s none

/-- The loop of `like_literal_prefix`: the literals up to a last `%`. -/
def literalPrefix (pre : List Char) : List LikeTok → Option (List Char)
  | [] => none
  | .literal c :: toks => literalPrefix (pre ++ [c]) toks
  | .anyRun :: toks => if toks = [] ∧ pre ≠ [] then some pre else none
  | _ :: _ => none

def likeLiteralPrefix (pat : List Char) (esc : Option Char) : Option (List Char) :=
  literalPrefix [] (tokenizeLike pat esc)

/-! ## The documented language -/

/-- The token a pattern starts with: a closed class with a reversed range matches nothing, and a
bracket that nothing closes is a literal. -/
def documentedToken (esc : Option Char) (c : Char) (rest : List Char) : LikeTok × List Char :=
  if some c = esc then
    match rest with
    | e :: rest' => (.literal e, rest')
    | [] => (.literal c, [])
  else if c = '%' then (.anyRun, rest)
  else if c = '_' then (.anyOne, rest)
  else if c = '[' ∧ (readClass rest).2.closed = true then
    if (readClass rest).2.malformed then (.never, (readClass rest).2.rest)
    else (.oneOf (readClass rest).1 (readClass rest).2.ranges, (readClass rest).2.rest)
  else (.literal c, rest)

theorem documentedToken_rest_le (esc : Option Char) (c : Char) (rest : List Char) :
    (documentedToken esc c rest).2.length ≤ rest.length := by
  have hclass := readClass_rest_le rest
  unfold documentedToken
  split_ifs
  · cases rest with
    | nil => exact le_rfl
    | cons e rest' => exact Nat.le_succ _
  · exact le_rfl
  · exact le_rfl
  · exact hclass
  · exact hclass
  · exact le_rfl

def documentedTokens (pat : List Char) (esc : Option Char) : List LikeTok :=
  match pat with
  | [] => []
  | c :: rest =>
    (documentedToken esc c rest).1 :: documentedTokens (documentedToken esc c rest).2 esc
termination_by pat.length
decreasing_by exact Nat.lt_succ_of_le (documentedToken_rest_le esc c rest)

@[simp] theorem documentedTokens_nil (esc : Option Char) : documentedTokens [] esc = [] := by
  rw [documentedTokens]

theorem documentedTokens_cons (c : Char) (rest : List Char) (esc : Option Char) :
    documentedTokens (c :: rest) esc =
      (documentedToken esc c rest).1 :: documentedTokens (documentedToken esc c rest).2 esc := by
  rw [documentedTokens]

/-- The texts that a pattern stands for. -/
def LikeLanguage (pat : List Char) (esc : Option Char) (s : List Char) : Prop :=
  Wildcard.InLanguage likeReader (documentedTokens pat esc) s

/-! ## Open brackets -/

/-- A bracket that nothing closes, with a reversed range behind it. -/
def Swallows (esc : Option Char) (c : Char) (rest : List Char) : Prop :=
  some c ≠ esc ∧ c = '[' ∧ (readClass rest).2.closed = false ∧ (readClass rest).2.malformed = true

instance (esc : Option Char) (c : Char) (rest : List Char) : Decidable (Swallows esc c rest) :=
  inferInstanceAs (Decidable (_ ∧ _))

/-- The tokens in front of the first such bracket. -/
def beforeSwallow (pat : List Char) (esc : Option Char) : Option (List LikeTok) :=
  match pat with
  | [] => none
  | c :: rest =>
    if Swallows esc c rest then some []
    else (beforeSwallow (documentedToken esc c rest).2 esc).map
      ((documentedToken esc c rest).1 :: ·)
termination_by pat.length
decreasing_by exact Nat.lt_succ_of_le (documentedToken_rest_le esc c rest)

/-- No character hits the token. -/
def LikeTok.Unmatchable (t : LikeTok) : Prop := t.isRun = false ∧ ∀ c, t.hit c = false

end Docsql.Tsql
