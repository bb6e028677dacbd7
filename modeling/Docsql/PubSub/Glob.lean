import Mathlib.Tactic

/-!
# Channel patterns

The glob matcher of `pubsub.rs`.  Positions in the pattern and in the text are
the lists that remain from there on.
-/

namespace Docsql.PubSub

/-- The members of a class up to its closing bracket, and the pattern after it.
A bracket in the first place is a member. -/
def matchMembers (negate : Bool) (ch : Char) :
    List Char → Bool → Bool → Option (Bool × List Char)
  | [], _, _ => none
  | c :: rest, hit, first =>
    if c = ']' ∧ first = false then some (hit != negate, rest)
    else
      match rest with
      | '-' :: last :: rest' =>
        if last ≠ ']' then
          matchMembers negate ch rest' (hit || (decide (c ≤ ch) && decide (ch ≤ last))) false
        else matchMembers negate ch ('-' :: last :: rest') (hit || c == ch) false
      | rest => matchMembers negate ch rest (hit || c == ch) false
termination_by pattern => pattern.length

/-- A class, after its opening bracket. -/
def matchClass (pattern : List Char) (ch : Char) : Option (Bool × List Char) :=
  match pattern with
  | '^' :: members => matchMembers true ch members false true
  | members => matchMembers false ch members false true

theorem matchMembers_length {negate : Bool} {ch : Char} {pattern next : List Char}
    {hit first result : Bool} (h : matchMembers negate ch pattern hit first = some (result, next)) :
    next.length < pattern.length := by
  fun_induction matchMembers negate ch pattern hit first with
  | case1 => cases h
  | case2 =>
    cases h
    exact Nat.lt_succ_self _
  | case3 hit first c last rest _ _ ih =>
    have hrest := ih h
    simp only [List.length_cons]
    omega
  | case4 hit first c last rest _ _ ih => exact (ih h).trans (Nat.lt_succ_self _)
  | case5 hit first c rest _ _ ih => exact (ih h).trans (Nat.lt_succ_self _)

theorem matchClass_length {ch : Char} {pattern next : List Char} {result : Bool}
    (h : matchClass pattern ch = some (result, next)) : next.length < pattern.length := by
  unfold matchClass at h
  split at h
  · exact (matchMembers_length h).trans (Nat.lt_succ_self _)
  · exact matchMembers_length h

/-- What follows the last star, and the text from where it stopped absorbing. -/
abbrev Star := Option (List Char × List Char)

/-- One more token of the pattern against the character `c`. -/
def matchToken (pattern : List Char) (c : Char) (text : List Char) (star : Star) :
    Option (List Char × List Char × Star) :=
  match pattern with
  | [] => none
  | '*' :: rest => some (rest, c :: text, some (rest, c :: text))
  | '?' :: rest => some (rest, text, star)
  | '[' :: members =>
    match matchClass members c with
    | some (true, next) => some (next, text, star)
    -- An unterminated class is a literal that does not match.
    | _ => none
  | '\\' :: e :: rest => if e = c then some (rest, text, star) else none
  | l :: rest => if l = c then some (rest, text, star) else none

def Star.left (star : Star) : ℕ := star.elim 0 fun m => m.2.length

theorem matchToken_decreases {pattern text next left : List Char} {c : Char} {star star' : Star}
    (h : matchToken pattern c text star = some (next, left, star')) :
    max left.length star'.left ≤ max (c :: text).length star.left ∧
      next.length < pattern.length := by
  unfold matchToken at h
  split at h
  · cases h
  · cases h
    simp [Star.left]
  · cases h
    simp only [List.length_cons]
    omega
  · split at h
    · rename_i hclass
      have hlen := matchClass_length hclass
      cases h
      simp only [List.length_cons]
      omega
    · cases h
  · split at h
    · cases h
      simp only [List.length_cons]
      omega
    · cases h
  · split at h
    · cases h
      simp only [List.length_cons]
      omega
    · cases h

def matchFrom (pattern text : List Char) (star : Star) : Bool :=
  match text with
  | [] => pattern.all (· = '*')
  | c :: rest =>
    match _h : matchToken pattern c rest star with
    | some (next, left, star') => matchFrom next left star'
    | none =>
      match star with
      | none => false
      -- The last star absorbs one more character.
      | some (after, _ :: mark) => matchFrom after mark (some (after, mark))
      | some (_, []) => false
termination_by (max text.length star.left, pattern.length)
decreasing_by
  · obtain ⟨hleft, hnext⟩ := matchToken_decreases _h
    rw [Prod.lex_def]
    dsimp only
    omega
  · rw [Prod.lex_def]
    dsimp only [Star.left, Option.elim, List.length_cons]
    omega

def patternMatches (pattern s : String) : Bool := matchFrom pattern.toList s.toList none

end Docsql.PubSub
