import Docsql.PubSub.Glob

/-!
# The language of a channel pattern

A pattern is a sequence of tokens, and a text is in its language if it can be split among them:
a star takes any part of it, every other token one character.  The matcher keeps the last star
only; no text is lost by that, since all tokens between two stars take one character each.
-/

namespace Docsql.PubSub

/-! ## Tokens -/

inductive Token where
  | anyText
  | anyChar
  /-- Members and ranges, first and last character; `negated` for `[^`. -/
  | oneOf (negated : Bool) (members : List (Char × Char))
  | literal (c : Char)
  /-- A class that is not closed. -/
  | nothing
deriving DecidableEq

def addMember (m : Char × Char) (r : List (Char × Char) × List Char) :
    List (Char × Char) × List Char := (m :: r.1, r.2)

/-- The members of a class up to its closing bracket, and the pattern after it. -/
def readMembers : List Char → Bool → Option (List (Char × Char) × List Char)
  | [], _ => none
  | c :: rest, first =>
    if c = ']' ∧ first = false then some ([], rest)
    else
      match rest with
      | '-' :: last :: rest' =>
        if last ≠ ']' then (readMembers rest' false).map (addMember (c, last))
        else (readMembers ('-' :: last :: rest') false).map (addMember (c, c))
      | rest => (readMembers rest false).map (addMember (c, c))
termination_by pattern => pattern.length

/-- The class after its opening bracket. -/
def readClass (pattern : List Char) : Option (Token × List Char) :=
  match pattern with
  | '^' :: members => (readMembers members true).map fun r => (.oneOf true r.1, r.2)
  | members => (readMembers members true).map fun r => (.oneOf false r.1, r.2)

/-- The token a pattern starts with. -/
def readToken (c : Char) (rest : List Char) : Token × List Char :=
  if c = '*' then (.anyText, rest)
  else if c = '?' then (.anyChar, rest)
  else if c = '[' then (readClass rest).getD (.nothing, rest)
  else if c = '\\' then
    match rest with
    | e :: rest' => (.literal e, rest')
    | [] => (.literal c, rest)
  else (.literal c, rest)

theorem readMembers_length {pattern : List Char} {first : Bool}
    {r : List (Char × Char) × List Char} (h : readMembers pattern first = some r) :
    r.2.length < pattern.length := by
  fun_induction readMembers pattern first generalizing r with
  | case1 => cases h
  | case2 =>
    cases h
    exact Nat.lt_succ_self _
  | case3 c first _ last rest _ ih =>
    obtain ⟨r, hread, rfl⟩ := Option.map_eq_some_iff.mp h
    have hrest := ih hread
    simp only [List.length_cons, addMember]
    omega
  | case4 c first _ last rest _ ih =>
    obtain ⟨r, hread, rfl⟩ := Option.map_eq_some_iff.mp h
    exact (ih hread).trans (Nat.lt_succ_self _)
  | case5 c first _ rest _ ih =>
    obtain ⟨r, hread, rfl⟩ := Option.map_eq_some_iff.mp h
    exact (ih hread).trans (Nat.lt_succ_self _)

theorem readClass_length {pattern : List Char} {r : Token × List Char}
    (h : readClass pattern = some r) : r.2.length < pattern.length := by
  unfold readClass at h
  split at h
  · obtain ⟨r, hread, rfl⟩ := Option.map_eq_some_iff.mp h
    exact (readMembers_length hread).trans (Nat.lt_succ_self _)
  · obtain ⟨r, hread, rfl⟩ := Option.map_eq_some_iff.mp h
    exact readMembers_length hread

theorem readToken_length (c : Char) (rest : List Char) :
    (readToken c rest).2.length ≤ rest.length := by
  unfold readToken
  split_ifs
  · exact le_rfl
  · exact le_rfl
  · cases hread : readClass rest with
    | none => exact le_rfl
    | some r => exact (readClass_length hread).le
  · cases rest with
    | nil => exact le_rfl
    | cons e rest' => exact Nat.le_succ _
  · exact le_rfl

/-- A pattern as the sequence of its tokens. -/
def tokens (pattern : List Char) : List Token :=
  match pattern with
  | [] => []
  | c :: rest => (readToken c rest).1 :: tokens (readToken c rest).2
termination_by pattern.length
decreasing_by exact Nat.lt_succ_of_le (readToken_length c rest)

@[simp] theorem tokens_nil : tokens [] = [] := by rw [tokens]

theorem tokens_cons (c : Char) (rest : List Char) :
    tokens (c :: rest) = (readToken c rest).1 :: tokens (readToken c rest).2 := by
  rw [tokens]

/-! ## The language -/

/-- The characters a token stands for, if it stands for one. -/
def Token.Takes (c : Char) : Token → Prop
  | .anyText => False
  | .anyChar => True
  | .oneOf negated members => (∃ m ∈ members, m.1 ≤ c ∧ c ≤ m.2) ↔ negated = false
  | .literal l => l = c
  | .nothing => False

/-- Every split of the text at every star is tried. -/
def InLanguage : List Token → List Char → Prop
  | [], text => text = []
  | .anyText :: ts, text => ∃ front back, text = front ++ back ∧ InLanguage ts back
  | t :: ts, text => ∃ c rest, text = c :: rest ∧ t.Takes c ∧ InLanguage ts rest

theorem inLanguage_cons {t : Token} (h : t ≠ .anyText) (ts : List Token) (text : List Char) :
    InLanguage (t :: ts) text ↔ ∃ c rest, text = c :: rest ∧ t.Takes c ∧ InLanguage ts rest := by
  cases t with
  | anyText => exact absurd rfl h
  | _ => rfl

theorem inLanguage_anyText (ts : List Token) (text : List Char) :
    InLanguage (.anyText :: ts) text ↔ ∃ k ≤ text.length, InLanguage ts (text.drop k) := by
  constructor
  · rintro ⟨front, back, rfl, hback⟩
    exact ⟨front.length, by simp, by simpa using hback⟩
  · rintro ⟨k, -, hback⟩
    exact ⟨text.take k, text.drop k, (List.take_append_drop k text).symm, hback⟩

/-- Tokens of one character each take as many characters as they are. -/
theorem inLanguage_append {front : List Token} (hfront : ∀ t ∈ front, t ≠ .anyText)
    {back : List Token} {text : List Char} (h : InLanguage (front ++ back) text) :
    front.length ≤ text.length ∧ InLanguage back (text.drop front.length) := by
  induction front generalizing text with
  | nil => exact ⟨Nat.zero_le _, h⟩
  | cons t front ih =>
    obtain ⟨c, rest, rfl, -, hrest⟩ :=
      (inLanguage_cons (hfront t List.mem_cons_self) _ _).mp h
    obtain ⟨hlen, hback⟩ := ih (fun t ht => hfront t (List.mem_cons_of_mem _ ht)) hrest
    exact ⟨Nat.succ_le_succ hlen, hback⟩

/-! ## One token of the matcher -/

/-- Whether one of the members is hit. -/
def hits (ch : Char) (members : List (Char × Char)) : Bool :=
  members.any fun m => decide (m.1 ≤ ch) && decide (ch ≤ m.2)

theorem hits_single (ch c : Char) (members : List (Char × Char)) :
    hits ch ((c, c) :: members) = (c == ch || hits ch members) := by
  have hiff : (decide (c ≤ ch) && decide (ch ≤ c)) = (c == ch) := by
    rw [Bool.eq_iff_iff, Bool.and_eq_true, decide_eq_true_eq, decide_eq_true_eq, beq_iff_eq]
    constructor
    · exact fun h => Char.le_antisymm h.1 h.2
    · rintro rfl
      exact ⟨Char.le_refl c, Char.le_refl c⟩
  rw [hits, List.any_cons, hiff, hits]

theorem matchMembers_eq (negate : Bool) (ch : Char) (pattern : List Char) (hit first : Bool) :
    matchMembers negate ch pattern hit first = (readMembers pattern first).map fun r =>
      ((hit || hits ch r.1) != negate, r.2) := by
  fun_induction readMembers pattern first generalizing hit with
  | case1 => rw [matchMembers, Option.map_none]
  | case2 c rest first h =>
    rw [matchMembers.eq_def]
    simp only [if_pos h, Option.map_some, hits, List.any_nil, Bool.or_false]
  | case3 c first h last rest hlast ih =>
    rw [matchMembers.eq_def]
    simp only [if_neg h, if_pos hlast]
    rw [ih, Option.map_map]
    refine congrArg (Option.map · _) (funext fun r => ?_)
    simp only [Function.comp, addMember, hits, List.any_cons, Bool.or_assoc]
  | case4 c first h last rest hlast ih =>
    rw [matchMembers.eq_def]
    simp only [if_neg h, if_neg hlast]
    rw [ih, Option.map_map]
    refine congrArg (Option.map · _) (funext fun r => ?_)
    simp only [Function.comp, addMember, hits_single, Bool.or_assoc]
  | case5 c first h rest hrest ih =>
    rw [matchMembers.eq_def]
    simp only [if_neg h]
    rw [ih, Option.map_map]
    refine congrArg (Option.map · _) (funext fun r => ?_)
    simp only [Function.comp, addMember, hits_single, Bool.or_assoc]

theorem takes_oneOf (ch : Char) (negated : Bool) (members : List (Char × Char)) :
    (Token.oneOf negated members).Takes ch ↔ (hits ch members != negated) = true := by
  have hhits : (∃ m ∈ members, m.1 ≤ ch ∧ ch ≤ m.2) ↔ hits ch members = true := by
    simp [hits]
  rw [Token.Takes, hhits]
  cases hits ch members <;> cases negated <;> decide

/-- A class hits what its token takes, and ends where the token ends. -/
theorem matchClass_eq (pattern : List Char) (ch : Char) :
    (readClass pattern = none → matchClass pattern ch = none) ∧
      ∀ t next, readClass pattern = some (t, next) →
        t ≠ .anyText ∧ ∃ hit, matchClass pattern ch = some (hit, next) ∧ (t.Takes ch ↔ hit = true) := by
  have hmembers (negated : Bool) (members : List Char) :
      ((readMembers members true).map (fun r => (Token.oneOf negated r.1, r.2)) = none →
        matchMembers negated ch members false true = none) ∧
      ∀ t next, (readMembers members true).map (fun r => (Token.oneOf negated r.1, r.2)) =
          some (t, next) →
        t ≠ .anyText ∧ ∃ hit, matchMembers negated ch members false true = some (hit, next) ∧
          (t.Takes ch ↔ hit = true) := by
    rw [matchMembers_eq]
    constructor
    · intro h
      rw [Option.map_eq_none_iff.mp h, Option.map_none]
    · intro t next h
      obtain ⟨r, hread, heq⟩ := Option.map_eq_some_iff.mp h
      cases heq
      refine ⟨nofun, _, by rw [hread, Option.map_some], ?_⟩
      rw [Bool.false_or]
      exact takes_oneOf ch negated r.1
  by_cases hcaret : ∃ members, pattern = '^' :: members
  · obtain ⟨members, rfl⟩ := hcaret
    exact hmembers true members
  · have hread : readClass pattern =
        (readMembers pattern true).map fun r => (.oneOf false r.1, r.2) := by
      unfold readClass
      split
      · exact absurd ⟨_, rfl⟩ hcaret
      · rfl
    have hmatch : matchClass pattern ch = matchMembers false ch pattern false true := by
      unfold matchClass
      split
      · exact absurd ⟨_, rfl⟩ hcaret
      · rfl
    rw [hread, hmatch]
    exact hmembers false pattern

section Step

variable {c ch : Char} {rest text : List Char} {star : Star}

theorem readToken_anyText (h : (readToken c rest).1 = .anyText) : c = '*' := by
  unfold readToken at h
  split_ifs at h with h1 h2 h3 h4
  · exact h1
  · cases hread : readClass rest with
    | none =>
      rw [hread] at h
      cases h
    | some r =>
      rw [hread] at h
      exact absurd h ((matchClass_eq rest c).2 r.1 r.2 hread).1
  · cases rest <;> cases h

theorem matchToken_star :
    matchToken ('*' :: rest) ch text star = some (rest, ch :: text, some (rest, ch :: text)) := rfl

/-- Other tokens take their character or stop the matcher. -/
theorem matchToken_class (rest : List Char) (ch : Char) (text : List Char) (star : Star) :
    matchToken ('[' :: rest) ch text star =
      match matchClass rest ch with
      | some (true, next) => some (next, text, star)
      | _ => none := rfl

theorem matchToken_cases (h : c ≠ '*') :
    matchToken (c :: rest) ch text star = none ∧ ¬ (readToken c rest).1.Takes ch ∨
      matchToken (c :: rest) ch text star = some ((readToken c rest).2, text, star) ∧
        (readToken c rest).1.Takes ch := by
  have hliteral (l : Char) (next : List Char) :
      (if l = ch then some (next, text, star) else none) = none ∧ ¬ (Token.literal l).Takes ch ∨
        (if l = ch then some (next, text, star) else none) = some (next, text, star) ∧
          (Token.literal l).Takes ch := by
    by_cases hl : l = ch
    · exact .inr ⟨if_pos hl, hl⟩
    · exact .inl ⟨if_neg hl, hl⟩
  by_cases hany : c = '?'
  · subst hany
    exact .inr ⟨rfl, trivial⟩
  by_cases hclass : c = '['
  · subst hclass
    have hread : readToken '[' rest = (readClass rest).getD (.nothing, rest) := rfl
    rw [hread, matchToken_class]
    obtain ⟨hopen, hclosed⟩ := matchClass_eq rest ch
    cases hclass : readClass rest with
    | none =>
      rw [hopen hclass]
      exact .inl ⟨rfl, id⟩
    | some r =>
      obtain ⟨-, hit, hhit, htakes⟩ := hclosed r.1 r.2 hclass
      rw [hhit]
      cases hit with
      | false => exact .inl ⟨rfl, fun h => Bool.false_ne_true (htakes.mp h)⟩
      | true => exact .inr ⟨rfl, htakes.mpr rfl⟩
  by_cases hescape : c = '\\'
  · subst hescape
    cases rest with
    | nil => exact hliteral '\\' []
    | cons e rest => exact hliteral e rest
  have hread : readToken c rest = (.literal c, rest) := by
    unfold readToken
    rw [if_neg h, if_neg hany, if_neg hclass, if_neg hescape]
  have hmatch : matchToken (c :: rest) ch text star =
      if c = ch then some (rest, text, star) else none := by
    unfold matchToken
    split <;> simp_all
  rw [hread, hmatch]
  exact hliteral c rest

/-- Where the matcher stops, the text is not in the language of what is left. -/
theorem not_inLanguage_of_none {pattern : List Char}
    (h : matchToken pattern ch text star = none) : ¬ InLanguage (tokens pattern) (ch :: text) := by
  cases pattern with
  | nil =>
    rw [tokens_nil]
    exact List.cons_ne_nil ch text
  | cons c rest =>
    by_cases hstar : c = '*'
    · subst hstar
      cases h
    · rcases matchToken_cases hstar with ⟨-, htakes⟩ | ⟨hsome, -⟩
      · rw [tokens_cons, inLanguage_cons (mt readToken_anyText hstar)]
        rintro ⟨c', rest', heq, htakes', -⟩
        obtain ⟨rfl, rfl⟩ := List.cons.inj heq
        exact htakes htakes'
      · rw [hsome] at h
        cases h

theorem inLanguage_nil (pattern : List Char) :
    InLanguage (tokens pattern) [] ↔ pattern.all (· = '*') = true := by
  induction pattern with
  | nil =>
    rw [tokens_nil]
    exact iff_of_true rfl rfl
  | cons c rest ih =>
    rw [tokens_cons, List.all_cons, Bool.and_eq_true, decide_eq_true_eq]
    by_cases hstar : c = '*'
    · subst hstar
      have hread : readToken '*' rest = (.anyText, rest) := rfl
      rw [hread, inLanguage_anyText, ← ih]
      constructor
      · rintro ⟨k, -, hrest⟩
        exact ⟨rfl, by simpa using hrest⟩
      · rintro ⟨-, hrest⟩
        exact ⟨0, le_rfl, hrest⟩
    · rw [inLanguage_cons (mt readToken_anyText hstar)]
      refine iff_of_false ?_ fun h => hstar h.1
      rintro ⟨c', rest', heq, -, -⟩
      cases heq

end Step

/-! ## The matcher -/

/-- The last star and what was matched after it: tokens of one character each. -/
def Star.Covers (pattern text : List Char) (star : Star) : Prop :=
  ∀ after mark, star = some (after, mark) → ∃ front, (∀ t ∈ front, t ≠ Token.anyText) ∧
    tokens after = front ++ tokens pattern ∧
    front.length ≤ mark.length ∧ mark.drop front.length = text

/-- The last star absorbs more than it has. -/
def Star.Retries (star : Star) : Prop :=
  ∃ after mark k, star = some (after, mark) ∧ 0 < k ∧ k ≤ mark.length ∧
    InLanguage (tokens after) (mark.drop k)

namespace Star

variable {pattern text rest : List Char} {c ch : Char} {star : Star}

theorem covers_none : Star.Covers pattern text none := by
  rintro _ _ ⟨⟩

theorem covers_fresh (after mark : List Char) : Star.Covers after mark (some (after, mark)) := by
  rintro _ _ ⟨⟩
  exact ⟨[], nofun, rfl, Nat.zero_le _, rfl⟩

theorem Covers.next (h : Covers (c :: rest) (ch :: text) star) (hc : c ≠ '*') :
    Covers (readToken c rest).2 text star := by
  intro after mark hstar
  obtain ⟨front, hfront, htokens, hlen, hdrop⟩ := h after mark hstar
  have hlt : front.length < mark.length := by
    by_contra hle
    rw [List.drop_eq_nil_of_le (not_lt.mp hle)] at hdrop
    cases hdrop
  refine ⟨front ++ [(readToken c rest).1], ?_, ?_, ?_, ?_⟩
  · intro t ht
    rcases List.mem_append.mp ht with ht | ht
    · exact hfront t ht
    · rw [List.mem_singleton.mp ht]
      exact mt readToken_anyText hc
  · rw [htokens, tokens_cons, List.append_assoc]
    rfl
  · rw [List.length_append]
    exact hlt
  · rw [List.length_append, ← List.drop_drop, hdrop]
    rfl

/-- The text that is left is too short for the last star to absorb more. -/
theorem Covers.not_retries (h : Covers pattern [] star) : ¬ star.Retries := by
  rintro ⟨after, mark, k, hstar, hpos, hk, hlang⟩
  obtain ⟨front, hfront, htokens, hlen, hdrop⟩ := h after mark hstar
  rw [htokens] at hlang
  have hshort := (inLanguage_append hfront hlang).1
  have hwhole : mark.length ≤ front.length := List.drop_eq_nil_iff.mp hdrop
  rw [List.length_drop] at hshort
  omega

/-- What the last star could absorb, a star that follows can absorb instead. -/
theorem Covers.retries (h : Covers ('*' :: rest) text star) (hretries : star.Retries) :
    InLanguage (tokens ('*' :: rest)) text := by
  obtain ⟨after, mark, k, hstar, hpos, hk, hlang⟩ := hretries
  obtain ⟨front, hfront, htokens, hlen, hdrop⟩ := h after mark hstar
  have hread : readToken '*' rest = (.anyText, rest) := rfl
  rw [htokens] at hlang
  obtain ⟨hshort, hback⟩ := inLanguage_append hfront hlang
  rw [tokens_cons, hread, inLanguage_anyText] at hback ⊢
  obtain ⟨j, hj, hrest⟩ := hback
  rw [List.drop_drop, List.drop_drop] at hrest
  rw [List.length_drop, List.length_drop] at hj
  rw [List.length_drop] at hshort
  refine ⟨k + j, ?_, ?_⟩
  · rw [← hdrop, List.length_drop]
    omega
  · rw [← hdrop, List.drop_drop]
    have hsum : front.length + (k + j) = k + (front.length + j) := by omega
    rw [hsum]
    exact hrest

theorem retries_cons (after mark : List Char) (head : Char) :
    Star.Retries (some (after, head :: mark)) ↔
      InLanguage (tokens after) mark ∨ Star.Retries (some (after, mark)) := by
  constructor
  · rintro ⟨_, _, k, ⟨⟩, hpos, hk, hlang⟩
    obtain ⟨k, rfl⟩ := Nat.exists_eq_add_of_le' hpos
    rcases Nat.eq_zero_or_pos k with rfl | hpos
    · exact .inl hlang
    · exact .inr ⟨after, mark, k, rfl, hpos, Nat.le_of_succ_le_succ hk, hlang⟩
  · rintro (hlang | ⟨_, _, k, ⟨⟩, hpos, hk, hlang⟩)
    · exact ⟨after, head :: mark, 1, rfl, Nat.one_pos, by simp, hlang⟩
    · exact ⟨after, head :: mark, k + 1, rfl, k.succ_pos, Nat.succ_le_succ hk, hlang⟩

end Star

open Docsql.PubSub.Star

theorem matchFrom_iff (pattern text : List Char) (star : Star) (h : star.Covers pattern text) :
    matchFrom pattern text star = true ↔ InLanguage (tokens pattern) text ∨ star.Retries := by
  fun_induction matchFrom pattern text star with
  | case1 pattern star =>
    rw [inLanguage_nil]
    exact (or_iff_left h.not_retries).symm
  | case2 pattern star c rest next left star' htoken ih =>
    cases pattern with
    | nil => cases htoken
    | cons d pattern =>
      by_cases hstar : d = '*'
      · subst hstar
        cases htoken
        have hread : readToken '*' next = (.anyText, next) := rfl
        rw [ih (covers_fresh _ _)]
        constructor
        · rintro (hlang | ⟨_, _, k, ⟨⟩, -, hk, hlang⟩)
          · rw [tokens_cons, hread, inLanguage_anyText]
            exact .inl ⟨0, Nat.zero_le _, hlang⟩
          · rw [tokens_cons, hread, inLanguage_anyText]
            exact .inl ⟨k, hk, hlang⟩
        · intro hor
          have hlang := hor.elim id h.retries
          rw [tokens_cons, hread, inLanguage_anyText] at hlang
          obtain ⟨k, hk, hlang⟩ := hlang
          rcases Nat.eq_zero_or_pos k with rfl | hpos
          · exact .inl hlang
          · exact .inr ⟨_, _, k, rfl, hpos, hk, hlang⟩
      · rcases matchToken_cases hstar with ⟨hnone, -⟩ | ⟨hsome, htakes⟩
        · rw [hnone] at htoken
          cases htoken
        · rw [hsome] at htoken
          cases htoken
          rw [ih (h.next hstar), tokens_cons, inLanguage_cons (mt readToken_anyText hstar)]
          refine or_congr_left ?_
          constructor
          · exact fun hlang => ⟨c, rest, rfl, htakes, hlang⟩
          · rintro ⟨_, _, ⟨⟩, -, hlang⟩
            exact hlang
  | case3 pattern c rest htoken =>
    refine iff_of_false nofun ?_
    rintro (hlang | ⟨_, _, _, ⟨⟩, -⟩)
    exact not_inLanguage_of_none htoken hlang
  | case4 pattern c rest after head mark htoken ih =>
    rw [ih (covers_fresh _ _), retries_cons]
    exact (or_iff_right (not_inLanguage_of_none htoken)).symm
  | case5 pattern c rest after htoken =>
    refine iff_of_false nofun ?_
    rintro (hlang | ⟨_, _, k, ⟨⟩, hpos, hk, -⟩)
    · exact not_inLanguage_of_none htoken hlang
    · exact absurd hpos (not_lt.mpr hk)

/-- The matcher decides the language of its pattern. -/
theorem patternMatches_iff (pattern s : String) :
    patternMatches pattern s = true ↔ InLanguage (tokens pattern.toList) s.toList := by
  rw [patternMatches, matchFrom_iff _ _ _ covers_none]
  refine or_iff_left ?_
  rintro ⟨_, _, _, ⟨⟩, -⟩

end Docsql.PubSub
