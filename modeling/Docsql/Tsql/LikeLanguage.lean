import Docsql.Tsql.Like

/-!
# LIKE against its documentation

The matcher decides the documented language of a pattern, unless the pattern has a bracket that
nothing closes and a reversed range behind it: the source then drops the rest of the pattern and
matches nothing, where the bracket should be a literal.
-/

namespace Docsql.Tsql

open Wildcard

/-! ## Classes -/

@[simp] theorem ClassScan.closed_push (r : ClassScan) (lo hi : Char) :
    (r.push lo hi).closed = r.closed := rfl

@[simp] theorem ClassScan.rest_push (r : ClassScan) (lo hi : Char) :
    (r.push lo hi).rest = r.rest := rfl

/-- What is not closed runs to the end of the pattern. -/
theorem scanClass_open {pattern : List Char} {first : Bool}
    (h : (scanClass pattern first).closed = false) : (scanClass pattern first).rest = [] := by
  fun_induction scanClass pattern first with
  | case1 => rfl
  | case2 => cases h
  | case3 c first _ last rest _ ih => exact ih h
  | case4 c first _ last rest _ ih => exact ih h
  | case5 c first rest _ _ ih => exact ih h

theorem scanClass_closed_mem {pattern : List Char} {first : Bool}
    (h : (scanClass pattern first).closed = true) : ']' ∈ pattern := by
  fun_induction scanClass pattern first with
  | case1 => cases h
  | case2 c first rest hc =>
    rw [hc.1]
    exact List.mem_cons_self
  | case3 c first _ last rest _ ih =>
    have hmem := ih h
    simp only [List.mem_cons]
    exact .inr (.inr (.inr hmem))
  | case4 c first _ last rest _ ih => exact List.mem_cons_of_mem c (ih h)
  | case5 c first rest _ _ ih => exact List.mem_cons_of_mem c (ih h)

/-- An open class has no bracket behind its first member. -/
theorem scanClass_open_tail {pattern : List Char} {first : Bool}
    (h : (scanClass pattern first).closed = false) :
    ']' ∉ pattern.tail ∧ (first = false → ']' ∉ pattern) := by
  fun_induction scanClass pattern first with
  | case1 => exact ⟨List.not_mem_nil, fun _ => List.not_mem_nil⟩
  | case2 => cases h
  | case3 c first hc last rest hlast ih =>
    obtain ⟨-, hrest⟩ := ih h
    have htail : ']' ∉ '-' :: last :: rest := by
      simp only [List.mem_cons, not_or]
      exact ⟨by decide, Ne.symm hlast, hrest rfl⟩
    refine ⟨htail, fun hfirst => ?_⟩
    rw [List.mem_cons, not_or]
    exact ⟨fun heq => hc ⟨heq.symm, hfirst⟩, htail⟩
  | case4 c first hc last rest hlast ih =>
    obtain ⟨-, hrest⟩ := ih h
    refine ⟨hrest rfl, fun hfirst => ?_⟩
    rw [List.mem_cons, not_or]
    exact ⟨fun heq => hc ⟨heq.symm, hfirst⟩, hrest rfl⟩
  | case5 c first hc rest _ ih =>
    obtain ⟨-, hrest⟩ := ih h
    refine ⟨hrest rfl, fun hfirst => ?_⟩
    rw [List.mem_cons, not_or]
    exact ⟨fun heq => hc ⟨heq.symm, hfirst⟩, hrest rfl⟩

theorem scanClass_ranges {pattern : List Char} (h : (scanClass pattern true).closed = true) :
    (scanClass pattern true).ranges ≠ [] := by
  cases pattern with
  | nil =>
    rw [scanClass] at h
    cases h
  | cons c rest =>
    unfold scanClass
    rw [if_neg fun hc => Bool.noConfusion hc.2]
    split
    · split_ifs
      · exact List.cons_ne_nil _ _
      · exact List.cons_ne_nil _ _
    · exact List.cons_ne_nil _ _

/-- A caret in front apart, the class of a pattern is the scan of its members. -/
theorem readClass_cases (pattern : List Char) :
    (∃ members, pattern = '^' :: members ∧ readClass pattern = (true, scanClass members true)) ∨
      readClass pattern = (false, scanClass pattern true) := by
  unfold readClass
  split
  · exact .inl ⟨_, rfl, rfl⟩
  · exact .inr rfl

theorem readClass_open {pattern : List Char} (h : (readClass pattern).2.closed = false) :
    (readClass pattern).2.rest = [] := by
  rcases readClass_cases pattern with ⟨members, rfl, hread⟩ | hread
  · rw [hread] at h ⊢
    exact scanClass_open h
  · rw [hread] at h ⊢
    exact scanClass_open h

theorem readClass_closed {pattern : List Char} (h : (readClass pattern).2.closed = true) :
    ']' ∈ pattern ∧ (readClass pattern).2.ranges ≠ [] := by
  rcases readClass_cases pattern with ⟨members, rfl, hread⟩ | hread
  · rw [hread] at h ⊢
    exact ⟨List.mem_cons_of_mem _ (scanClass_closed_mem h), scanClass_ranges h⟩
  · rw [hread] at h ⊢
    exact ⟨scanClass_closed_mem h, scanClass_ranges h⟩

/-- No bracket of the pattern can be closed. -/
def NoneCloses (pattern : List Char) : Prop := ∀ rest, '[' :: rest <:+ pattern → ']' ∉ rest

theorem NoneCloses.suffix {pattern p : List Char} (h : NoneCloses pattern) (hp : p <:+ pattern) :
    NoneCloses p := fun rest hrest => h rest (hrest.trans hp)

theorem noneCloses_of_tail {c : Char} {tail : List Char} (h : ']' ∉ tail) :
    NoneCloses (c :: tail) := by
  intro rest hrest hmem
  rcases List.suffix_cons_iff.mp hrest with heq | hsuffix
  · rw [(List.cons.inj heq).2] at hmem
    exact h hmem
  · exact h (hsuffix.subset (List.mem_cons_of_mem _ hmem))

theorem noneCloses_of_open {pattern : List Char} (h : (readClass pattern).2.closed = false) :
    NoneCloses pattern := by
  rcases readClass_cases pattern with ⟨members, rfl, hread⟩ | hread
  · rw [hread] at h
    have htail := (scanClass_open_tail h).1
    intro rest hrest hmem
    rcases List.suffix_cons_iff.mp hrest with heq | hsuffix
    · exact absurd (List.cons.inj heq).1 (by decide)
    · cases members with
      | nil => exact absurd (List.suffix_nil.mp hsuffix) (List.cons_ne_nil _ _)
      | cons c tail => exact noneCloses_of_tail htail rest hsuffix hmem
  · rw [hread] at h
    have htail := (scanClass_open_tail h).1
    cases pattern with
    | nil => exact fun rest hrest => absurd (List.suffix_nil.mp hrest) (List.cons_ne_nil _ _)
    | cons c tail => exact noneCloses_of_tail htail

/-! ## The two readings -/

variable {esc : Option Char} {c : Char} {rest pat : List Char}

theorem documentedToken_eq (h : ¬ Swallows esc c rest) :
    documentedToken esc c rest = readToken esc c rest := by
  unfold documentedToken readToken
  by_cases hesc : some c = esc
  · rw [if_pos hesc, if_pos hesc]
  rw [if_neg hesc, if_neg hesc]
  by_cases hrun : c = '%'
  · rw [if_pos hrun, if_pos hrun]
  rw [if_neg hrun, if_neg hrun]
  by_cases hone : c = '_'
  · rw [if_pos hone, if_pos hone]
  rw [if_neg hone, if_neg hone]
  by_cases hbracket : c = '['
  · subst hbracket
    cases hclosed : (readClass rest).2.closed with
    | true =>
      obtain ⟨hmem, hranges⟩ := readClass_closed hclosed
      have hrest : rest ≠ [] := List.ne_nil_of_mem hmem
      simp only [hrest, hclosed, hranges, ne_eq, not_false_eq_true, and_self, if_true]
    | false =>
      have hmalformed : ¬ (readClass rest).2.malformed = true := fun hm =>
        h ⟨hesc, rfl, hclosed, hm⟩
      rw [if_neg fun hc => Bool.noConfusion hc.2]
      split_ifs
      · dsimp only
        rw [if_neg hmalformed, hclosed, if_neg fun hc => Bool.noConfusion hc.1]
      · rfl
  · rw [if_neg fun hc => hbracket hc.1, if_neg fun hc => hbracket hc.1]

theorem swallows_tokens (h : Swallows esc c rest) :
    readToken esc c rest = (.never, []) ∧ documentedToken esc c rest = (.literal '[', rest) := by
  obtain ⟨hesc, rfl, hclosed, hmalformed⟩ := h
  have hrest : rest ≠ [] := by
    rintro rfl
    rw [readClass, scanClass] at hmalformed
    · cases hmalformed
    · intro _ h
      cases h
  constructor
  · unfold readToken
    rw [if_neg hesc, if_neg (by decide), if_neg (by decide), if_pos ⟨rfl, hrest⟩]
    dsimp only
    rw [if_pos hmalformed, readClass_open hclosed]
  · unfold documentedToken
    rw [if_neg hesc, if_neg (by decide), if_neg (by decide), hclosed,
      if_neg fun hc => Bool.noConfusion hc.2]

theorem documentedToken_suffix (esc : Option Char) (c : Char) (rest : List Char)
    (h : NoneCloses (c :: rest)) :
    (documentedToken esc c rest).2 <:+ rest ∧ ¬ (documentedToken esc c rest).1.Unmatchable := by
  have hliteral (l : Char) : ¬ (LikeTok.literal l).Unmatchable := fun hno =>
    Bool.false_ne_true ((hno.2 l).symm.trans (beq_self_eq_true l))
  unfold documentedToken
  split_ifs with hesc hrun hone hclass hmalformed
  · cases rest with
    | nil => exact ⟨List.suffix_rfl, hliteral c⟩
    | cons e rest' => exact ⟨List.suffix_cons e rest', hliteral e⟩
  · exact ⟨List.suffix_rfl, fun hno => Bool.noConfusion hno.1⟩
  · exact ⟨List.suffix_rfl, fun hno => Bool.noConfusion (hno.2 c)⟩
  · obtain ⟨rfl, hclosed⟩ := hclass
    exact absurd (readClass_closed hclosed).1 (h rest List.suffix_rfl)
  · obtain ⟨rfl, hclosed⟩ := hclass
    exact absurd (readClass_closed hclosed).1 (h rest List.suffix_rfl)
  · exact ⟨List.suffix_rfl, hliteral c⟩

theorem documentedTokens_matchable (h : NoneCloses pat) :
    ∀ t ∈ documentedTokens pat esc, ¬ t.Unmatchable := by
  induction hn : pat.length using Nat.strong_induction_on generalizing pat with
  | _ n ih =>
    cases pat with
    | nil =>
      rw [documentedTokens_nil]
      exact fun t ht => absurd ht List.not_mem_nil
    | cons c rest =>
      obtain ⟨hsuffix, htoken⟩ := documentedToken_suffix esc c rest h
      have hlen := documentedToken_rest_le esc c rest
      rw [List.length_cons] at hn
      intro t ht
      rw [documentedTokens_cons] at ht
      rcases List.mem_cons.mp ht with rfl | ht
      · exact htoken
      · have hclose := h.suffix (hsuffix.trans (List.suffix_cons c rest))
        exact ih _ (by omega) hclose rfl t ht

/-- Without such a bracket both read the same tokens. -/
theorem tokenizeLike_eq (h : beforeSwallow pat esc = none) :
    tokenizeLike pat esc = documentedTokens pat esc := by
  induction hn : pat.length using Nat.strong_induction_on generalizing pat with
  | _ n ih =>
    cases pat with
    | nil => rw [tokenizeLike_nil, documentedTokens_nil]
    | cons c rest =>
      have hlen := documentedToken_rest_le esc c rest
      rw [List.length_cons] at hn
      rw [beforeSwallow] at h
      split_ifs at h with hswallows
      have hrest := ih _ (by omega) (Option.map_eq_none_iff.mp h) rfl
      rw [tokenizeLike_cons, documentedTokens_cons, ← documentedToken_eq hswallows, hrest]

/-- The tokens up to the first such bracket are the same; there the source has one that matches
nothing, and the documentation some that can be matched. -/
theorem tokens_of_beforeSwallow {front : List LikeTok} (h : beforeSwallow pat esc = some front) :
    tokenizeLike pat esc = front ++ [.never] ∧
      ∃ back, documentedTokens pat esc = front ++ back ∧ ∀ t ∈ back, ¬ t.Unmatchable := by
  induction hn : pat.length using Nat.strong_induction_on generalizing pat front with
  | _ n ih =>
    cases pat with
    | nil =>
      rw [beforeSwallow] at h
      cases h
    | cons c rest =>
      have hlen := documentedToken_rest_le esc c rest
      rw [List.length_cons] at hn
      rw [beforeSwallow] at h
      split_ifs at h with hswallows
      · obtain rfl := Option.some.inj h
        obtain ⟨hread, hdoc⟩ := swallows_tokens hswallows
        obtain ⟨-, rfl, hclosed, -⟩ := hswallows
        refine ⟨?_, documentedTokens ('[' :: rest) esc, rfl, ?_⟩
        · rw [tokenizeLike_cons, hread, tokenizeLike_nil]
          rfl
        · rw [documentedTokens_cons, hdoc]
          intro t ht
          rcases List.mem_cons.mp ht with rfl | ht
          · exact fun hno => Bool.false_ne_true ((hno.2 '[').symm.trans rfl)
          · exact documentedTokens_matchable (noneCloses_of_open hclosed) t ht
      · obtain ⟨front', hfront', rfl⟩ := Option.map_eq_some_iff.mp h
        obtain ⟨hsource, back, hdoc, hback⟩ := ih _ (by omega) hfront' rfl
        refine ⟨?_, back, ?_, hback⟩
        · rw [tokenizeLike_cons, ← documentedToken_eq hswallows, hsource]
          rfl
        · rw [documentedTokens_cons, hdoc]
          rfl

/-! ## Empty languages -/

/-- A pattern whose tokens can all be matched has a text. -/
theorem exists_inLanguage {toks : List LikeTok} (h : ∀ t ∈ toks, ¬ t.Unmatchable) :
    ∃ s, InLanguage likeReader toks s := by
  induction toks with
  | nil => exact ⟨[], .nil⟩
  | cons t toks ih =>
    obtain ⟨s, hs⟩ := ih fun t ht => h t (List.mem_cons_of_mem _ ht)
    cases hrun : t.isRun with
    | true => exact ⟨[] ++ s, .star [] hrun hs⟩
    | false =>
      have hex : ∃ c, t.hit c = true := by
        by_contra hno
        push Not at hno
        exact h t List.mem_cons_self ⟨hrun, fun c => Bool.eq_false_iff.mpr (hno c)⟩
      obtain ⟨c, hc⟩ := hex
      exact ⟨c :: s, .one hrun hc hs⟩

theorem not_inLanguage_of_unmatchable {toks : List LikeTok} {t : LikeTok} (ht : t ∈ toks)
    (h : t.Unmatchable) (s : List Char) : ¬ InLanguage likeReader toks s := by
  intro hlang
  induction hlang with
  | nil => exact absurd ht List.not_mem_nil
  | star front hrun _ ih =>
    rcases List.mem_cons.mp ht with rfl | ht
    · exact Bool.false_ne_true (h.1.symm.trans hrun)
    · exact ih ht
  | @one _ _ c _ _ hc _ ih =>
    rcases List.mem_cons.mp ht with rfl | ht
    · exact Bool.false_ne_true ((h.2 c).symm.trans hc)
    · exact ih ht

theorem never_unmatchable : LikeTok.never.Unmatchable := ⟨rfl, fun _ => rfl⟩

/-! ## Literal prefixes -/

theorem literalPrefix_eq_some {toks : List LikeTok} {pre p : List Char}
    (h : literalPrefix pre toks = some p) :
    ∃ more, p = pre ++ more ∧ toks = more.map .literal ++ [.anyRun] := by
  induction toks generalizing pre with
  | nil => cases h
  | cons t toks ih =>
    cases t with
    | literal c =>
      obtain ⟨more, rfl, rfl⟩ := ih h
      exact ⟨c :: more, by rw [List.append_assoc]; rfl, rfl⟩
    | anyRun =>
      change (if toks = [] ∧ pre ≠ [] then some pre else none) = some p at h
      split_ifs at h with hlast
      obtain rfl := Option.some.inj h
      obtain ⟨rfl, -⟩ := hlast
      exact ⟨[], (List.append_nil pre).symm, rfl⟩
    | anyOne => cases h
    | oneOf => cases h
    | never => cases h

theorem inLanguage_literals (p s : List Char) :
    InLanguage likeReader (p.map .literal ++ [.anyRun]) s ↔ p <+: s := by
  induction p generalizing s with
  | nil =>
    refine iff_of_true ?_ List.nil_prefix
    have hrest := InLanguage.star (R := likeReader) (t := .anyRun) s rfl .nil
    rwa [List.append_nil] at hrest
  | cons c p ih =>
    cases s with
    | nil =>
      have hne : ¬ (c :: p) <+: [] := fun h => List.cons_ne_nil c p (List.prefix_nil.mp h)
      refine iff_of_false (fun h => ?_) hne
      have hall := inLanguage_nil_iff.mp h
      rw [List.map_cons, List.cons_append, List.all_cons] at hall
      cases hall
    | cons d s =>
      rw [List.map_cons, List.cons_append, inLanguage_one_iff rfl, ih, List.cons_prefix_cons]
      change (d == c) = true ∧ _ ↔ _
      rw [beq_iff_eq, eq_comm]

/-- A literal prefix is all that the pattern asks for. -/
theorem likeMatch_of_literalPrefix {p : List Char} (h : likeLiteralPrefix pat esc = some p)
    (s : List Char) : likeMatch s pat esc = true ↔ p <+: s := by
  obtain ⟨more, rfl, htoks⟩ := literalPrefix_eq_some h
  unfold likeMatch
  rw [matchFrom_iff, htoks, inLanguage_literals]

/-! ## The matcher -/

/-- The matcher decides the documented language, and a literal prefix decides the matcher. -/
def DecidesLike (pat : List Char) (esc : Option Char) : Prop :=
  (∀ s, likeMatch s pat esc = true ↔ LikeLanguage pat esc s) ∧
    ∀ p, likeLiteralPrefix pat esc = some p →
      ∀ s, likeMatch s pat esc = true ↔ p <+: s

/-- A bracket that nothing closes may have a reversed range behind it only where the pattern
matches nothing anyway. -/
theorem decidesLike_iff (pat : List Char) (esc : Option Char) :
    DecidesLike pat esc ↔
      ∀ front, beforeSwallow pat esc = some front → ∃ t ∈ front, t.Unmatchable := by
  have hprefix : ∀ p, likeLiteralPrefix pat esc = some p →
      ∀ s, likeMatch s pat esc = true ↔ p <+: s := fun p hp => likeMatch_of_literalPrefix hp
  unfold DecidesLike
  rw [and_iff_left hprefix]
  cases hbefore : beforeSwallow pat esc with
  | none =>
    refine iff_of_true (fun s => ?_) nofun
    unfold likeMatch LikeLanguage
    rw [matchFrom_iff, tokenizeLike_eq hbefore]
  | some front =>
    obtain ⟨hsource, back, hdoc, hback⟩ := tokens_of_beforeSwallow hbefore
    have hnever (s : List Char) : ¬ likeMatch s pat esc = true := by
      unfold likeMatch
      rw [matchFrom_iff, hsource]
      have hmem : LikeTok.never ∈ front ++ [.never] :=
        List.mem_append_right _ List.mem_cons_self
      exact not_inLanguage_of_unmatchable hmem never_unmatchable s
    constructor
    · intro h front' hfront
      obtain rfl := Option.some.inj hfront
      by_contra hall
      push Not at hall
      have htoks : ∀ t ∈ front ++ back, ¬ t.Unmatchable := fun t ht =>
        (List.mem_append.mp ht).elim (hall t) (hback t)
      obtain ⟨s, hs⟩ := exists_inLanguage htoks
      apply hnever s
      rw [h s, LikeLanguage, hdoc]
      exact hs
    · intro h s
      obtain ⟨t, ht, hno⟩ := h front rfl
      refine iff_of_false (hnever s) ?_
      rw [LikeLanguage, hdoc]
      exact not_inLanguage_of_unmatchable (List.mem_append_left back ht) hno s

/-- The bracket of `[z-a` is never closed, so the text of the pattern should match it. -/
theorem open_bracket_matches_nothing :
    likeMatch "[z-a".toList "[z-a".toList none = false ∧
      LikeLanguage "[z-a".toList none "[z-a".toList ∧ ¬ DecidesLike "[z-a".toList none := by
  have htext : "[z-a".toList = ['[', 'z', '-', 'a'] := rfl
  have hswallows : Swallows none '[' ['z', '-', 'a'] := by
    refine ⟨nofun, rfl, ?_, ?_⟩ <;> simp [readClass, scanClass, ClassScan.push]
  have hdoc : documentedTokens ['[', 'z', '-', 'a'] none =
      ['[', 'z', '-', 'a'].map .literal := by
    simp [documentedTokens_cons, documentedToken, readClass, scanClass, ClassScan.push]
  have hbefore : beforeSwallow ['[', 'z', '-', 'a'] none = some [] := by
    rw [beforeSwallow, if_pos hswallows]
  have hsource := (tokens_of_beforeSwallow hbefore).1
  have hno : likeMatch ['[', 'z', '-', 'a'] ['[', 'z', '-', 'a'] none = false := by
    rw [likeMatch, hsource, Bool.eq_false_iff, Ne, matchFrom_iff]
    exact not_inLanguage_of_unmatchable List.mem_cons_self never_unmatchable _
  have hyes : LikeLanguage ['[', 'z', '-', 'a'] none ['[', 'z', '-', 'a'] := by
    rw [LikeLanguage, hdoc]
    exact .one rfl rfl (.one rfl rfl (.one rfl rfl (.one rfl rfl .nil)))
  rw [htext]
  exact ⟨hno, hyes, fun h => Bool.false_ne_true (hno.symm.trans ((h.1 _).mpr hyes))⟩

end Docsql.Tsql
