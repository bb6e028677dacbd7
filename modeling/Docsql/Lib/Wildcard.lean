import Mathlib.Tactic

/-!
# Matching with one remembered star

Patterns of stars, which take any run of elements, and of tokens that take one element each.
The matcher goes back to the last star only.  No text is lost by that: between two stars every
token takes one element, so what an earlier star could absorb the later one can absorb instead.
-/

namespace Wildcard

variable {τ α : Type*}

/-- How the tokens of a pattern are read. -/
structure Reader (τ α : Type*) where
  star : τ → Bool
  takes : τ → α → Bool

/-- The last star: the tokens behind it, and the text from where it stopped absorbing. -/
abbrev Mark (τ α : Type*) := Option (List τ × List α)

variable (R : Reader τ α)

/-! ## The language of a pattern -/

/-- Every split of the text at every star is tried. -/
inductive InLanguage : List τ → List α → Prop
  | nil : InLanguage [] []
  | star {t : τ} {ts : List τ} (front : List α) {back : List α} (ht : R.star t = true)
      (hback : InLanguage ts back) : InLanguage (t :: ts) (front ++ back)
  | one {t : τ} {ts : List τ} {c : α} {rest : List α} (ht : R.star t = false)
      (hc : R.takes t c = true) (hrest : InLanguage ts rest) : InLanguage (t :: ts) (c :: rest)

/-! ## The matcher -/

/-- One token against one element. -/
def step (ts : List τ) (c : α) (rest : List α) (mark : Mark τ α) :
    Option (List τ × List α × Mark τ α) :=
  match ts with
  | [] => none
  | t :: ts =>
    if R.star t then some (ts, c :: rest, some (ts, c :: rest))
    else if R.takes t c then some (ts, rest, mark)
    else none

/-- How much of the text the last star can still absorb. -/
def left (mark : Mark τ α) : ℕ := mark.elim 0 fun m => m.2.length

theorem step_decreases {ts next : List τ} {c : α} {rest later : List α} {mark mark' : Mark τ α}
    (h : step R ts c rest mark = some (next, later, mark')) :
    max later.length (left mark') ≤ max (c :: rest).length (left mark) ∧
      next.length < ts.length := by
  unfold step at h
  split at h
  · cases h
  · split_ifs at h
    · cases h
      exact ⟨(max_self _).trans_le (le_max_left _ _), Nat.lt_succ_self _⟩
    · cases h
      exact ⟨max_le_max (Nat.le_succ _) le_rfl, Nat.lt_succ_self _⟩

def matchFrom (ts : List τ) (text : List α) (mark : Mark τ α) : Bool :=
  match text with
  | [] => ts.all R.star
  | c :: rest =>
    match _h : step R ts c rest mark with
    | some (next, later, mark') => matchFrom next later mark'
    | none =>
      match mark with
      | none => false
      -- The last star absorbs one more element.
      | some (after, _ :: held) => matchFrom after held (some (after, held))
      | some (_, []) => false
termination_by (max text.length (left mark), ts.length)
decreasing_by
  · obtain ⟨hleft, hnext⟩ := step_decreases R _h
    rw [Prod.lex_def]
    dsimp only
    omega
  · rw [Prod.lex_def]
    dsimp only [left, Option.elim, List.length_cons]
    omega

/-! ## Reading the language -/

variable {R}

variable {t : τ} {ts front : List τ} {c : α} {text rest : List α} {mark : Mark τ α}

theorem inLanguage_star_iff (ht : R.star t = true) :
    InLanguage R (t :: ts) text ↔ ∃ k ≤ text.length, InLanguage R ts (text.drop k) := by
  constructor
  · intro h
    cases h with
    | star front _ hback =>
      refine ⟨front.length, ?_, ?_⟩
      · rw [List.length_append]
        exact Nat.le_add_right _ _
      · rwa [List.drop_left]
    | one hno => rw [ht] at hno; cases hno
  · rintro ⟨k, -, hback⟩
    have h := InLanguage.star (text.take k) ht hback
    rwa [List.take_append_drop] at h

theorem inLanguage_one_iff (ht : R.star t = false) :
    InLanguage R (t :: ts) (c :: rest) ↔ R.takes t c = true ∧ InLanguage R ts rest := by
  constructor
  · intro h
    generalize htext : c :: rest = text at h
    cases h with
    | star _ hyes => rw [ht] at hyes; cases hyes
    | one _ hc hrest =>
      obtain ⟨rfl, rfl⟩ := List.cons.inj htext
      exact ⟨hc, hrest⟩
  · rintro ⟨hc, hrest⟩
    exact .one ht hc hrest

theorem inLanguage_nil_iff : InLanguage R ts [] ↔ ts.all R.star = true := by
  induction ts with
  | nil => exact iff_of_true .nil rfl
  | cons t ts ih =>
    rw [List.all_cons, Bool.and_eq_true]
    cases ht : R.star t with
    | true =>
      rw [inLanguage_star_iff ht, ← ih]
      constructor
      · rintro ⟨k, -, hrest⟩
        rw [List.drop_nil] at hrest
        exact ⟨rfl, hrest⟩
      · rintro ⟨-, hrest⟩
        exact ⟨0, le_rfl, hrest⟩
    | false =>
      refine iff_of_false (fun h => ?_) fun h => Bool.false_ne_true h.1
      generalize hnil : ([] : List α) = text at h
      cases h with
      | star _ hyes => rw [ht] at hyes; cases hyes
      | one => cases hnil

/-- Tokens of one element each take as many elements as they are. -/
theorem inLanguage_append (hfront : ∀ t ∈ front, R.star t = false)
    (h : InLanguage R (front ++ ts) text) :
    front.length ≤ text.length ∧ InLanguage R ts (text.drop front.length) := by
  induction front generalizing text with
  | nil => exact ⟨Nat.zero_le _, h⟩
  | cons t front ih =>
    have ht := hfront t List.mem_cons_self
    cases h with
    | star _ hyes => rw [ht] at hyes; cases hyes
    | one _ _ hrest =>
      obtain ⟨hlen, hback⟩ := ih (fun t ht => hfront t (List.mem_cons_of_mem _ ht)) hrest
      exact ⟨Nat.succ_le_succ hlen, hback⟩

/-! ## The last star -/

/-- What was matched behind the last star: tokens of one element each. -/
def Covers (R : Reader τ α) (ts : List τ) (text : List α) (mark : Mark τ α) : Prop :=
  ∀ after held, mark = some (after, held) → ∃ front, (∀ t ∈ front, R.star t = false) ∧
    after = front ++ ts ∧ front.length ≤ held.length ∧ held.drop front.length = text

/-- The last star absorbs more than it has. -/
def Retries (R : Reader τ α) (mark : Mark τ α) : Prop :=
  ∃ after held k, mark = some (after, held) ∧ 0 < k ∧ k ≤ held.length ∧
    InLanguage R after (held.drop k)

theorem covers_none : Covers R ts text none := by
  rintro _ _ ⟨⟩

theorem covers_fresh (ts : List τ) (text : List α) : Covers R ts text (some (ts, text)) := by
  rintro _ _ ⟨⟩
  exact ⟨[], nofun, rfl, Nat.zero_le _, rfl⟩

theorem not_retries_none : ¬ Retries R none := by
  rintro ⟨_, _, _, ⟨⟩, -⟩

theorem not_retries_nil (after : List τ) : ¬ Retries R (some (after, [])) := by
  rintro ⟨_, _, k, ⟨⟩, hpos, hk, -⟩
  exact absurd hk (not_le.mpr hpos)

theorem Covers.next (h : Covers R (t :: ts) (c :: text) mark) (ht : R.star t = false) :
    Covers R ts text mark := by
  intro after held hmark
  obtain ⟨front, hfront, hafter, hlen, hdrop⟩ := h after held hmark
  have hlt : front.length < held.length := by
    by_contra hle
    rw [List.drop_eq_nil_of_le (not_lt.mp hle)] at hdrop
    cases hdrop
  refine ⟨front ++ [t], ?_, ?_, ?_, ?_⟩
  · intro t' ht'
    rcases List.mem_append.mp ht' with hmem | hmem
    · exact hfront t' hmem
    · rw [List.mem_singleton.mp hmem]
      exact ht
  · rw [hafter, List.append_assoc]
    rfl
  · rw [List.length_append]
    exact hlt
  · rw [List.length_append, ← List.drop_drop, hdrop]
    rfl

/-- The text that is left is too short for the last star to absorb more. -/
theorem Covers.not_retries (h : Covers R ts [] mark) : ¬ Retries R mark := by
  rintro ⟨after, held, k, hmark, hpos, hk, hlang⟩
  obtain ⟨front, hfront, rfl, hlen, hdrop⟩ := h after held hmark
  have hshort := (inLanguage_append hfront hlang).1
  have hwhole : held.length ≤ front.length := List.drop_eq_nil_iff.mp hdrop
  rw [List.length_drop] at hshort
  omega

/-- What the last star could absorb, a star that follows can absorb instead. -/
theorem Covers.retries (h : Covers R (t :: ts) text mark) (ht : R.star t = true)
    (hretries : Retries R mark) : InLanguage R (t :: ts) text := by
  obtain ⟨after, held, k, hmark, hpos, hk, hlang⟩ := hretries
  obtain ⟨front, hfront, rfl, hlen, rfl⟩ := h after held hmark
  obtain ⟨hshort, hback⟩ := inLanguage_append hfront hlang
  rw [inLanguage_star_iff ht] at hback ⊢
  obtain ⟨j, hj, hrest⟩ := hback
  rw [List.drop_drop, List.drop_drop] at hrest
  rw [List.length_drop, List.length_drop] at hj
  rw [List.length_drop] at hshort
  refine ⟨k + j, ?_, ?_⟩
  · rw [List.length_drop]
    omega
  · rw [List.drop_drop, show front.length + (k + j) = k + (front.length + j) by omega]
    exact hrest

theorem retries_cons (after : List τ) (c : α) (held : List α) :
    Retries R (some (after, c :: held)) ↔
      InLanguage R after held ∨ Retries R (some (after, held)) := by
  constructor
  · rintro ⟨_, _, k, ⟨⟩, hpos, hk, hlang⟩
    obtain ⟨k, rfl⟩ := Nat.exists_eq_add_of_le' hpos
    rcases Nat.eq_zero_or_pos k with rfl | hpos
    · exact .inl hlang
    · exact .inr ⟨after, held, k, rfl, hpos, Nat.le_of_succ_le_succ hk, hlang⟩
  · rintro (hlang | ⟨_, _, k, ⟨⟩, hpos, hk, hlang⟩)
    · exact ⟨after, c :: held, 1, rfl, Nat.one_pos, Nat.succ_le_succ (Nat.zero_le _), hlang⟩
    · exact ⟨after, c :: held, k + 1, rfl, k.succ_pos, Nat.succ_le_succ hk, hlang⟩

/-- Where the matcher stops, the text is not in the language of the tokens that are left. -/
theorem not_inLanguage_of_none (h : step R ts c rest mark = none) :
    ¬ InLanguage R ts (c :: rest) := by
  cases ts with
  | nil =>
    intro hlang
    cases hlang
  | cons t ts =>
    unfold step at h
    dsimp only at h
    split_ifs at h with ht hc
    intro hlang
    rw [Bool.not_eq_true] at ht
    exact hc ((inLanguage_one_iff ht).mp hlang).1

theorem step_some {next : List τ} {later : List α} {mark' : Mark τ α}
    (h : step R ts c rest mark = some (next, later, mark')) :
    (∃ t, ts = t :: next ∧ R.star t = true ∧ later = c :: rest ∧
      mark' = some (next, c :: rest)) ∨
    ∃ t, ts = t :: next ∧ R.star t = false ∧ R.takes t c = true ∧ later = rest ∧ mark' = mark := by
  cases ts with
  | nil => cases h
  | cons t ts =>
    unfold step at h
    dsimp only at h
    split_ifs at h with ht hc
    · cases h
      exact .inl ⟨t, rfl, ht, rfl, rfl⟩
    · cases h
      exact .inr ⟨t, rfl, Bool.eq_false_iff.mpr ht, hc, rfl, rfl⟩

theorem matchFrom_iff_retries (ts : List τ) (text : List α) (mark : Mark τ α)
    (h : Covers R ts text mark) :
    matchFrom R ts text mark = true ↔ InLanguage R ts text ∨ Retries R mark := by
  fun_induction matchFrom R ts text mark with
  | case1 ts mark =>
    rw [← inLanguage_nil_iff]
    exact (or_iff_left h.not_retries).symm
  | case2 ts mark c rest next later mark' hstep ih =>
    rcases step_some hstep with ⟨t, rfl, ht, rfl, rfl⟩ | ⟨t, rfl, ht, hc, rfl, rfl⟩
    · -- a star: the one before it is given up
      rw [ih (covers_fresh _ _), retries_cons, inLanguage_star_iff ht]
      constructor
      · rintro (hlang | hlang | ⟨_, _, k, ⟨⟩, hpos, hk, hlang⟩)
        · exact .inl ⟨0, Nat.zero_le _, hlang⟩
        · exact .inl ⟨1, Nat.succ_le_succ (Nat.zero_le _), hlang⟩
        · exact .inl ⟨k + 1, Nat.succ_le_succ hk, hlang⟩
      · intro hor
        have hstar : ∃ k ≤ (c :: rest).length, InLanguage R next ((c :: rest).drop k) := by
          rcases hor with hlang | hretries
          · exact hlang
          · exact (inLanguage_star_iff ht).mp (h.retries ht hretries)
        obtain ⟨k, hk, hlang⟩ := hstar
        cases k with
        | zero => exact .inl hlang
        | succ k =>
          cases k with
          | zero => exact .inr (.inl hlang)
          | succ k =>
            exact .inr (.inr ⟨next, rest, k + 1, rfl, k.succ_pos, Nat.le_of_succ_le_succ hk, hlang⟩)
    · rw [ih (h.next ht), inLanguage_one_iff ht, and_iff_right hc]
  | case3 ts c rest hstep =>
    refine iff_of_false Bool.false_ne_true (not_or.mpr ⟨not_inLanguage_of_none hstep, ?_⟩)
    exact not_retries_none
  | case4 ts c rest after d held hstep ih =>
    rw [ih (covers_fresh _ _), retries_cons, or_iff_right (not_inLanguage_of_none hstep)]
  | case5 ts c rest after hstep =>
    refine iff_of_false Bool.false_ne_true (not_or.mpr ⟨not_inLanguage_of_none hstep, ?_⟩)
    exact not_retries_nil after

/-- Going back to the last star only is full backtracking. -/
theorem matchFrom_iff (ts : List τ) (text : List α) :
    matchFrom R ts text none = true ↔ InLanguage R ts text := by
  rw [matchFrom_iff_retries ts text none covers_none, or_iff_left not_retries_none]

end Wildcard
