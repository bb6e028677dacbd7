import Mathlib.Data.List.Perm.Basic

/-!
# Elements that replace others

A newcomer drives out the elements in its way.  Elements that come in one by one
leave the last ones of the sequence and whatever no newcomer drove out; a batch
that is thinned beforehand leaves the same if it thins just the elements that a
later one drives out and loses no blow by it.
-/

namespace Docsql.Lib.Supersede

variable {α : Type*} {hits : α → α → Prop} [DecidableRel hits]

/-- The elements that stay when `r` comes. -/
def supersede (hits : α → α → Prop) [DecidableRel hits] (xs : List α) (r : α) : List α :=
  r :: xs.filter fun s => ¬hits r s

/-- The elements in nobody's way. -/
def untouched (hits : α → α → Prop) [DecidableRel hits] (rs xs : List α) : List α :=
  xs.filter fun s => ∀ r ∈ rs, ¬hits r s

/-- The elements that are not dropped for the sake of those behind them. -/
def thin (drops : α → List α → Prop) [∀ r rest, Decidable (drops r rest)] : List α → List α
  | [] => []
  | r :: rest => if drops r rest then thin drops rest else r :: thin drops rest

/-- Some later element drives this one out. -/
def DrivenOut (hits : α → α → Prop) (r : α) (rest : List α) : Prop := ∃ e ∈ rest, hits e r

instance (r : α) (rest : List α) : Decidable (DrivenOut hits r rest) :=
  inferInstanceAs (Decidable (∃ e ∈ rest, hits e r))

theorem untouched_append (rs xs ys : List α) :
    untouched hits rs (xs ++ ys) = untouched hits rs xs ++ untouched hits rs ys :=
  List.filter_append ..

theorem untouched_cons (r : α) (rs xs : List α) :
    untouched hits rs (xs.filter fun s => ¬hits r s) = untouched hits (r :: rs) xs := by
  unfold untouched
  rw [List.filter_filter]
  refine List.filter_congr fun s _ => ?_
  simp [Bool.and_comm]

theorem mem_untouched {rs xs : List α} {s : α} :
    s ∈ untouched hits rs xs ↔ s ∈ xs ∧ ∀ r ∈ rs, ¬hits r s := by
  rw [untouched, List.mem_filter, decide_eq_true_iff]

/-- What is left when the elements come one by one. -/
theorem foldl_supersede (rs xs : List α) :
    (rs.foldl (supersede hits) xs).Perm (thin (DrivenOut hits) rs ++ untouched hits rs xs) := by
  induction rs generalizing xs with
  | nil => simp [thin, untouched]
  | cons r rs ih =>
    have hsplit : untouched hits rs (supersede hits xs r) =
        untouched hits rs [r] ++ untouched hits (r :: rs) xs := by
      rw [supersede, ← List.singleton_append, untouched_append, untouched_cons]
    refine (ih _).trans ?_
    rw [hsplit]
    by_cases hr : DrivenOut hits r rs
    · obtain ⟨e, he, hhit⟩ := hr
      have hgone : untouched hits rs [r] = [] := by
        refine List.filter_eq_nil_iff.mpr fun s hs => ?_
        obtain rfl := List.mem_singleton.mp hs
        simpa using ⟨e, he, hhit⟩
      rw [hgone, List.nil_append, thin, if_pos ⟨e, he, hhit⟩]
    · have hstays : untouched hits rs [r] = [r] := by
        refine List.filter_eq_self.mpr fun s hs => ?_
        obtain rfl := List.mem_singleton.mp hs
        simpa [DrivenOut] using hr
      rw [hstays, thin, if_neg hr]
      exact List.perm_middle

theorem foldl_supersede_perm {xs ys : List α} (h : xs.Perm ys) (rs : List α) :
    (rs.foldl (supersede hits) xs).Perm (rs.foldl (supersede hits) ys) := by
  induction rs generalizing xs ys with
  | nil => exact h
  | cons r rs ih => exact ih ((h.filter _).cons r)

/-! ## Thinning beforehand -/

section Thin

variable {p q : α → List α → Prop} [∀ r rest, Decidable (p r rest)]
variable [∀ r rest, Decidable (q r rest)]

theorem mem_thin {rs : List α} {e : α} (h : e ∈ thin p rs) :
    ∃ front back, rs = front ++ e :: back ∧ ¬p e back := by
  induction rs with
  | nil => cases h
  | cons r rs ih =>
    have hrest : e ∈ thin p rs → ∃ front back, r :: rs = front ++ e :: back ∧ ¬p e back := by
      intro hmem
      obtain ⟨front, back, heq, hp⟩ := ih hmem
      exact ⟨r :: front, back, by rw [heq]; rfl, hp⟩
    rw [thin] at h
    split at h
    · exact hrest h
    · rename_i hr
      rcases List.mem_cons.mp h with rfl | h
      · exact ⟨[], rs, rfl, hr⟩
      · exact hrest h

theorem mem_thin_of_split {front back : List α} {e : α} (h : ¬p e back) :
    e ∈ thin p (front ++ e :: back) := by
  induction front with
  | nil =>
    rw [List.nil_append, thin, if_neg h]
    exact List.mem_cons_self
  | cons r front ih =>
    rw [List.cons_append, thin]
    split
    · exact ih
    · exact List.mem_cons_of_mem _ ih

theorem thin_sublist (rs : List α) : (thin p rs).Sublist rs := by
  induction rs with
  | nil => exact List.Sublist.refl _
  | cons r rs ih =>
    rw [thin]
    split
    · exact ih.cons r
    · exact ih.cons_cons r

/-- No element that stays drives out one before it. -/
theorem thin_drivenOut_pairwise (rs : List α) :
    (thin (DrivenOut hits) rs).Pairwise fun a b => ¬hits b a := by
  induction rs with
  | nil => exact List.Pairwise.nil
  | cons r rs ih =>
    rw [thin]
    split
    · exact ih
    · rename_i hr
      exact List.pairwise_cons.mpr ⟨fun e he hhit =>
        hr ⟨e, (thin_sublist rs).subset he, hhit⟩, ih⟩

/-- One kind of thinning leaves what a stronger one leaves. -/
theorem thin_sublist_thin {rs : List α}
    (himp : ∀ front r back, rs = front ++ r :: back → p r back → q r back) :
    (thin q rs).Sublist (thin p rs) := by
  induction rs with
  | nil => exact List.Sublist.refl _
  | cons r rs ih =>
    have hrest := ih fun front d back hsplit => himp (r :: front) d back (by rw [hsplit]; rfl)
    rw [thin, thin]
    by_cases hp : p r rs
    · rw [if_pos hp, if_pos (himp [] r rs rfl hp)]
      exact hrest
    · rw [if_neg hp]
      split
      · exact hrest.cons r
      · exact hrest.cons_cons r

theorem thin_congr {rs : List α}
    (hiff : ∀ front r back, rs = front ++ r :: back → (p r back ↔ q r back)) :
    thin p rs = thin q rs := by
  induction rs with
  | nil => rfl
  | cons r rs ih =>
    have hrest := ih fun front d back hsplit => hiff (r :: front) d back (by rw [hsplit]; rfl)
    rw [thin, thin, hrest]
    exact if_congr (hiff [] r rs rfl) rfl rfl

/-- Where the weaker thinning leaves no more, the two agree everywhere. -/
theorem iff_of_thin_length {rs : List α}
    (himp : ∀ front r back, rs = front ++ r :: back → p r back → q r back)
    (hlen : (thin p rs).length ≤ (thin q rs).length) :
    ∀ front r back, rs = front ++ r :: back → (p r back ↔ q r back) := by
  induction rs with
  | nil =>
    intro front r back hsplit
    simp at hsplit
  | cons d rs ih =>
    have himp' : ∀ front r back, rs = front ++ r :: back → p r back → q r back :=
      fun front r back hsplit => himp (d :: front) r back (by rw [hsplit]; rfl)
    have hle := (thin_sublist_thin himp').length_le
    have hhead : (p d rs ↔ q d rs) ∧ (thin p rs).length ≤ (thin q rs).length := by
      rw [thin, thin] at hlen
      by_cases hp : p d rs
      · have hq := himp [] d rs rfl hp
        rw [if_pos hp, if_pos hq] at hlen
        exact ⟨⟨fun _ => hq, fun _ => hp⟩, hlen⟩
      · rw [if_neg hp] at hlen
        by_cases hq : q d rs
        · rw [if_pos hq, List.length_cons] at hlen
          omega
        · rw [if_neg hq, List.length_cons, List.length_cons] at hlen
          exact ⟨⟨fun h => absurd h hp, fun h => absurd h hq⟩, by omega⟩
    rintro (_ | ⟨d', front⟩) r back hsplit
    · obtain ⟨rfl, rfl⟩ := List.cons_eq_cons.mp hsplit
      exact hhead.1
    · exact ih himp' hhead.2 front r back (List.cons_eq_cons.mp hsplit).2

end Thin

/-! ## Fewer newcomers -/

theorem untouched_sublist (hits : α → α → Prop) [DecidableRel hits] {rs kept : List α} (hsub : kept ⊆ rs) (xs : List α) :
    (untouched hits rs xs).Sublist (untouched hits kept xs) := by
  refine List.monotone_filter_right xs fun s hs => ?_
  rw [decide_eq_true_iff] at hs ⊢
  exact fun r hr => hs r (hsub hr)

theorem untouched_congr {rs kept xs : List α} (hsub : kept ⊆ rs)
    (hcover : ∀ s ∈ xs, (∃ r ∈ rs, hits r s) → ∃ r ∈ kept, hits r s) :
    untouched hits kept xs = untouched hits rs xs := by
  refine List.filter_congr fun s hs => decide_eq_decide.mpr ⟨fun hkept r hr hhit => ?_,
    fun hrs r hr => hrs r (hsub hr)⟩
  obtain ⟨r', hr', hhit'⟩ := hcover s hs ⟨r, hr, hhit⟩
  exact hkept r' hr' hhit'

theorem cover_of_length {rs kept xs : List α} (hsub : kept ⊆ rs)
    (hlen : (untouched hits kept xs).length ≤ (untouched hits rs xs).length) :
    ∀ s ∈ xs, (∃ r ∈ rs, hits r s) → ∃ r ∈ kept, hits r s := by
  intro s hs ⟨r, hr, hhit⟩
  by_contra hnone
  have heq := (untouched_sublist hits hsub xs).eq_of_length_le hlen
  have hmem : s ∈ untouched hits kept xs :=
    mem_untouched.mpr ⟨hs, fun r' hr' hhit' => hnone ⟨r', hr', hhit'⟩⟩
  rw [← heq] at hmem
  exact (mem_untouched.mp hmem).2 r hr hhit

variable {p : α → List α → Prop} [∀ r rest, Decidable (p r rest)]

/-- The elements thinned are those that a later one drives out, and what the
sequence drives out its thinned form drives out too. -/
def Faithful (hits : α → α → Prop) (p : α → List α → Prop) [∀ r rest, Decidable (p r rest)]
    (rs xs : List α) : Prop :=
  (∀ front r back, rs = front ++ r :: back → (p r back ↔ DrivenOut hits r back)) ∧
    ∀ s ∈ xs, (∃ r ∈ rs, hits r s) → ∃ r ∈ thin p rs, hits r s

theorem Faithful.eq {rs xs : List α} (h : Faithful hits p rs xs) :
    thin p rs ++ untouched hits (thin p rs) xs =
      thin (DrivenOut hits) rs ++ untouched hits rs xs := by
  rw [untouched_congr (thin_sublist rs).subset h.2, thin_congr h.1]

theorem faithful_of_perm {rs xs : List α}
    (himp : ∀ front r back, rs = front ++ r :: back → p r back → DrivenOut hits r back)
    (hperm : (thin p rs ++ untouched hits (thin p rs) xs).Perm
      (thin (DrivenOut hits) rs ++ untouched hits rs xs)) :
    Faithful hits p rs xs := by
  have hsub : thin p rs ⊆ rs := (thin_sublist rs).subset
  have hlen := hperm.length_eq
  rw [List.length_append, List.length_append] at hlen
  have hthin := (thin_sublist_thin himp).length_le
  have hrest := (untouched_sublist hits hsub xs).length_le
  exact ⟨iff_of_thin_length himp (by omega), cover_of_length hsub (by omega)⟩

end Docsql.Lib.Supersede
