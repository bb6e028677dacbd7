import Mathlib.Tactic

/-!
# Worklists

A stack of items is drained: an item that was seen is skipped, any other one is
visited, and a visit may push further items.  What was seen at the end is closed
under the pushes.  The number of pushes is bounded by a budget, and a budget as
large as the number of items that can push is never exceeded.
-/

namespace Docsql.Lib.Worklist

/-- What a visit finds. -/
inductive Visit (ι : Type*) where
  | leaf
  | stop
  | expand (next : List ι)

/-- Items seen, the leaves among them in the order of their visits, and the stack. -/
structure State (ι : Type*) where
  seen : List ι := []
  out : List ι := []
  stack : List ι

variable {ι ε : Type*}

section Drain

variable [DecidableEq ι] (visit : ι → Except ε (Visit ι))

/-- Visits items until one expands, or none is left. -/
def scan (seen out : List ι) : List ι → Except ε (Bool × State ι)
  | [] => .ok (false, ⟨seen, out, []⟩)
  | t :: stack =>
    if t ∈ seen then scan seen out stack
    else
      match visit t with
      | .error e => .error e
      | .ok .leaf => scan (t :: seen) (out ++ [t]) stack
      | .ok .stop => scan (t :: seen) out stack
      | .ok (.expand next) => .ok (true, ⟨t :: seen, out, next.reverse ++ stack⟩)

/-- The leaves; `deep` when there are more than `budget` expansions. -/
def drain (deep : ε) (budget : ℕ) (s : State ι) : Except ε (List ι) :=
  match scan visit s.seen s.out s.stack with
  | .error e => .error e
  | .ok (false, s) => .ok s.out
  | .ok (true, s) =>
    match budget with
    | 0 => .error deep
    | n + 1 => drain deep n s

end Drain

variable {visit : ι → Except ε (Visit ι)}

/-- Every item seen has been dealt with; what it pushed was seen or waits. -/
def Inv (visit : ι → Except ε (Visit ι)) (s : State ι) : Prop :=
  ∀ t ∈ s.seen, (visit t = .ok .leaf ∧ t ∈ s.out) ∨ visit t = .ok .stop ∨
    ∃ next, visit t = .ok (.expand next) ∧ ∀ u ∈ next, u ∈ s.seen ∨ u ∈ s.stack

/-- What `s` knows of, `s'` knows of. -/
def Keeps (s s' : State ι) : Prop := ∀ t, t ∈ s.seen ∨ t ∈ s.stack → t ∈ s'.seen ∨ t ∈ s'.stack

theorem Keeps.trans {s s' s'' : State ι} (h : Keeps s s') (h' : Keeps s' s'') : Keeps s s'' :=
  fun t ht => h' t (h t ht)

/-- One item is dealt with. -/
theorem Inv.visited {seen out out' stack : List ι} {t : ι} (next : List ι)
    (h : Inv visit ⟨seen, out, t :: stack⟩) (hout : ∀ u ∈ out, u ∈ out')
    (ht : (visit t = .ok .leaf ∧ t ∈ out') ∨ visit t = .ok .stop ∨ visit t = .ok (.expand next)) :
    Inv visit ⟨t :: seen, out', next.reverse ++ stack⟩ := by
  have hmoved (u : ι) (hu : u ∈ seen ∨ u ∈ t :: stack) :
      u ∈ t :: seen ∨ u ∈ next.reverse ++ stack := by
    rw [List.mem_cons] at hu ⊢
    rw [List.mem_append]
    tauto
  intro u hu
  rcases List.mem_cons.1 hu with rfl | hseen
  · rcases ht with hleaf | hstop | hexpand
    · exact .inl hleaf
    · exact .inr (.inl hstop)
    · refine .inr (.inr ⟨next, hexpand, fun w hw => .inr ?_⟩)
      exact List.mem_append_left _ (List.mem_reverse.2 hw)
  · rcases h u hseen with hleaf | hstop | ⟨pushed, hexpand, hpushed⟩
    · exact .inl ⟨hleaf.1, hout u hleaf.2⟩
    · exact .inr (.inl hstop)
    · exact .inr (.inr ⟨pushed, hexpand, fun w hw => hmoved w (hpushed w hw)⟩)

theorem keeps_visited {seen out out' stack : List ι} {t : ι} (next : List ι) :
    Keeps ⟨seen, out, t :: stack⟩ ⟨t :: seen, out', next.reverse ++ stack⟩ := by
  intro u hu
  rw [List.mem_cons] at hu
  rw [List.mem_cons, List.mem_append]
  tauto

variable [DecidableEq ι]

/-- A scan that stops has an expansion to hand on, or an empty stack. -/
theorem scan_spec {seen out stack : List ι} {more : Bool} {s' : State ι}
    (h : Inv visit ⟨seen, out, stack⟩) (hscan : scan visit seen out stack = .ok (more, s')) :
    Inv visit s' ∧ Keeps ⟨seen, out, stack⟩ s' ∧ (more = false → s'.stack = []) := by
  induction stack generalizing seen out with
  | nil =>
    cases hscan
    exact ⟨h, fun t ht => ht, fun _ => rfl⟩
  | cons t stack ih =>
    rw [scan] at hscan
    split at hscan
    · rename_i hseen
      have hdrop (u : ι) (hu : u ∈ seen ∨ u ∈ t :: stack) : u ∈ seen ∨ u ∈ stack := by
        rw [List.mem_cons] at hu
        rcases hu with hu | rfl | hu
        · exact .inl hu
        · exact .inl hseen
        · exact .inr hu
      have hrest : Inv visit ⟨seen, out, stack⟩ := by
        intro u hu
        refine (h u hu).imp id (.imp id ?_)
        rintro ⟨next, hexpand, hnext⟩
        exact ⟨next, hexpand, fun w hw => hdrop w (hnext w hw)⟩
      obtain ⟨hinv, hkeeps, hdone⟩ := ih hrest hscan
      exact ⟨hinv, fun u hu => hkeeps u (hdrop u hu), hdone⟩
    · split at hscan
      · cases hscan
      · rename_i hvisit
        have hinv := h.visited [] (fun u hu => List.mem_append_left [t] hu)
          (.inl ⟨hvisit, List.mem_append_right out List.mem_cons_self⟩)
        obtain ⟨hinv', hkeeps, hdone⟩ := ih hinv hscan
        exact ⟨hinv', (keeps_visited []).trans hkeeps, hdone⟩
      · rename_i hvisit
        have hinv := h.visited [] (fun u hu => hu) (.inr (.inl hvisit))
        obtain ⟨hinv', hkeeps, hdone⟩ := ih hinv hscan
        exact ⟨hinv', (keeps_visited []).trans hkeeps, hdone⟩
      · rename_i next hvisit
        cases hscan
        exact ⟨h.visited next (fun u hu => hu) (.inr (.inr hvisit)), keeps_visited next, nofun⟩

theorem scan_last {s s' : State ι} (h : Inv visit s)
    (hscan : scan visit s.seen s.out s.stack = .ok (false, s')) :
    ∃ seen, Inv visit ⟨seen, s'.out, []⟩ ∧ ∀ t, t ∈ s.seen ∨ t ∈ s.stack → t ∈ seen := by
  obtain ⟨hinv, hkeeps, hdone⟩ := scan_spec h hscan
  refine ⟨s'.seen, ?_, fun t ht => ?_⟩
  · simpa only [← hdone rfl] using hinv
  · simpa [hdone rfl] using hkeeps t ht

/-- Draining a stack leaves a set of items that is closed under the pushes. -/
theorem drain_spec {deep : ε} {budget : ℕ} {s : State ι} {out : List ι} (h : Inv visit s)
    (hdrain : drain visit deep budget s = .ok out) :
    ∃ seen, Inv visit ⟨seen, out, []⟩ ∧ ∀ t, t ∈ s.seen ∨ t ∈ s.stack → t ∈ seen := by
  induction budget generalizing s with
  | zero =>
    rw [drain] at hdrain
    split at hdrain
    · cases hdrain
    · rename_i s' hscan
      cases hdrain
      exact scan_last h hscan
    · cases hdrain
  | succ budget ih =>
    rw [drain] at hdrain
    split at hdrain
    · cases hdrain
    · rename_i s' hscan
      cases hdrain
      exact scan_last h hscan
    · rename_i s' hscan
      obtain ⟨hinv, hkeeps, -⟩ := scan_spec h hscan
      obtain ⟨seen, hseen, hclosed⟩ := ih hinv hdrain
      exact ⟨seen, hseen, fun t ht => hclosed t (hkeeps t ht)⟩

/-! ## Budgets that are never exceeded -/

/-- A scan marks an item it has not seen for each expansion. -/
theorem scan_unseen {seen out stack : List ι} {more : Bool} {s' : State ι}
    (hscan : scan visit seen out stack = .ok (more, s')) :
    (∀ t ∈ seen, t ∈ s'.seen) ∧
      (more = true → ∃ t next, visit t = .ok (.expand next) ∧ t ∈ s'.seen ∧ t ∉ seen) := by
  induction stack generalizing seen out with
  | nil =>
    cases hscan
    exact ⟨fun t ht => ht, nofun⟩
  | cons t stack ih =>
    rw [scan] at hscan
    split at hscan
    · exact ih hscan
    · rename_i hnew
      have hlater (h : (∀ u ∈ t :: seen, u ∈ s'.seen) ∧ (more = true →
          ∃ u next, visit u = .ok (.expand next) ∧ u ∈ s'.seen ∧ u ∉ t :: seen)) :
          (∀ u ∈ seen, u ∈ s'.seen) ∧ (more = true →
            ∃ u next, visit u = .ok (.expand next) ∧ u ∈ s'.seen ∧ u ∉ seen) := by
        refine ⟨fun u hu => h.1 u (List.mem_cons_of_mem t hu), fun hmore => ?_⟩
        obtain ⟨u, next, hvisit, hu, hunseen⟩ := h.2 hmore
        exact ⟨u, next, hvisit, hu, fun hmem => hunseen (List.mem_cons_of_mem t hmem)⟩
      split at hscan
      · cases hscan
      · exact hlater (ih hscan)
      · exact hlater (ih hscan)
      · rename_i next hvisit
        cases hscan
        exact ⟨fun u hu => List.mem_cons_of_mem t hu,
          fun _ => ⟨t, next, hvisit, List.mem_cons_self, hnew⟩⟩

theorem scan_error {seen out stack : List ι} {e : ε} (hscan : scan visit seen out stack = .error e) :
    ∃ t, visit t = .error e := by
  induction stack generalizing seen out with
  | nil => cases hscan
  | cons t stack ih =>
    rw [scan] at hscan
    split at hscan
    · exact ih hscan
    · split at hscan
      · rename_i e' hvisit
        cases hscan
        exact ⟨t, hvisit⟩
      · exact ih hscan
      · exact ih hscan
      · cases hscan

/-- Each expansion takes an item out of the unseen ones. -/
theorem unseen_lt {items : Finset ι} {s s' : State ι}
    (hitems : ∀ t next, visit t = .ok (.expand next) → t ∈ items)
    (hscan : scan visit s.seen s.out s.stack = .ok (true, s')) :
    (items \ s'.seen.toFinset).card < (items \ s.seen.toFinset).card := by
  obtain ⟨hkept, hnew⟩ := scan_unseen hscan
  obtain ⟨t, next, hvisit, hseen, hunseen⟩ := hnew rfl
  refine Finset.card_lt_card ⟨fun u hu => ?_, fun hsub => ?_⟩
  · rw [Finset.mem_sdiff, List.mem_toFinset] at hu ⊢
    exact ⟨hu.1, fun hmem => hu.2 (hkept u hmem)⟩
  · have ht : t ∈ items \ s'.seen.toFinset :=
      hsub (Finset.mem_sdiff.2 ⟨hitems t next hvisit, by rwa [List.mem_toFinset]⟩)
    exact (Finset.mem_sdiff.1 ht).2 (List.mem_toFinset.2 hseen)

/-- With a budget for every item that can expand, only visits fail. -/
theorem drain_error {deep : ε} {budget : ℕ} {s : State ι} {e : ε} {items : Finset ι}
    (hitems : ∀ t next, visit t = .ok (.expand next) → t ∈ items)
    (hbudget : (items \ s.seen.toFinset).card ≤ budget)
    (hdrain : drain visit deep budget s = .error e) : ∃ t, visit t = .error e := by
  induction budget generalizing s with
  | zero =>
    rw [drain] at hdrain
    split at hdrain
    · rename_i e' hscan
      cases hdrain
      exact scan_error hscan
    · cases hdrain
    · rename_i s' hscan
      have := unseen_lt hitems hscan
      omega
  | succ budget ih =>
    rw [drain] at hdrain
    split at hdrain
    · rename_i e' hscan
      cases hdrain
      exact scan_error hscan
    · cases hdrain
    · rename_i s' hscan
      have := unseen_lt hitems hscan
      exact ih (by omega) hdrain

end Docsql.Lib.Worklist
