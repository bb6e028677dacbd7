import Mathlib.Tactic

/-!
# Windows of sorted lists

A list is read from the left: some elements are passed over, an element past the end or one
that stops the reading ends it, and so does a full window.  On a list whose elements come in the
right order this is the filtered list, cut at the size of the window.
-/

namespace Docsql.Lib.Window

/-- What is done with an element that is read. -/
structure View (α : Type) where
  past : α → Bool
  skip : α → Bool
  stop : α → Bool

variable {α : Type} {w : View α} {max : Option ℕ}

def View.keeps (w : View α) (a : α) : Bool := !w.past a && !w.skip a && !w.stop a

/-- The window has no room left. -/
def full (max : Option ℕ) (out : List α) : Bool := max.any fun m => decide (m ≤ out.length)

/-- The list cut at the size of the window. -/
def cut (max : Option ℕ) (l : List α) : List α := max.elim l fun m => l.take m

/-- The window after reading, and whether the reading may go on. -/
def read (w : View α) (max : Option ℕ) : List α → List α → Bool × List α
  | [], out => (true, out)
  | a :: rest, out =>
    if w.past a then (true, out)
    else if w.skip a then read w max rest out
    else if w.stop a then (false, out)
    else if full max (out ++ [a]) then (false, out ++ [a])
    else read w max rest (out ++ [a])

section Cons

variable {a : α} {rest out : List α}

theorem read_past (h : w.past a = true) : read w max (a :: rest) out = (true, out) := if_pos h

theorem read_skip (hpast : w.past a = false) (h : w.skip a = true) :
    read w max (a :: rest) out = read w max rest out := by
  rw [read, if_neg (ne_true_of_eq_false hpast), if_pos h]

theorem read_stop (hpast : w.past a = false) (hskip : w.skip a = false) (h : w.stop a = true) :
    read w max (a :: rest) out = (false, out) := by
  rw [read, if_neg (ne_true_of_eq_false hpast), if_neg (ne_true_of_eq_false hskip), if_pos h]

theorem read_keep (h : w.keeps a = true) : read w max (a :: rest) out =
    if full max (out ++ [a]) then (false, out ++ [a]) else read w max rest (out ++ [a]) := by
  simp only [View.keeps, Bool.and_eq_true, Bool.not_eq_true'] at h
  rw [read, if_neg (ne_true_of_eq_false h.1.1), if_neg (ne_true_of_eq_false h.1.2),
    if_neg (ne_true_of_eq_false h.2)]

end Cons

theorem full_iff {out : List α} : full max out = true ↔ ∃ m, max = some m ∧ m ≤ out.length := by
  cases max with
  | none => simp [full]
  | some m => simp [full]

theorem cut_of_not_full {out : List α} (h : ¬full max out = true) : cut max out = out := by
  cases max with
  | none => rfl
  | some m =>
    refine List.take_of_length_le (le_of_not_ge fun hm => h ?_)
    exact full_iff.2 ⟨m, rfl, hm⟩

/-- The element that fills the window is the last of the cut list. -/
theorem cut_of_filled {out rest : List α} {a : α} (h : ¬full max out = true)
    (ha : full max (out ++ [a]) = true) : cut max (out ++ a :: rest) = out ++ [a] := by
  obtain ⟨m, rfl, hm⟩ := full_iff.1 ha
  have hlt : out.length < m := by
    refine lt_of_not_ge fun hm' => h ?_
    exact full_iff.2 ⟨m, rfl, hm'⟩
  have hlen : m = (out ++ [a]).length := by
    rw [List.length_append, List.length_singleton] at hm ⊢
    omega
  rw [List.append_cons out a rest, cut, Option.elim_some, hlen]
  exact List.take_left

theorem cut_full_nil (h : full max ([] : List α) = true) (l : List α) : cut max l = [] := by
  obtain ⟨m, rfl, hm⟩ := full_iff.1 h
  rw [List.length_nil, Nat.le_zero] at hm
  rw [hm, cut, Option.elim_some, List.take_zero]

/-! ## Reading on -/

/-- Nothing of the list gets into the window. -/
theorem read_of_none {xs out : List α} (h : ∀ a ∈ xs, w.past a = true ∨ w.skip a = true) :
    read w max xs out = (true, out) := by
  induction xs with
  | nil => rfl
  | cons a xs ih =>
    rw [read]
    split
    · rfl
    · rename_i hpast
      rw [if_pos ((h a List.mem_cons_self).resolve_left hpast)]
      exact ih fun b hb => h b (List.mem_cons_of_mem a hb)

/-- The second part is read from where the first one ends. -/
theorem read_append {xs ys out : List α}
    (hpast : ∀ a ∈ xs, ∀ b ∈ ys, w.past a = true → w.past b = true) :
    read w max (xs ++ ys) out =
      if (read w max xs out).1 then read w max ys (read w max xs out).2
      else read w max xs out := by
  induction xs generalizing out with
  | nil => simp [read]
  | cons a xs ih =>
    have hrest : ∀ a ∈ xs, ∀ b ∈ ys, w.past a = true → w.past b = true :=
      fun b hb => hpast b (List.mem_cons_of_mem a hb)
    rw [List.cons_append, read, read]
    split
    · rename_i ha
      have hys : read w max ys out = (true, out) :=
        read_of_none fun b hb => .inl (hpast a List.mem_cons_self b hb ha)
      rw [if_pos rfl, hys]
    · split
      · exact ih hrest
      · split
        · rfl
        · split
          · rfl
          · exact ih hrest

/-- As long as the reading may go on there is room. -/
theorem not_full_of_read {xs out : List α} (h : ¬full max out = true)
    (hon : (read w max xs out).1 = true) : ¬full max (read w max xs out).2 = true := by
  induction xs generalizing out with
  | nil => exact h
  | cons a xs ih =>
    rw [read] at hon ⊢
    split at hon
    · rename_i hpast
      rwa [if_pos hpast]
    · rename_i hpast
      rw [if_neg hpast]
      split at hon
      · rename_i hskip
        rw [if_pos hskip]
        exact ih h hon
      · rename_i hskip
        rw [if_neg hskip]
        split at hon
        · cases hon
        · rename_i hstop
          rw [if_neg hstop]
          split at hon
          · cases hon
          · rename_i hroom
            rw [if_neg hroom]
            exact ih hroom hon

/-- When nothing stops the reading, only a full window ends it. -/
theorem full_of_read {xs out : List α} (hstop : ∀ a, w.stop a = false)
    (hend : (read w max xs out).1 = false) : full max (read w max xs out).2 = true := by
  induction xs generalizing out with
  | nil => cases hend
  | cons a xs ih =>
    rw [read, hstop a] at hend ⊢
    split at hend
    · cases hend
    · rename_i hpast
      rw [if_neg hpast]
      split at hend
      · rename_i hskip
        rw [if_pos hskip]
        exact ih hend
      · rename_i hskip
        rw [if_neg hskip, if_neg Bool.false_ne_true]
        rw [if_neg Bool.false_ne_true] at hend
        split at hend
        · rename_i hroom
          rw [if_pos hroom]
          exact hroom
        · rename_i hroom
          rw [if_neg hroom]
          exact ih hend

/-- After an element that ends the reading none is kept. -/
def Ordered (w : View α) (xs : List α) : Prop :=
  xs.Pairwise fun a b => w.past a = true ∨ (w.skip a = false ∧ w.stop a = true) →
    w.keeps b = false

theorem filter_keeps_eq_nil {xs : List α} (h : ∀ b ∈ xs, w.keeps b = false) :
    xs.filter w.keeps = [] := by
  refine List.filter_eq_nil_iff.2 fun b hb => ?_
  rw [h b hb]
  exact Bool.false_ne_true

theorem read_eq_cut {xs out : List α} (hxs : Ordered w xs) (h : ¬full max out = true) :
    (read w max xs out).2 = cut max (out ++ xs.filter w.keeps) := by
  induction xs generalizing out with
  | nil =>
    rw [read, List.filter_nil, List.append_nil, cut_of_not_full h]
  | cons a xs ih =>
    obtain ⟨hafter, hrest⟩ := List.pairwise_cons.1 hxs
    rw [read]
    split
    · rename_i hpast
      have ha : w.keeps a = false := by simp [View.keeps, hpast]
      rw [List.filter_cons, ha, if_neg Bool.false_ne_true,
        filter_keeps_eq_nil fun b hb => hafter b hb (.inl hpast), List.append_nil,
        cut_of_not_full h]
    · rename_i hpast
      split
      · rename_i hskip
        have ha : w.keeps a = false := by simp [View.keeps, hskip]
        rw [List.filter_cons, ha, if_neg Bool.false_ne_true]
        exact ih hrest h
      · rename_i hskip
        split
        · rename_i hstop
          have ha : w.keeps a = false := by simp [View.keeps, hstop]
          have hends : w.skip a = false ∧ w.stop a = true := ⟨eq_false_of_ne_true hskip, hstop⟩
          rw [List.filter_cons, ha, if_neg Bool.false_ne_true,
            filter_keeps_eq_nil fun b hb => hafter b hb (.inr hends), List.append_nil,
            cut_of_not_full h]
        · rename_i hstop
          have ha : w.keeps a = true := by
            simp [View.keeps, hpast, hskip, hstop]
          rw [List.filter_cons, if_pos ha]
          split
          · rename_i hfull
            exact (cut_of_filled h hfull).symm
          · rename_i hroom
            rw [ih hrest hroom, List.append_assoc]
            rfl

end Docsql.Lib.Window
