import Mathlib.Tactic

/-!
# A stream in blocks

A step function takes blocks of one size.  A stream of items fills a buffer; a full buffer
is one step and starts over.  However the stream is cut, state and buffer are those of the
whole stream.
-/

namespace Docsql.Lib.BlockStream

variable {σ α : Type*}

/-- All whole blocks of the items, and the items left over. -/
def absorb (B : ℕ) (f : σ → List α → σ) (s : σ) (xs : List α) : σ × List α :=
  if 0 < B ∧ B ≤ xs.length then absorb B f (f s (xs.take B)) (xs.drop B) else (s, xs)
termination_by xs.length
decreasing_by
  rw [List.length_drop]
  omega

variable {B : ℕ} {f : σ → List α → σ} {s : σ} {xs ys : List α}

theorem absorb_short (h : xs.length < B) : absorb B f s xs = (s, xs) := by
  rw [absorb, if_neg fun hle => absurd hle.2 (Nat.not_le.mpr h)]

theorem absorb_step (hB : 0 < B) (h : B ≤ xs.length) :
    absorb B f s xs = absorb B f (f s (xs.take B)) (xs.drop B) := by
  rw [absorb, if_pos ⟨hB, h⟩]

theorem absorb_block (hB : 0 < B) (h : xs.length = B) : absorb B f s xs = (f s xs, []) := by
  rw [absorb_step hB h.ge, List.take_of_length_le h.le, List.drop_of_length_le h.le,
    absorb_short hB]

/-- What is left over waits for the rest of the stream. -/
theorem absorb_append (hB : 0 < B) (s : σ) (xs ys : List α) :
    absorb B f s (xs ++ ys) = absorb B f (absorb B f s xs).1 ((absorb B f s xs).2 ++ ys) := by
  induction hn : xs.length using Nat.strong_induction_on generalizing s xs with
  | _ n ih =>
    by_cases hle : B ≤ xs.length
    · have hlong : B ≤ (xs ++ ys).length := by
        rw [List.length_append]
        omega
      have hshort : (xs.drop B).length < n := by
        rw [List.length_drop]
        omega
      rw [absorb_step hB hlong, absorb_step hB hle, List.take_append_of_le_length hle,
        List.drop_append_of_le_length hle]
      exact ih _ hshort (f s (xs.take B)) (xs.drop B) rfl
    · rw [absorb_short (by omega : xs.length < B)]

theorem length_absorb (hB : 0 < B) (s : σ) (xs : List α) :
    (absorb B f s xs).2.length = xs.length % B := by
  induction hn : xs.length using Nat.strong_induction_on generalizing s xs with
  | _ n ih =>
    by_cases hle : B ≤ xs.length
    · have hrest : (xs.drop B).length = n - B := by
        rw [List.length_drop, hn]
      rw [absorb_step hB hle, ih (n - B) (by omega) _ _ hrest, ← Nat.mod_eq_sub_mod (hn ▸ hle)]
    · rw [absorb_short (by omega), hn, Nat.mod_eq_of_lt (by omega)]

/-- A number of whole blocks, one after the other. -/
theorem absorb_blocks (hB : 0 < B) {n : ℕ} (s : σ) (xs : List α) (h : xs.length = B * n) :
    absorb B f s xs =
      ((List.range n).foldl (fun s i => f s ((xs.drop (B * i)).take B)) s, []) := by
  induction n generalizing s xs with
  | zero =>
    obtain rfl : xs = [] := List.length_eq_zero_iff.mp h
    exact absorb_short hB
  | succ n ih =>
    rw [Nat.mul_succ] at h
    have hrest : (xs.drop B).length = B * n := by
      rw [List.length_drop]
      omega
    rw [absorb_step hB (by omega), ih _ _ hrest, List.range_succ_eq_map, List.foldl_cons,
      List.foldl_map, Nat.mul_zero, List.drop_zero]
    simp only [List.drop_drop, Nat.mul_succ, Nat.add_comm]

end Docsql.Lib.BlockStream
