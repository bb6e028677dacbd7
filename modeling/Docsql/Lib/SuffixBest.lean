import Mathlib.Data.List.DropRight
import Mathlib.Tactic

/-!
# Best elements of a sliding list

The elements that no later one beats, kept in a queue: a new element drops the beaten ones at
the back, the first element leaves at the front, and the front is the first best element.
-/

namespace Docsql.Lib

variable {α : Type*}

/-- `beats y x` is a strict weak order: "not beaten by" is transitive. -/
def StrictWeak (beats : α → α → Bool) : Prop :=
  ∀ x y z, beats y x = false → beats z y = false → beats z x = false

variable (beats : α → α → Bool)

/-- The elements that no later one beats. -/
def suffixBests : List α → List α
  | [] => []
  | x :: xs => if xs.any (beats · x) then suffixBests xs else x :: suffixBests xs

/-- `reduce`: the first best element. -/
def firstBest : List α → Option α
  | [] => none
  | x :: xs => some (xs.foldl (fun a b => if beats b a then b else a) x)

/-- A new element at the back. -/
def enqueue (queue : List α) (x : α) : List α := queue.rdropWhile (beats x ·) ++ [x]

theorem rdropWhile_cons_neg {p : α → Bool} {x : α} (hx : p x = false) (l : List α) :
    (x :: l).rdropWhile p = x :: l.rdropWhile p := by
  induction l using List.reverseRecOn with
  | nil => simp [List.rdropWhile, hx]
  | append_singleton l a ih =>
    rw [← List.cons_append, List.rdropWhile_concat, List.rdropWhile_concat]
    split_ifs
    · exact ih
    · rfl

variable {beats}

theorem mem_of_mem_suffixBests {z : α} {xs : List α} (h : z ∈ suffixBests beats xs) : z ∈ xs := by
  induction xs with
  | nil => exact h
  | cons x xs ih =>
    rw [suffixBests] at h
    split_ifs at h
    · exact List.mem_cons_of_mem x (ih h)
    · rcases List.mem_cons.mp h with rfl | h
      · exact List.mem_cons_self
      · exact List.mem_cons_of_mem x (ih h)

/-- Nothing in the queue is beaten by what stands behind it. -/
theorem pairwise_suffixBests (xs : List α) :
    (suffixBests beats xs).Pairwise fun x z => beats z x = false := by
  induction xs with
  | nil => exact List.Pairwise.nil
  | cons x xs ih =>
    rw [suffixBests]
    split_ifs with hany
    · exact ih
    · refine List.pairwise_cons.mpr ⟨fun z hz => ?_, ih⟩
      have hnone : ∀ y ∈ xs, ¬beats y x = true := by simpa using hany
      exact Bool.eq_false_iff.mpr (hnone z (mem_of_mem_suffixBests hz))

/-- What beats the front beats all that stand behind it. -/
theorem rdropWhile_beaten (hweak : StrictWeak beats) {x y : α} {queue : List α}
    (hxy : beats y x = true) (hqueue : ∀ z ∈ queue, beats z x = false) :
    queue.rdropWhile (beats y ·) = [] ∧ (x :: queue).rdropWhile (beats y ·) = [] := by
  have hall : ∀ z ∈ queue, beats y z = true := by
    intro z hz
    by_contra hne
    have hx := hweak x z y (hqueue z hz) (Bool.eq_false_iff.mpr hne)
    rw [hx] at hxy
    cases hxy
  rw [List.rdropWhile_eq_nil_iff, List.rdropWhile_eq_nil_iff]
  exact ⟨hall, List.forall_mem_cons.mpr ⟨hxy, hall⟩⟩

theorem suffixBests_concat (hweak : StrictWeak beats) (xs : List α) (y : α) :
    suffixBests beats (xs ++ [y]) = enqueue beats (suffixBests beats xs) y := by
  unfold enqueue
  induction xs with
  | nil => simp [suffixBests]
  | cons x xs ih =>
    rw [List.cons_append, suffixBests, suffixBests, List.any_append, ih]
    cases hany : xs.any (beats · x) with
    | true => simp
    | false =>
      have hqueue : ∀ z ∈ suffixBests beats xs, beats z x = false := by
        have hnone : ∀ z ∈ xs, beats z x = false := by simpa using hany
        exact fun z hz => hnone z (mem_of_mem_suffixBests hz)
      cases hyx : beats y x with
      | true =>
        obtain ⟨hnil, hnil'⟩ := rdropWhile_beaten hweak hyx hqueue
        simp [hyx, hnil, hnil']
      | false =>
        rw [if_neg (by simp [hyx]), if_neg Bool.false_ne_true, rdropWhile_cons_neg hyx]
        rfl

theorem firstBest_concat (xs : List α) (y : α) :
    firstBest beats (xs ++ [y]) =
      some ((firstBest beats xs).elim y fun a => if beats y a then y else a) := by
  cases xs with
  | nil => rfl
  | cons x xs =>
    rw [List.cons_append, firstBest, List.foldl_append]
    rfl

/-- The front of the queue. -/
theorem head?_suffixBests (hweak : StrictWeak beats) (xs : List α) :
    (suffixBests beats xs).head? = firstBest beats xs := by
  induction xs using List.reverseRecOn with
  | nil => rfl
  | append_singleton xs y ih =>
    rw [suffixBests_concat hweak, firstBest_concat, ← ih]
    have hpair := @pairwise_suffixBests α beats xs
    unfold enqueue
    cases hqueue : suffixBests beats xs with
    | nil => rfl
    | cons b queue =>
      rw [hqueue] at hpair
      cases hyb : beats y b with
      | true =>
        have hnil := (rdropWhile_beaten hweak hyb (List.pairwise_cons.mp hpair).1).2
        simp [hnil, hyb]
      | false =>
        rw [rdropWhile_cons_neg hyb]
        simp [hyb]

end Docsql.Lib
