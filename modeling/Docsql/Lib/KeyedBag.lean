import Mathlib.Data.List.Basic
import Mathlib.Logic.Function.Basic
import Mathlib.Tactic

/-!
# Lists whose elements are told apart by a key

Dropping repeated keys, matching one list against the key counts of another, and
grouping by key, with the number of elements of each key that they leave.
-/

namespace Docsql.Lib.KeyedBag

variable {α κ : Type*} [DecidableEq κ] (key : α → κ)

/-- The number of elements with a key. -/
def mult (k : κ) (xs : List α) : ℕ := xs.countP fun x => key x = k

variable {key} {k : κ}

@[simp] theorem mult_nil : mult key k [] = 0 := rfl

theorem mult_cons (x : α) (xs : List α) :
    mult key k (x :: xs) = mult key k xs + if key x = k then 1 else 0 := by
  simp [mult, List.countP_cons]

@[simp] theorem mult_append (xs ys : List α) :
    mult key k (xs ++ ys) = mult key k xs + mult key k ys :=
  List.countP_append

variable (key)

/-! ## One element of each key -/

/-- The first element of each key that has not been seen. -/
def keepFirst : List κ → List α → List α
  | _, [] => []
  | seen, x :: xs =>
    if key x ∈ seen then keepFirst seen xs else x :: keepFirst (key x :: seen) xs

variable {key}

theorem mult_keepFirst (key : α → κ) (k : κ) (seen : List κ) (xs : List α) :
    mult key k (keepFirst key seen xs) = if k ∈ seen then 0 else min 1 (mult key k xs) := by
  induction xs generalizing seen with
  | nil => simp [keepFirst]
  | cons x xs ih =>
    rw [keepFirst, mult_cons]
    by_cases hold : key x ∈ seen
    · rw [if_pos hold, ih]
      by_cases hk : key x = k
      · rw [if_pos (hk ▸ hold), if_pos (hk ▸ hold)]
      · rw [if_neg hk, Nat.add_zero]
    · rw [if_neg hold, mult_cons, ih]
      by_cases hk : key x = k
      · rw [if_pos hk, if_pos (List.mem_cons.2 (.inl hk.symm)), if_neg (hk ▸ hold)]
        omega
      · have hmem : k ∈ key x :: seen ↔ k ∈ seen := by
          rw [List.mem_cons, or_iff_right (Ne.symm hk)]
        rw [if_neg hk, Nat.add_zero, Nat.add_zero]
        simp only [hmem]

/-- Each key that occurs is left once. -/
theorem mult_keepFirst_nil (key : α → κ) (k : κ) (xs : List α) :
    mult key k (keepFirst key [] xs) = min 1 (mult key k xs) := by
  rw [mult_keepFirst, if_neg List.not_mem_nil]

theorem keepFirst_sublist (seen : List κ) (xs : List α) : (keepFirst key seen xs).Sublist xs := by
  induction xs generalizing seen with
  | nil => exact List.Sublist.slnil
  | cons x xs ih =>
    rw [keepFirst]
    split
    · exact (ih seen).cons x
    · exact (ih _).cons_cons x

variable (key)

/-! ## Matching against counts -/

/-- How often each key occurs. -/
def tally (xs : List α) : κ → ℕ :=
  xs.foldl (fun counts x => Function.update counts (key x) (counts (key x) + 1)) fun _ => 0

/-- The counts without one occurrence of the key of `x`, when there is one. -/
def consume (counts : κ → ℕ) (x : α) : Option (κ → ℕ) :=
  if 0 < counts (key x) then some (Function.update counts (key x) (counts (key x) - 1))
  else none

def keepMatched : (κ → ℕ) → List α → List α
  | _, [] => []
  | counts, x :: xs =>
    match consume key counts x with
    | some counts => x :: keepMatched counts xs
    | none => keepMatched counts xs

def keepUnmatched : (κ → ℕ) → List α → List α
  | _, [] => []
  | counts, x :: xs =>
    match consume key counts x with
    | some counts => keepUnmatched counts xs
    | none => x :: keepUnmatched counts xs

variable {key}

theorem foldl_tally (counts : κ → ℕ) (xs : List α) :
    xs.foldl (fun counts x => Function.update counts (key x) (counts (key x) + 1)) counts k =
      counts k + mult key k xs := by
  induction xs generalizing counts with
  | nil => rfl
  | cons x xs ih =>
    rw [List.foldl_cons, ih, mult_cons]
    by_cases hk : key x = k
    · rw [hk, Function.update_self, if_pos rfl]
      omega
    · rw [Function.update_of_ne (Ne.symm hk), if_neg hk, Nat.add_zero]

theorem tally_apply (xs : List α) : tally key xs k = mult key k xs := by
  rw [tally, foldl_tally, Nat.zero_add]

theorem consume_cases (key : α → κ) (counts : κ → ℕ) (x : α) :
    (0 < counts (key x) ∧ consume key counts x =
      some (Function.update counts (key x) (counts (key x) - 1))) ∨
    counts (key x) = 0 ∧ consume key counts x = none := by
  unfold consume
  split
  · exact .inl ⟨by assumption, rfl⟩
  · exact .inr ⟨by omega, rfl⟩

/-- Matched elements, up to the count of their key. -/
theorem mult_keepMatched (key : α → κ) (k : κ) (counts : κ → ℕ) (xs : List α) :
    mult key k (keepMatched key counts xs) = min (mult key k xs) (counts k) := by
  induction xs generalizing counts with
  | nil => simp [keepMatched]
  | cons x xs ih =>
    rw [keepMatched, mult_cons]
    rcases consume_cases key counts x with ⟨hpos, hsome⟩ | ⟨hzero, hnone⟩
    · simp only [hsome]
      rw [mult_cons, ih]
      by_cases hk : key x = k
      · rw [if_pos hk, hk, Function.update_self]
        rw [hk] at hpos
        omega
      · rw [if_neg hk, Function.update_of_ne (Ne.symm hk)]
        rfl
    · simp only [hnone]
      rw [ih]
      by_cases hk : key x = k
      · rw [if_pos hk]
        rw [hk] at hzero
        omega
      · rw [if_neg hk, Nat.add_zero]

/-- What is left beyond the count of each key. -/
theorem mult_keepUnmatched (key : α → κ) (k : κ) (counts : κ → ℕ) (xs : List α) :
    mult key k (keepUnmatched key counts xs) = mult key k xs - counts k := by
  induction xs generalizing counts with
  | nil => simp [keepUnmatched]
  | cons x xs ih =>
    rw [keepUnmatched, mult_cons]
    rcases consume_cases key counts x with ⟨hpos, hsome⟩ | ⟨hzero, hnone⟩
    · simp only [hsome]
      rw [ih]
      by_cases hk : key x = k
      · rw [if_pos hk, hk, Function.update_self]
        rw [hk] at hpos
        omega
      · rw [if_neg hk, Function.update_of_ne (Ne.symm hk), Nat.add_zero]
    · simp only [hnone]
      rw [mult_cons, ih]
      by_cases hk : key x = k
      · rw [if_pos hk]
        rw [hk] at hzero
        omega
      · rw [if_neg hk, Nat.add_zero, Nat.add_zero]

theorem keepMatched_sublist (key : α → κ) (counts : κ → ℕ) (xs : List α) :
    (keepMatched key counts xs).Sublist xs := by
  induction xs generalizing counts with
  | nil => exact List.Sublist.slnil
  | cons x xs ih =>
    rw [keepMatched]
    split
    · exact (ih _).cons_cons x
    · exact (ih _).cons x

theorem keepUnmatched_sublist (key : α → κ) (counts : κ → ℕ) (xs : List α) :
    (keepUnmatched key counts xs).Sublist xs := by
  induction xs generalizing counts with
  | nil => exact List.Sublist.slnil
  | cons x xs ih =>
    rw [keepUnmatched]
    split
    · exact (ih _).cons x
    · exact (ih _).cons_cons x

variable (key)

/-! ## Groups -/

/-- Appends an element to the group of its key, which may be new. -/
def addToGroup (x : α) : List (κ × List α) → List (κ × List α)
  | [] => [(key x, [x])]
  | (k, members) :: groups =>
    if k = key x then (k, members ++ [x]) :: groups else (k, members) :: addToGroup x groups

def groupBy (xs : List α) : List (κ × List α) :=
  xs.foldl (fun groups x => addToGroup key x groups) []

variable {key}

theorem keys_addToGroup (x : α) (groups : List (κ × List α)) :
    (addToGroup key x groups).map Prod.fst =
      if key x ∈ groups.map Prod.fst then groups.map Prod.fst
      else groups.map Prod.fst ++ [key x] := by
  induction groups with
  | nil => simp [addToGroup]
  | cons g groups ih =>
    obtain ⟨k', members⟩ := g
    rw [addToGroup]
    by_cases hk : k' = key x
    · simp [hk]
    · rw [if_neg hk, List.map_cons, ih, List.map_cons]
      have hmem : key x ∈ k' :: groups.map Prod.fst ↔ key x ∈ groups.map Prod.fst := by
        rw [List.mem_cons, or_iff_right (Ne.symm hk)]
      simp only [hmem]
      split
      · rfl
      · rfl

/-- A group of distinct keys takes an element to the group of its key only. -/
theorem mem_addToGroup {x : α} {groups : List (κ × List α)}
    (hnodup : (groups.map Prod.fst).Nodup) {members : List α} :
    (k, members) ∈ addToGroup key x groups ↔
      if k = key x then
        (∃ old, (k, old) ∈ groups ∧ members = old ++ [x]) ∨
          (k ∉ groups.map Prod.fst ∧ members = [x])
      else (k, members) ∈ groups := by
  induction groups with
  | nil =>
    by_cases hk : k = key x
    · simp [addToGroup, hk]
    · simp [addToGroup, hk]
  | cons g groups ih =>
    obtain ⟨k', old⟩ := g
    rw [List.map_cons, List.nodup_cons] at hnodup
    rw [addToGroup]
    by_cases hk' : k' = key x
    · rw [if_pos hk']
      by_cases hk : k = key x
      · have hnot (rest : List α) : (k, rest) ∉ groups := fun hmem => by
          refine hnodup.1 (List.mem_map.2 ⟨(k, rest), hmem, ?_⟩)
          exact hk.trans hk'.symm
        rw [if_pos hk]
        simp only [List.mem_cons, Prod.mk.injEq, hk, hk', true_and, List.map_cons,
          true_or, not_true, false_and, or_false]
        rw [hk] at hnot
        simp [hnot]
      · rw [if_neg hk]
        simp only [List.mem_cons, Prod.mk.injEq]
        rw [hk']
        simp [hk]
    · rw [if_neg hk', List.mem_cons, ih hnodup.2]
      by_cases hk : k = key x
      · rw [if_pos hk, if_pos hk]
        have hne : k ≠ k' := fun h => hk' (h ▸ hk)
        simp [hne]
      · rw [if_neg hk, if_neg hk, List.mem_cons]

theorem groupBy_snoc (xs : List α) (x : α) :
    groupBy key (xs ++ [x]) = addToGroup key x (groupBy key xs) := by
  rw [groupBy, List.foldl_append]
  rfl

theorem keys_groupBy_nodup (xs : List α) : ((groupBy key xs).map Prod.fst).Nodup := by
  induction xs using List.reverseRecOn with
  | nil => exact List.nodup_nil
  | append_singleton xs x ih =>
    rw [groupBy_snoc, keys_addToGroup]
    split
    · exact ih
    · rename_i hnew
      exact List.nodup_append.2 ⟨ih, List.nodup_singleton _, fun k hk k' hk' hsame =>
        hnew (by rw [List.mem_singleton.1 hk'] at hsame; exact hsame ▸ hk)⟩

/-- One group for each key that occurs, with all elements of that key in their order. -/
theorem mem_groupBy {xs : List α} {members : List α} :
    (k, members) ∈ groupBy key xs ↔
      (∃ x ∈ xs, key x = k) ∧ members = xs.filter fun x => key x = k := by
  induction xs using List.reverseRecOn generalizing k members with
  | nil => simp [groupBy]
  | append_singleton xs x ih =>
    rw [groupBy_snoc, mem_addToGroup (keys_groupBy_nodup xs)]
    have hkeys : k ∈ (groupBy key xs).map Prod.fst ↔ ∃ x ∈ xs, key x = k := by
      rw [List.mem_map]
      constructor
      · rintro ⟨⟨k', old⟩, hmem, rfl⟩
        exact (ih.1 hmem).1
      · intro hex
        exact ⟨(k, _), ih.2 ⟨hex, rfl⟩, rfl⟩
    by_cases hk : k = key x
    · rw [if_pos hk, List.filter_append, List.filter_cons_of_pos (by simp [hk]),
        List.filter_nil, hkeys]
      have hexists : ∃ y ∈ xs ++ [x], key y = k :=
        ⟨x, List.mem_append_right _ (List.mem_singleton_self x), hk.symm⟩
      rw [and_iff_right hexists]
      by_cases hold : ∃ y ∈ xs, key y = k
      · constructor
        · rintro (⟨old, hmem, rfl⟩ | ⟨hnot, -⟩)
          · rw [(ih.1 hmem).2]
          · exact absurd hold hnot
        · rintro rfl
          exact .inl ⟨_, ih.2 ⟨hold, rfl⟩, rfl⟩
      · have hnone : (xs.filter fun y => key y = k) = [] := by
          refine List.filter_eq_nil_iff.2 fun y hy hyk => ?_
          exact hold ⟨y, hy, of_decide_eq_true hyk⟩
        rw [hnone, List.nil_append]
        constructor
        · rintro (⟨old, hmem, -⟩ | ⟨-, hmembers⟩)
          · exact absurd (ih.1 hmem).1 hold
          · exact hmembers
        · intro hmembers
          exact .inr ⟨hold, hmembers⟩
    · rw [if_neg hk, ih, List.filter_append, List.filter_cons_of_neg (by simp [Ne.symm hk]),
        List.filter_nil, List.append_nil]
      have hmem : (∃ y ∈ xs ++ [x], key y = k) ↔ ∃ y ∈ xs, key y = k := by
        simp [Ne.symm hk]
      rw [hmem]

end Docsql.Lib.KeyedBag
