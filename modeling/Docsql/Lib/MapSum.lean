import Mathlib.Algebra.GroupWithZero.Nat
import Mathlib.Data.List.AList
import Mathlib.Algebra.BigOperators.Group.List.Basic

/-!
# Sums over maps

A weight summed over the values of a finite map, and how insertion, removal, filtering and a
change of every value move it.
-/

namespace Docsql.Lib

variable {K V W : Type}

/-- A finite map. -/
abbrev FinMap (K V : Type) := AList fun _ : K => V

namespace FinMap

/-- The weights of the values together. -/
def sum (weight : V → ℕ) (m : FinMap K V) : ℕ := (m.entries.map fun e => weight e.2).sum

/-- The entries whose value passes. -/
def retain (keep : V → Bool) (m : FinMap K V) : FinMap K V :=
  ⟨m.entries.filter fun e => keep e.2, m.nodupKeys.sublist List.filter_sublist⟩

/-- A change of every value. -/
def mapValues (f : V → W) (m : FinMap K V) : FinMap K W where
  entries := m.entries.map fun e => ⟨e.1, f e.2⟩
  nodupKeys := by
    have hkeys : List.keys (m.entries.map fun e => (⟨e.1, f e.2⟩ : Sigma fun _ : K => W)) =
        m.keys := by
      rw [List.keys, List.map_map]
      rfl
    rw [List.NodupKeys, hkeys]
    exact m.keys_nodup

@[simp] theorem sum_empty (weight : V → ℕ) : sum weight (∅ : FinMap K V) = 0 := rfl

theorem sum_filter {weight : V → ℕ} {keep : V → Bool} (h : ∀ v, keep v = false → weight v = 0)
    (l : List (Sigma fun _ : K => V)) :
    ((l.filter fun e => keep e.2).map fun e => weight e.2).sum =
      (l.map fun e => weight e.2).sum := by
  induction l with
  | nil => rfl
  | cons e l ih =>
    rw [List.map_cons, List.sum_cons, List.filter_cons]
    cases hkeep : keep e.2 with
    | true => rw [if_pos rfl, List.map_cons, List.sum_cons, ih]
    | false => rw [if_neg Bool.false_ne_true, ih, h _ hkeep, Nat.zero_add]

theorem sum_retain {weight : V → ℕ} {keep : V → Bool} (h : ∀ v, keep v = false → weight v = 0)
    (m : FinMap K V) : sum weight (m.retain keep) = sum weight m :=
  sum_filter h m.entries

theorem sum_mapValues (f : V → W) (weight : W → ℕ) (m : FinMap K V) :
    sum weight (m.mapValues f) = sum (fun v => weight (f v)) m := by
  rw [sum, mapValues, List.map_map]
  rfl

variable [DecidableEq K]

/-- The weight of the value at a key. -/
def weightAt (weight : V → ℕ) (k : K) (m : FinMap K V) : ℕ := ((m.lookup k).map weight).getD 0

variable (weight : V → ℕ) (m : FinMap K V) (k : K) (v : V)

theorem sum_kerase (l : List (Sigma fun _ : K => V)) :
    ((l.kerase k).map fun e => weight e.2).sum + ((l.dlookup k).map weight).getD 0 =
      (l.map fun e => weight e.2).sum := by
  induction l with
  | nil => rfl
  | cons e l ih =>
    by_cases h : k = e.1
    · subst h
      rw [List.kerase_cons_eq rfl, List.dlookup_cons_eq, List.map_cons, List.sum_cons]
      exact Nat.add_comm _ _
    · rw [List.kerase_cons_ne h, List.dlookup_cons_ne _ _ h, List.map_cons, List.map_cons,
        List.sum_cons, List.sum_cons, Nat.add_assoc, ih]

theorem sum_erase : sum weight (m.erase k) + weightAt weight k m = sum weight m :=
  sum_kerase weight k m.entries

theorem sum_insert : sum weight (m.insert k v) + weightAt weight k m = sum weight m + weight v := by
  have h := sum_kerase weight k m.entries
  have hinsert : sum weight (m.insert k v) =
      weight v + ((m.entries.kerase k).map fun e => weight e.2).sum := by
    rw [sum, AList.entries_insert, List.map_cons, List.sum_cons]
  rw [hinsert, Nat.add_assoc]
  exact (congrArg (weight v + ·) h).trans (Nat.add_comm _ _)

end FinMap

end Docsql.Lib
