import Mathlib.Data.List.Dedup
import Mathlib.Logic.Function.Basic

/-!
# Undo journals

A journal holds the images that a store has to be given back, oldest first.  The
first write to a place records its image, and a savepoint records the image of
every place recorded so far, so that the part of the journal behind the
savepoint is enough to return to it.
-/

namespace UndoJournal

variable {K V : Type} [DecidableEq K]

/-- The journal for a write to `k`. -/
def record (db : K → V) (j : List (K × V)) (k : K) : List (K × V) :=
  if k ∈ j.map Prod.fst then j else j ++ [(k, db k)]

def savepoint (db : K → V) (j : List (K × V)) : List (K × V) :=
  j ++ (j.map Prod.fst).dedup.map fun k => (k, db k)

/-- The images are put back, the newest first. -/
def replay : List (K × V) → (K → V) → K → V
  | [], db => db
  | (k, v) :: j, db => Function.update (replay j db) k v

/-- What the journal records from `mark` on leads back to `base`. -/
structure Covers (base : K → V) (mark : ℕ) (j : List (K × V)) (db : K → V) : Prop where
  within : mark ≤ j.length
  again : ∀ k ∈ (j.take mark).map Prod.fst, k ∈ (j.drop mark).map Prod.fst
  image : ∀ e ∈ j.drop mark, e.2 = base e.1
  same : ∀ k, k ∉ (j.drop mark).map Prod.fst → db k = base k

variable {base db : K → V} {mark : ℕ} {j : List (K × V)} {k : K}

omit [DecidableEq K] in
theorem covers_start : Covers base 0 ([] : List (K × V)) base :=
  ⟨Nat.le_refl 0, by simp, by simp, fun _ _ => rfl⟩

theorem covers_savepoint : Covers db j.length (savepoint db j) db := by
  have htail : (savepoint db j).drop j.length =
      (j.map Prod.fst).dedup.map fun k => (k, db k) := by
    rw [savepoint, List.drop_append_of_le_length (Nat.le_refl _), List.drop_length,
      List.nil_append]
  refine ⟨by simp [savepoint], ?_, ?_, fun _ _ => rfl⟩
  · intro k hk
    rw [savepoint, List.take_append_of_le_length (Nat.le_refl _), List.take_length] at hk
    rw [htail, List.map_map]
    exact List.mem_map.mpr ⟨k, List.mem_dedup.mpr hk, rfl⟩
  · intro e he
    rw [htail] at he
    obtain ⟨k, -, rfl⟩ := List.mem_map.mp he
    rfl

namespace Covers

omit [DecidableEq K] in
theorem mem_iff (h : Covers base mark j db) :
    k ∈ j.map Prod.fst ↔ k ∈ (j.drop mark).map Prod.fst := by
  constructor
  · intro hk
    rw [← List.take_append_drop mark j, List.map_append, List.mem_append] at hk
    exact hk.elim (h.again k) id
  · intro hk
    exact ((List.drop_sublist mark j).map Prod.fst).subset hk

/-- A write that is recorded first. -/
theorem write (h : Covers base mark j db) (k : K) (v : V) :
    Covers base mark (record db j k) (Function.update db k v) := by
  by_cases hk : k ∈ j.map Prod.fst
  · rw [record, if_pos hk]
    refine ⟨h.within, h.again, h.image, fun x hx => ?_⟩
    have hne : x ≠ k := fun heq => hx (heq ▸ h.mem_iff.mp hk)
    rw [Function.update_of_ne hne]
    exact h.same x hx
  · have htail : (record db j k).drop mark = j.drop mark ++ [(k, db k)] := by
      rw [record, if_neg hk, List.drop_append_of_le_length h.within]
    have hhead : (record db j k).take mark = j.take mark := by
      rw [record, if_neg hk, List.take_append_of_le_length h.within]
    refine ⟨?_, ?_, ?_, ?_⟩
    · rw [record, if_neg hk, List.length_append]
      exact Nat.le_add_right_of_le h.within
    · intro x hx
      rw [hhead] at hx
      rw [htail, List.map_append]
      exact List.mem_append_left _ (h.again x hx)
    · intro e he
      rw [htail] at he
      rcases List.mem_append.mp he with he | he
      · exact h.image e he
      · rw [List.mem_singleton.mp he]
        exact h.same k fun hmem => hk (h.mem_iff.mpr hmem)
    · intro x hx
      rw [htail, List.map_append, List.mem_append, not_or] at hx
      have hne : x ≠ k := fun heq => hx.2 (by simp [heq])
      rw [Function.update_of_ne hne]
      exact h.same x hx.1

/-- Replaying the part behind the mark gives the store of the mark. -/
theorem replay_eq (h : Covers base mark j db) : replay (j.drop mark) db = base := by
  funext k
  have hgen : ∀ l : List (K × V), (∀ e ∈ l, e.2 = base e.1) →
      (k ∉ l.map Prod.fst → db k = base k) → replay l db k = base k := by
    intro l
    induction l with
    | nil => exact fun _ hsame => hsame (by simp)
    | cons e l ih =>
      obtain ⟨x, v⟩ := e
      intro himage hsame
      rw [replay]
      by_cases hx : k = x
      · rw [hx, Function.update_self]
        exact himage (x, v) List.mem_cons_self
      · rw [Function.update_of_ne hx]
        refine ih (fun e he => himage e (List.mem_cons_of_mem _ he)) fun hnot => hsame ?_
        simpa [hx] using hnot
  exact hgen _ h.image (h.same k)

end Covers

end UndoJournal
