import Docsql.Index.Meta

/-!
# A heap in a list

The calls of a document heap on a list of documents with their locators.  No
document ever moves.
-/

namespace Docsql.Index

open Heap (applyMoves)

/-- Documents under distinct locators. -/
def ListHeap (Doc : Type) := {live : List (ℕ × Doc) // (live.map Prod.fst).Nodup}

namespace ListHeap

variable {Doc : Type}

def fresh (h : ListHeap Doc) : ℕ := (h.1.map Prod.fst).foldr max 0 + 1

theorem le_foldr_max {locs : List ℕ} {loc : ℕ} (h : loc ∈ locs) : loc ≤ locs.foldr max 0 := by
  induction locs with
  | nil => cases h
  | cons x locs ih =>
    rw [List.foldr_cons]
    rcases List.mem_cons.mp h with rfl | h
    · exact Nat.le_max_left _ _
    · exact (ih h).trans (Nat.le_max_right _ _)

theorem fresh_notMem (h : ListHeap Doc) : h.fresh ∉ h.1.map Prod.fst := by
  intro hmem
  have hle := le_foldr_max hmem
  unfold fresh at hle
  omega

def without (h : ListHeap Doc) (locs : List ℕ) : ListHeap Doc :=
  ⟨h.1.filter fun e => e.1 ∉ locs, h.2.sublist (List.filter_sublist.map _)⟩

def put (h : ListHeap Doc) (loc : ℕ) (doc : Doc) (hloc : loc ∉ h.1.map Prod.fst) : ListHeap Doc :=
  ⟨h.1 ++ [(loc, doc)], by
    rw [List.map_append]
    exact h.2.append (List.nodup_singleton _) (by simpa using hloc)⟩

theorem without_notMem (h : ListHeap Doc) (loc : ℕ) : loc ∉ (h.without [loc]).1.map Prod.fst := by
  intro hmem
  obtain ⟨e, he, rfl⟩ := List.mem_map.mp hmem
  have hne := (List.mem_filter.mp he).2
  simp at hne

/-- With no moves, what is carried is what is not gone. -/
theorem carry_nil (gone : List ℕ) (live : List (ℕ × Doc)) :
    carry gone [] live = live.filter fun e => e.1 ∉ gone := by
  unfold carry
  have hid : (fun e : ℕ × Doc => (applyMoves [] e.1, e.2)) = id := by
    funext e
    rfl
  rw [hid, List.map_id]

theorem orderly_nil (gone : List ℕ) : Orderly gone [] :=
  ⟨List.nodup_nil, List.Pairwise.nil, by simp⟩

end ListHeap

open ListHeap in
def listHeap (Doc : Type) : DocHeap Doc (ListHeap Doc) where
  live h := h.1
  insert doc h := .ok (h.fresh, h.put h.fresh doc h.fresh_notMem)
  replace loc doc h := .ok (⟨loc, []⟩, (h.without [loc]).put loc doc (h.without_notMem loc))
  removeMany locs h := .ok ([], h.without locs)
  reset _ := ⟨[], List.nodup_nil⟩
  distinct h := h.2
  insert_live := by
    intro doc h loc h' hrun
    cases hrun
    exact List.perm_append_singleton _ _
  replace_live := by
    intro loc doc h out h' _ hrun
    cases hrun
    refine ⟨?_, orderly_nil _⟩
    rw [carry_nil]
    exact List.perm_append_singleton _ _
  removeMany_live := by
    intro locs h moves h' _ hrun
    cases hrun
    refine ⟨?_, orderly_nil _⟩
    rw [carry_nil]
    exact List.Perm.refl _
  reset_live _ := rfl

end Docsql.Index
