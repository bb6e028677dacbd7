import Mathlib.Logic.Relation
import Mathlib.Data.List.Nodup

/-!
# Depth-first visits

A traversal that lists each vertex when it enters it and passes over the
vertices listed before.  A finished call closes everything it has added, whatever
it found already listed, so a call from the empty list collects exactly what
can be reached.
-/

namespace DepthFirst

open Relation (ReflTransGen)

variable {α : Type} {r : α → α → Prop} {out mid out' ids xs ys : List α} {id v : α}

/-- The calls for `ids` lead from the listed vertices `out` to `out'`. -/
structure Visits (r : α → α → Prop) (out out' ids : List α) : Prop where
  subset : out ⊆ out'
  nodup : out.Nodup → out'.Nodup
  sound : ∀ v ∈ out', v ∈ out ∨ ∃ id ∈ ids, ReflTransGen r id v
  covers : ids ⊆ out'
  closed : ∀ v ∈ out', v ∉ out → ∀ w, r v w → w ∈ out'

namespace Visits

theorem nil : Visits r out out [] where
  subset := List.Subset.refl out
  nodup h := h
  sound _ hv := .inl hv
  covers := List.nil_subset out
  closed _ hv hnew := absurd hv hnew

theorem seen (h : id ∈ out) : Visits r out out [id] where
  subset := List.Subset.refl out
  nodup h := h
  sound _ hv := .inl hv
  covers := by simpa using h
  closed _ hv hnew := absurd hv hnew

theorem append (hxs : Visits r out mid xs) (hys : Visits r mid out' ys) :
    Visits r out out' (xs ++ ys) where
  subset := List.Subset.trans hxs.subset hys.subset
  nodup h := hys.nodup (hxs.nodup h)
  sound v hv := by
    rcases hys.sound v hv with hmid | ⟨id, hid, hreach⟩
    · rcases hxs.sound v hmid with hout | ⟨id, hid, hreach⟩
      · exact .inl hout
      · exact .inr ⟨id, List.mem_append_left _ hid, hreach⟩
    · exact .inr ⟨id, List.mem_append_right _ hid, hreach⟩
  covers := List.append_subset.mpr ⟨List.Subset.trans hxs.covers hys.subset, hys.covers⟩
  closed v hv hnew w hw := by
    by_cases hmid : v ∈ mid
    · exact hys.subset (hxs.closed v hmid hnew w hw)
    · exact hys.closed v hv hmid w hw

/-- Enter a vertex and then visit its successors. -/
theorem enter (hid : id ∉ out) (hr : ∀ w, r id w ↔ w ∈ ids)
    (h : Visits r (out ++ [id]) out' ids) : Visits r out out' [id] where
  subset := List.Subset.trans (List.subset_append_left out [id]) h.subset
  nodup hout := by
    apply h.nodup
    rw [← List.concat_eq_append]
    exact hout.concat hid
  sound v hv := by
    rcases h.sound v hv with hold | ⟨child, hchild, hreach⟩
    · rcases List.mem_append.mp hold with hout | hout
      · exact .inl hout
      · rw [List.mem_singleton.mp hout]
        exact .inr ⟨id, List.mem_singleton_self id, .refl⟩
    · exact .inr ⟨id, List.mem_singleton_self id, .head ((hr child).mpr hchild) hreach⟩
  covers := by
    have := h.subset (List.mem_append_right _ (List.mem_singleton_self id))
    simpa using this
  closed v hv hnew w hw := by
    by_cases heq : v = id
    · rw [heq] at hw
      exact h.covers ((hr w).mp hw)
    · apply h.closed v hv _ w hw
      intro hold
      rcases List.mem_append.mp hold with hout | hout
      · exact hnew hout
      · exact heq (List.mem_singleton.mp hout)

/-- A traversal from nothing lists each reachable vertex once. -/
theorem reachable {root : α} (h : Visits r [] out [root]) :
    out.Nodup ∧ ∀ v, v ∈ out ↔ ReflTransGen r root v := by
  refine ⟨h.nodup List.nodup_nil, fun v => ⟨?_, ?_⟩⟩
  · intro hv
    rcases h.sound v hv with hnil | ⟨id, hid, hreach⟩
    · cases hnil
    · rwa [List.mem_singleton.mp hid] at hreach
  · intro hreach
    induction hreach with
    | refl => exact h.covers (List.mem_singleton_self root)
    | tail _ hstep ih => exact h.closed _ ih List.not_mem_nil _ hstep

end Visits

end DepthFirst
