import Mathlib.Logic.Function.Basic
import Mathlib.Order.WellFounded
import Mathlib.Tactic

/-!
# References without cycles

Some nodes refer to others.  That no node leads back to itself is kept when nodes go, and
when a node gets new references that stay in a set of nodes which is closed and does not
hold it.
-/

namespace Docsql.Lib.RefGraph

variable {ι : Type*} {f g : ι → Option (List ι)}

/-- `v` refers to `w`. -/
def Edge (f : ι → Option (List ι)) (w v : ι) : Prop := ∃ refs, f v = some refs ∧ w ∈ refs

def Acyclic (f : ι → Option (List ι)) : Prop := WellFounded (Edge f)

/-- No node of the set leads out of it. -/
def Closed (f : ι → Option (List ι)) (C : Set ι) : Prop := ∀ v ∈ C, ∀ w, Edge f w v → w ∈ C

theorem Acyclic.mono (h : Acyclic f) (hfg : ∀ v refs, g v = some refs → f v = some refs) :
    Acyclic g := by
  refine Subrelation.wf ?_ h
  rintro w v ⟨refs, hrefs, hw⟩
  exact ⟨refs, hfg v refs hrefs, hw⟩

theorem acyclic_none : Acyclic fun _ : ι => none := by
  refine ⟨fun v => ⟨v, ?_⟩⟩
  rintro w ⟨refs, hrefs, -⟩
  cases hrefs

/-- New references of one node. -/
theorem Acyclic.update [DecidableEq ι] (h : Acyclic f) {C : Set ι} (hC : Closed f C) {v : ι}
    (hv : v ∉ C) {refs : List ι} (hrefs : ∀ w ∈ refs, w ∈ C) :
    Acyclic (Function.update f v (some refs)) := by
  have hold {w u : ι} (hu : u ≠ v) (he : Edge (Function.update f v (some refs)) w u) :
      Edge f w u := by
    obtain ⟨l, hl, hw⟩ := he
    rw [Function.update_of_ne hu] at hl
    exact ⟨l, hl, hw⟩
  -- Nodes of the closed set never meet the changed one.
  have hinside (u : ι) (hu : u ∈ C) : Acc (Edge (Function.update f v (some refs))) u := by
    induction u using h.induction with
    | _ u ih =>
      refine ⟨u, fun w he => ?_⟩
      have hne : u ≠ v := fun hu' => hv (hu' ▸ hu)
      exact ih w (hold hne he) (hC u hu w (hold hne he))
  have hchanged : Acc (Edge (Function.update f v (some refs))) v := by
    refine ⟨v, ?_⟩
    rintro w ⟨l, hl, hw⟩
    rw [Function.update_self] at hl
    cases hl
    exact hinside w (hrefs w hw)
  refine ⟨fun u => ?_⟩
  induction u using h.induction with
  | _ u ih =>
    by_cases hu : u = v
    · exact hu ▸ hchanged
    · exact ⟨u, fun w he => ih w (hold hu he)⟩

/-- A node that nothing refers to gets references. -/
theorem Acyclic.insert [DecidableEq ι] (h : Acyclic f) {v : ι} (hfree : ∀ u, ¬Edge f v u)
    {refs : List ι} (hrefs : v ∉ refs) : Acyclic (Function.update f v (some refs)) := by
  refine h.update (C := {w | w ≠ v}) ?_ (fun hv => hv rfl) fun w hw hwv => hrefs (hwv ▸ hw)
  intro u _ w he hwv
  exact hfree u (hwv ▸ he)

end Docsql.Lib.RefGraph
