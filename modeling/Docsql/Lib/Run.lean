import Mathlib.Data.List.Induction

/-!
# Conditions on the steps of a run

A property holds in every state of a run when each step meets a condition that
keeps an invariant.  Where the condition is also needed, the two are equivalent.
-/

namespace Docsql.Lib.Run

variable {σ ε : Type*} {step : σ → ε → σ} {init : σ} {Inv Good : σ → Prop}
  {F : σ → ε → Prop}

theorem foldl_snoc (done : List ε) (e : ε) :
    (done ++ [e]).foldl step init = step (done.foldl step init) e :=
  List.foldl_append

/-- The invariant along a run whose steps all fit. -/
theorem inv_of_fit (hinit : Inv init) (hstep : ∀ s e, Inv s → F s e → Inv (step s e))
    {events : List ε}
    (hfit : ∀ done e, done ++ [e] <+: events → F (done.foldl step init) e)
    {done : List ε} (hdone : done <+: events) : Inv (done.foldl step init) := by
  induction done using List.reverseRecOn with
  | nil => exact hinit
  | append_singleton done e ih =>
    have hshorter : done <+: events := (List.prefix_append done [e]).trans hdone
    rw [foldl_snoc]
    exact hstep _ e (ih hshorter) (hfit done e hdone)

/-- Each step fits as long as the property is needed to hold after it. -/
theorem fit_iff_good (hinit : Inv init)
    (hstep : ∀ s e, Inv s → F s e → Inv (step s e)) (hgood : ∀ s, Inv s → Good s)
    (hneeded : ∀ s e, Inv s → Good (step s e) → F s e) (events : List ε) :
    (∀ done e, done ++ [e] <+: events → F (done.foldl step init) e) ↔
      ∀ done, done <+: events → Good (done.foldl step init) := by
  constructor
  · intro hfit done hdone
    exact hgood _ (inv_of_fit hinit hstep hfit hdone)
  · intro hall done e hdone
    have hshorter : done <+: events := (List.prefix_append done [e]).trans hdone
    have hafter : ∀ done e, done ++ [e] <+: events → Good (step (done.foldl step init) e) := by
      intro done e h
      have hdone := hall _ h
      rwa [foldl_snoc] at hdone
    have hinv : Inv (done.foldl step init) :=
      inv_of_fit hinit (fun s e hs hg => hstep s e hs (hneeded s e hs hg)) hafter hshorter
    exact hneeded _ e hinv (hafter done e hdone)

/-- The condition along the steps that are left. -/
def Fits (step : σ → ε → σ) (F : σ → ε → Prop) : σ → List ε → Prop
  | _, [] => True
  | s, e :: rest => F s e ∧ Fits step F (step s e) rest

theorem Fits.at_prefix {s : σ} {events : List ε} (h : Fits step F s events) :
    ∀ done e, done ++ [e] <+: events → F (done.foldl step s) e := by
  induction events generalizing s with
  | nil =>
    intro done e hdone
    simp at hdone
  | cons first rest ih =>
    intro done e hdone
    cases done with
    | nil =>
      obtain ⟨rfl, -⟩ := List.cons_prefix_cons.mp hdone
      exact h.1
    | cons head tail =>
      obtain ⟨rfl, htail⟩ := List.cons_prefix_cons.mp hdone
      exact ih h.2 tail e htail

end Docsql.Lib.Run
