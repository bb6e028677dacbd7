import Mathlib.Data.Set.Function
import Mathlib.Tactic

/-!
# Computations that look values up

A computation over a table of values that may fail.  `OnlyOn S m Q` says that what
`m` does is settled by the values at the keys in `S`, and that its results satisfy
`Q`: two tables that agree on `S` cannot be told apart by it.  `Related R m m'` says
that `m` and `m'` fail alike on every table, and else have results related by `R`.
-/

/-- Computations that look up values by key. -/
abbrev Lookup (ι V ε : Type) := ReaderT (ι → V) (Except ε)

namespace Lookup

variable {ι V ε α β : Type} {S : Set ι}

/-- The value at a key. -/
def ask (k : ι) : Lookup ι V ε V := fun db => .ok (db k)

/-- A computation without lookups. -/
def lift (x : Except ε α) : Lookup ι V ε α := fun _ => x

/-- Settled by the values at the keys in `S`, with results in `Q`. -/
structure OnlyOn (S : Set ι) (m : Lookup ι V ε α) (Q : α → Prop) : Prop where
  agree : ∀ db db' : ι → V, Set.EqOn db db' S → m db = m db'
  result : ∀ db a, m db = .ok a → Q a

theorem bind_apply (m : Lookup ι V ε α) (f : α → Lookup ι V ε β) (db : ι → V) :
    (m >>= f) db = match m db with
      | .ok a => f a db
      | .error e => .error e := by
  show (do let a ← m db; f a db : Except ε β) = _
  cases m db <;> rfl

namespace OnlyOn

variable {m : Lookup ι V ε α} {f : α → Lookup ι V ε β} {Q Q' : α → Prop} {R : β → Prop}

theorem pure {a : α} (h : Q a) : OnlyOn S (Pure.pure a : Lookup ι V ε α) Q where
  agree _ _ _ := rfl
  result _ b hb := by
    cases hb
    exact h

theorem throw (e : ε) : OnlyOn S (MonadExcept.throw e : Lookup ι V ε α) Q where
  agree _ _ _ := rfl
  result _ b hb := by cases hb

theorem lift {x : Except ε α} (h : ∀ a, x = .ok a → Q a) :
    OnlyOn S (Lookup.lift x : Lookup ι V ε α) Q where
  agree _ _ _ := rfl
  result _ a ha := h a ha

theorem ask {k : ι} (h : k ∈ S) : OnlyOn S (Lookup.ask k : Lookup ι V ε V) fun _ => True where
  agree _ _ hdb := congrArg Except.ok (hdb h)
  result _ _ _ := trivial

theorem mono (h : OnlyOn S m Q) (hQ : ∀ a, Q a → Q' a) : OnlyOn S m Q' where
  agree := h.agree
  result db a ha := hQ a (h.result db a ha)

theorem bind (hm : OnlyOn S m Q) (hf : ∀ a, Q a → OnlyOn S (f a) R) : OnlyOn S (m >>= f) R where
  agree db db' hdb := by
    rw [bind_apply, bind_apply, ← hm.agree db db' hdb]
    cases hrun : m db with
    | error e => rfl
    | ok a => exact (hf a (hm.result db a hrun)).agree db db' hdb
  result db b hb := by
    rw [bind_apply] at hb
    cases hrun : m db with
    | error e =>
      rw [hrun] at hb
      cases hb
    | ok a =>
      rw [hrun] at hb
      exact (hf a (hm.result db a hrun)).result db b hb

/-- A step whose result no condition is needed of. -/
theorem andThen (hm : OnlyOn S m fun _ => True) (hf : ∀ a, OnlyOn S (f a) R) :
    OnlyOn S (m >>= f) R := hm.bind fun a _ => hf a

theorem map {g : α → β} (hm : OnlyOn S m Q) (hg : ∀ a, Q a → R (g a)) : OnlyOn S (g <$> m) R := by
  rw [map_eq_pure_bind]
  exact hm.bind fun a ha => .pure (hg a ha)

theorem mapM {l : List α} {g : α → Lookup ι V ε β} (h : ∀ x ∈ l, OnlyOn S (g x) R) :
    OnlyOn S (l.mapM g) fun ys => ∀ y ∈ ys, R y := by
  induction l with
  | nil =>
    rw [List.mapM_nil]
    exact .pure fun y hy => absurd hy List.not_mem_nil
  | cons x l ih =>
    rw [List.mapM_cons]
    refine (h x List.mem_cons_self).bind fun y hy => ?_
    refine (ih fun x' hx' => h x' (List.mem_cons_of_mem _ hx')).bind fun ys hys => ?_
    exact .pure (List.forall_mem_cons.2 ⟨hy, hys⟩)

theorem foldlM {l : List α} {g : β → α → Lookup ι V ε β} {b : β} (hb : R b)
    (h : ∀ b, R b → ∀ x ∈ l, OnlyOn S (g b x) R) : OnlyOn S (l.foldlM g b) R := by
  induction l generalizing b with
  | nil =>
    rw [List.foldlM_nil]
    exact .pure hb
  | cons x l ih =>
    rw [List.foldlM_cons]
    refine (h b hb x List.mem_cons_self).bind fun b' hb' => ?_
    exact ih hb' fun b'' hb'' x' hx' => h b'' hb'' x' (List.mem_cons_of_mem _ hx')

end OnlyOn

/-! ## Two computations side by side -/

/-- The same failure, or results in `R`. -/
inductive Outcomes (R : α → β → Prop) : Except ε α → Except ε β → Prop where
  | ok {a : α} {b : β} (h : R a b) : Outcomes R (.ok a) (.ok b)
  | error (e : ε) : Outcomes R (.error e) (.error e)

theorem Outcomes.mono {R R' : α → β → Prop} {x : Except ε α} {y : Except ε β}
    (hxy : Outcomes R x y) (h : ∀ a b, R a b → R' a b) : Outcomes R' x y := by
  cases hxy with
  | ok hab => exact .ok (h _ _ hab)
  | error e => exact .error e

theorem Outcomes.eq {Q : α → Prop} {x y : Except ε α}
    (h : Outcomes (fun a b => a = b ∧ Q a) x y) : x = y := by
  cases h with
  | ok hab => rw [hab.1]
  | error e => rfl

def Related (R : α → β → Prop) (m : Lookup ι V ε α) (m' : Lookup ι V ε β) : Prop :=
  ∀ db, Outcomes R (m db) (m' db)

/-- The same outcome, with results in `Q`. -/
abbrev Same (Q : α → Prop) (m m' : Lookup ι V ε α) : Prop :=
  Related (fun a b => a = b ∧ Q a) m m'

namespace Related

variable {α' β' : Type} {R : α → α' → Prop} {T : β → β' → Prop} {m : Lookup ι V ε α}
  {m' : Lookup ι V ε α'} {f : α → Lookup ι V ε β} {f' : α' → Lookup ι V ε β'}

theorem pure {a : α} {a' : α'} (h : R a a') :
    Related R (Pure.pure a : Lookup ι V ε α) (Pure.pure a') := fun _ => .ok h

theorem throw (e : ε) :
    Related R (MonadExcept.throw e : Lookup ι V ε α) (MonadExcept.throw e) := fun _ => .error e

theorem bind (hm : Related R m m') (hf : ∀ a a', R a a' → Related T (f a) (f' a')) :
    Related T (m >>= f) (m' >>= f') := by
  intro db
  rw [bind_apply, bind_apply]
  have hdb := hm db
  revert hdb
  generalize m db = x, m' db = x'
  rintro (⟨h⟩ | e)
  · exact hf _ _ h db
  · exact .error e

theorem mono {R' : α → α' → Prop} (hm : Related R m m') (h : ∀ a a', R a a' → R' a a') :
    Related R' m m' := by
  intro db
  exact (hm db).mono h

theorem foldlM {γ : Type} {l : List γ} {g : α → γ → Lookup ι V ε α} {g' : α' → γ → Lookup ι V ε α'}
    {a : α} {a' : α'} (ha : R a a')
    (h : ∀ a a', R a a' → ∀ x ∈ l, Related R (g a x) (g' a' x)) :
    Related R (l.foldlM g a) (l.foldlM g' a') := by
  induction l generalizing a a' with
  | nil => exact .pure ha
  | cons x l ih =>
    rw [List.foldlM_cons, List.foldlM_cons]
    refine (h a a' ha x List.mem_cons_self).bind fun b b' hb => ?_
    exact ih hb fun c c' hc y hy => h c c' hc y (List.mem_cons_of_mem x hy)

end Related

namespace Same

variable {Q Q' : α → Prop} {R : β → Prop} {m m' : Lookup ι V ε α} {f f' : α → Lookup ι V ε β}

theorem pure {a : α} (h : Q a) : Same Q (Pure.pure a : Lookup ι V ε α) (Pure.pure a) :=
  Related.pure ⟨rfl, h⟩

theorem refl (m : Lookup ι V ε α) : Same (fun _ => True) m m := by
  intro db
  cases m db with
  | ok a => exact .ok ⟨rfl, trivial⟩
  | error e => exact .error e

theorem bind (hm : Same Q m m') (hf : ∀ a, Q a → Same R (f a) (f' a)) :
    Same R (m >>= f) (m' >>= f') :=
  Related.bind hm fun a _ h => h.1 ▸ hf a h.2

/-- A step both take. -/
theorem andThen (m : Lookup ι V ε α) (hf : ∀ a, Same R (f a) (f' a)) :
    Same R (m >>= f) (m >>= f') := (refl m).bind fun a _ => hf a

theorem mono (hm : Same Q m m') (h : ∀ a, Q a → Q' a) : Same Q' m m' :=
  Related.mono hm fun _ _ hr => ⟨hr.1, h _ hr.2⟩

theorem eq (hm : Same Q m m') : m = m' := funext fun db => (hm db).eq

theorem map {g : α → β} (hm : Same Q m m') (hg : ∀ a, Q a → R (g a)) :
    Same R (g <$> m) (g <$> m') := by
  rw [map_eq_pure_bind, map_eq_pure_bind]
  exact hm.bind fun a ha => .pure (hg a ha)

theorem mapM {l : List α} {g g' : α → Lookup ι V ε β} (h : ∀ x ∈ l, Same R (g x) (g' x)) :
    Same (fun ys => ∀ y ∈ ys, R y) (l.mapM g) (l.mapM g') := by
  induction l with
  | nil =>
    rw [List.mapM_nil, List.mapM_nil]
    exact .pure fun y hy => absurd hy List.not_mem_nil
  | cons x l ih =>
    rw [List.mapM_cons, List.mapM_cons]
    refine (h x List.mem_cons_self).bind fun y hy => ?_
    refine Same.bind (ih fun x' hx' => h x' (List.mem_cons_of_mem _ hx')) fun ys hys => ?_
    exact .pure (List.forall_mem_cons.2 ⟨hy, hys⟩)

end Same

end Lookup
