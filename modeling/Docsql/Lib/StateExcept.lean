import Mathlib.Tactic

/-!
# Fallible computations

Taking a failing sequence of steps apart, and state transformers that keep the
state they had reached: a failed step does not undo the writes before it.
-/

namespace Except

variable {ε α β : Type} {x : Except ε α} {f : α → Except ε β} {a : α} {b : β} {e : ε}

theorem exists_of_bind_eq_ok (h : (x >>= f) = .ok b) : ∃ a, x = .ok a ∧ f a = .ok b := by
  cases x with
  | error e => cases h
  | ok a => exact ⟨a, rfl, h⟩

theorem bind_eq_ok_iff : (x >>= f) = .ok b ↔ ∃ a, x = .ok a ∧ f a = .ok b := by
  refine ⟨exists_of_bind_eq_ok, ?_⟩
  rintro ⟨a, rfl, hf⟩
  exact hf

theorem mapM_eq_ok {xs : List α} {ys : List β} (h : xs.mapM f = .ok ys) :
    List.Forall₂ (fun x y => f x = .ok y) xs ys := by
  induction xs generalizing ys with
  | nil =>
    cases h
    exact .nil
  | cons x xs ih =>
    rw [List.mapM_cons] at h
    obtain ⟨y, hy, h⟩ := exists_of_bind_eq_ok h
    obtain ⟨rest, hrest, h⟩ := exists_of_bind_eq_ok h
    cases h
    exact .cons hy (ih hrest)

theorem exists_of_mapM_eq_ok {xs : List α} {ys : List β} (h : xs.mapM f = .ok ys) {y : β}
    (hy : y ∈ ys) : ∃ x ∈ xs, f x = .ok y := by
  have hall := mapM_eq_ok h
  induction hall with
  | nil => cases hy
  | @cons x y' xs ys hx hrest ih =>
    rcases List.mem_cons.mp hy with rfl | hy
    · exact ⟨x, List.mem_cons_self, hx⟩
    · rw [List.mapM_cons] at h
      obtain ⟨_, -, h⟩ := exists_of_bind_eq_ok h
      obtain ⟨rest, hmap, h⟩ := exists_of_bind_eq_ok h
      cases h
      obtain ⟨x', hx', hf⟩ := ih hmap hy
      exact ⟨x', List.mem_cons_of_mem _ hx', hf⟩

theorem mem_of_mapM_eq_ok {xs : List α} {ys : List β} (h : xs.mapM f = .ok ys) {x : α}
    (hx : x ∈ xs) : ∃ y ∈ ys, f x = .ok y := by
  have hall := mapM_eq_ok h
  clear h
  induction hall with
  | nil => cases hx
  | @cons x' y xs ys hrun _ ih =>
    rcases List.mem_cons.mp hx with rfl | hx
    · exact ⟨y, List.mem_cons_self, hrun⟩
    · obtain ⟨y', hy', hrun'⟩ := ih hx
      exact ⟨y', List.mem_cons_of_mem _ hy', hrun'⟩

theorem mapM_runs {xs : List α} (h : ∀ x ∈ xs, ∃ y, f x = .ok y) :
    ∃ ys, xs.mapM f = .ok ys := by
  induction xs with
  | nil => exact ⟨[], rfl⟩
  | cons x xs ih =>
    obtain ⟨y, hy⟩ := h x List.mem_cons_self
    obtain ⟨ys, hys⟩ := ih fun x' hx' => h x' (List.mem_cons_of_mem _ hx')
    refine ⟨y :: ys, ?_⟩
    rw [List.mapM_cons, hy, hys]
    rfl

theorem bind_eq_error_iff :
    (x >>= f) = .error e ↔ x = .error e ∨ ∃ a, x = .ok a ∧ f a = .error e := by
  cases x with
  | error e' =>
    constructor
    · intro h
      cases h
      exact .inl rfl
    · rintro (h | ⟨_, ha, _⟩)
      · cases h
        rfl
      · cases ha
  | ok a =>
    refine ⟨fun h => .inr ⟨a, rfl, h⟩, ?_⟩
    rintro (h | ⟨_, ha, hf⟩)
    · cases h
    · cases ha
      exact hf

/-- A check that throws, and what follows it. -/
theorem guard_eq_ok {c : Prop} [Decidable c] {rest : Unit → Except ε β}
    (h : (if c then (throw e : Except ε Unit) >>= rest else rest ()) = .ok b) :
    ¬c ∧ rest () = .ok b := by
  by_cases hc : c
  · rw [if_pos hc] at h
    cases h
  · rw [if_neg hc] at h
    exact ⟨hc, h⟩

/-- What every step keeps, a sequence of steps keeps. -/
theorem foldlM_keeps {P : β → Prop} {step : β → α → Except ε β}
    (hstep : ∀ b a b', P b → step b a = .ok b' → P b') {l : List α} {b' : β} (hb : P b)
    (h : l.foldlM step b = .ok b') : P b' := by
  induction l generalizing b with
  | nil =>
    cases h
    exact hb
  | cons a l ih =>
    obtain ⟨c, hc, hrest⟩ := exists_of_bind_eq_ok h
    exact ih (hstep b a c hb hc) hrest

theorem bind_of_ok (h : x = .ok a) : (x >>= f) = f a := by
  rw [h]
  rfl

/-- A loop of checks passes if each of them does. -/
theorem forM_eq_ok_iff {check : α → Except ε Unit} {l : List α} :
    l.forM check = .ok () ↔ ∀ a ∈ l, check a = .ok () := by
  induction l with
  | nil => exact iff_of_true rfl (by simp)
  | cons a l ih =>
    rw [List.forM_eq_forM, List.forM_cons, bind_eq_ok_iff, List.forall_mem_cons]
    constructor
    · rintro ⟨_, ha, hrest⟩
      exact ⟨ha, ih.mp hrest⟩
    · rintro ⟨ha, hrest⟩
      exact ⟨(), ha, ih.mpr hrest⟩

end Except

/-- State transformers that keep their state on failure. -/
def StateExcept (σ ε α : Type) := σ → Except ε α × σ

namespace StateExcept

variable {σ ε α β : Type}

instance : Monad (StateExcept σ ε) where
  pure a := fun s => (.ok a, s)
  bind m f := fun s =>
    match m s with
    | (.ok a, s') => f a s'
    | (.error e, s') => (.error e, s')

instance : MonadExceptOf ε (StateExcept σ ε) where
  throw e := fun s => (.error e, s)
  tryCatch m handle := fun s =>
    match m s with
    | (.ok a, s') => (.ok a, s')
    | (.error e, s') => handle e s'

/-- The current state. -/
def read : StateExcept σ ε σ := fun s => (.ok s, s)

/-- Change the state. -/
def update (f : σ → σ) : StateExcept σ ε Unit := fun s => (.ok (), f s)

/-- The early return of a check. -/
def throwIf (c : Prop) [Decidable c] (e : ε) : StateExcept σ ε Unit :=
  if c then throw e else pure ()

/-- A pure result that may fail. -/
def fromExcept (x : Except ε α) : StateExcept σ ε α := fun s => (x, s)

/-- A loop over a list. -/
def forEach {α : Type} (run : α → StateExcept σ ε Unit) : List α → StateExcept σ ε Unit
  | [] => pure ()
  | a :: rest => do
    run a
    forEach run rest

/-- The same computation with its errors wrapped. -/
def mapError {ε' : Type} (wrap : ε → ε') (m : StateExcept σ ε α) : StateExcept σ ε' α := fun s =>
  match m s with
  | (.ok a, s') => (.ok a, s')
  | (.error e, s') => (.error (wrap e), s')

theorem bind_apply (m : StateExcept σ ε α) (f : α → StateExcept σ ε β) (s : σ) :
    (m >>= f) s = match m s with
      | (.ok a, s') => f a s'
      | (.error e, s') => (.error e, s') := rfl

theorem tryCatch_apply (m : StateExcept σ ε α) (handle : ε → StateExcept σ ε α) (s : σ) :
    tryCatch m handle s = match m s with
      | (.ok a, s') => (.ok a, s')
      | (.error e, s') => handle e s' := rfl

section Run

variable {m : StateExcept σ ε α} {f : α → StateExcept σ ε β} {s s' : σ} {a : α} {e : ε}

theorem bind_ok (h : m s = (.ok a, s')) : (m >>= f) s = f a s' := by
  rw [bind_apply, h]

theorem bind_error (h : m s = (.error e, s')) : (m >>= f) s = (.error e, s') := by
  rw [bind_apply, h]

@[simp] theorem pure_apply (a : α) (s : σ) : (pure a : StateExcept σ ε α) s = (.ok a, s) := rfl

@[simp] theorem throw_apply (e : ε) (s : σ) :
    (throw e : StateExcept σ ε α) s = (.error e, s) := rfl

@[simp] theorem read_bind (g : σ → StateExcept σ ε β) (s : σ) : (read >>= g) s = g s s := rfl

@[simp] theorem update_bind (g : σ → σ) (k : Unit → StateExcept σ ε β) (s : σ) :
    (update g >>= k) s = k () (g s) := rfl

theorem fromExcept_bind {x : Except ε α} (h : x = .ok a) :
    (fromExcept x >>= f) s = f a s := by
  rw [h]
  rfl

theorem throwIf_bind_of_not {c : Prop} [Decidable c] (h : ¬c) (k : Unit → StateExcept σ ε β) :
    (throwIf c e >>= k) s = k () s := by
  rw [throwIf, if_neg h]
  rfl

theorem throwIf_bind {c : Prop} [Decidable c] (h : c) (k : Unit → StateExcept σ ε β) :
    (throwIf c e >>= k) s = (.error e, s) := by
  rw [throwIf, if_pos h]
  rfl

theorem mapError_ok {ε' : Type} (wrap : ε → ε') (h : m s = (.ok a, s')) :
    mapError wrap m s = (.ok a, s') := by
  rw [mapError, h]

theorem mapError_error {ε' : Type} (wrap : ε → ε') (h : m s = (.error e, s')) :
    mapError wrap m s = (.error (wrap e), s') := by
  rw [mapError, h]

theorem bind_eq_ok_iff {b : β} :
    (m >>= f) s = (.ok b, s') ↔ ∃ a s₁, m s = (.ok a, s₁) ∧ f a s₁ = (.ok b, s') := by
  rw [bind_apply]
  rcases hrun : m s with ⟨a | a, s₁⟩
  · simp
  · constructor
    · exact fun h => ⟨a, s₁, rfl, h⟩
    · rintro ⟨a', s₂, h, hrest⟩
      obtain ⟨ha, rfl⟩ := Prod.mk.inj h
      obtain rfl := Except.ok.inj ha
      exact hrest

theorem fromExcept_eq_ok_iff {x : Except ε α} :
    (fromExcept x : StateExcept σ ε α) s = (.ok a, s') ↔ x = .ok a ∧ s' = s := by
  rw [fromExcept, Prod.mk.injEq, eq_comm (a := s)]

theorem fromExcept_bind_eq_ok_iff {x : Except ε α} {b : β} :
    (fromExcept x >>= f) s = (.ok b, s') ↔ ∃ a, x = .ok a ∧ f a s = (.ok b, s') := by
  rw [bind_eq_ok_iff]
  constructor
  · rintro ⟨a, s₁, h, hrest⟩
    obtain ⟨ha, rfl⟩ := fromExcept_eq_ok_iff.mp h
    exact ⟨a, ha, hrest⟩
  · rintro ⟨a, ha, hrest⟩
    exact ⟨a, s, fromExcept_eq_ok_iff.mpr ⟨ha, rfl⟩, hrest⟩

theorem throwIf_bind_eq_ok_iff {c : Prop} [Decidable c] {k : Unit → StateExcept σ ε β} {b : β} :
    (throwIf c e >>= k) s = (.ok b, s') ↔ ¬c ∧ k () s = (.ok b, s') := by
  by_cases h : c
  · rw [throwIf_bind h]
    exact iff_of_false (by simp) fun h' => h'.1 h
  · rw [throwIf_bind_of_not h]
    exact (and_iff_right h).symm

theorem pure_eq_ok_iff {b : α} :
    (pure b : StateExcept σ ε α) s = (.ok a, s') ↔ a = b ∧ s' = s := by
  rw [pure_apply, Prod.mk.injEq, Except.ok.injEq, eq_comm (a := b), eq_comm (a := s)]

theorem forEach_append {run : α → StateExcept σ ε Unit} {xs ys : List α} {s₁ : σ}
    (hxs : forEach run xs s = (.ok (), s₁)) (hys : forEach run ys s₁ = (.ok (), s')) :
    forEach run (xs ++ ys) s = (.ok (), s') := by
  induction xs generalizing s with
  | nil =>
    cases hxs
    exact hys
  | cons x xs ih =>
    obtain ⟨_, s₂, hx, hrest⟩ := bind_eq_ok_iff.mp hxs
    exact bind_eq_ok_iff.mpr ⟨(), s₂, hx, ih hrest⟩

/-- A loop that fails has failed at one element, after the ones before it. -/
theorem forEach_error {run : α → StateExcept σ ε Unit} {xs : List α}
    (h : forEach run xs s = (.error e, s')) :
    ∃ done x rest s₁, xs = done ++ x :: rest ∧ forEach run done s = (.ok (), s₁) ∧
      run x s₁ = (.error e, s') := by
  induction xs generalizing s with
  | nil => cases h
  | cons x xs ih =>
    rw [forEach, bind_apply] at h
    rcases hrun : run x s with ⟨e' | u, s₁⟩
    · rw [hrun] at h
      exact ⟨[], x, xs, s, rfl, rfl, hrun.trans h⟩
    · rw [hrun] at h
      obtain ⟨done, y, rest, s₂, rfl, hdone, hy⟩ := ih h
      exact ⟨x :: done, y, rest, s₂, rfl, bind_eq_ok_iff.mpr ⟨u, s₁, hrun, hdone⟩, hy⟩

end Run

/-! ## Outcomes -/

/-- A success satisfies `post`; a failure happens only under `fail`. -/
structure Ends (m : StateExcept σ ε α) (s : σ) (fail : Prop) (post : α → σ → Prop) : Prop where
  ok : ∀ {a s'}, m s = (.ok a, s') → post a s'
  failed : ∀ {e s'}, m s = (.error e, s') → fail

namespace Ends

variable {m : StateExcept σ ε α} {f : α → StateExcept σ ε β} {s s' : σ} {a : α} {e : ε}
variable {fail : Prop} {post : α → σ → Prop} {post' : β → σ → Prop}

theorem of_ok (h : m s = (.ok a, s')) (hpost : post a s') : Ends m s fail post := by
  refine ⟨?_, ?_⟩
  · intro a' s'' hrun
    rw [h, Prod.mk.injEq, Except.ok.injEq] at hrun
    rwa [← hrun.1, ← hrun.2]
  · intro e s'' hrun
    rw [h] at hrun
    cases hrun

theorem of_error (h : m s = (.error e, s')) (hfail : fail) : Ends m s fail post := by
  refine ⟨?_, fun _ => hfail⟩
  intro a s'' hrun
  rw [h] at hrun
  cases hrun

/-- The run goes on as another one does. -/
theorem of_eq (m' : StateExcept σ ε α) (s' : σ) (heq : m s = m' s') (h : Ends m' s' fail post) :
    Ends m s fail post :=
  ⟨fun hrun => h.ok (heq.symm.trans hrun), fun hrun => h.failed (heq.symm.trans hrun)⟩

theorem bind (h : Ends m s fail post) (hnext : ∀ a s', post a s' → Ends (f a) s' fail post') :
    Ends (m >>= f) s fail post' := by
  match hrun : m s with
  | (.ok a, s') => exact of_eq (f a) s' (bind_ok hrun) (hnext a s' (h.ok hrun))
  | (.error e, s') => exact of_error (bind_error hrun) (h.failed hrun)

theorem after_ok (h : m s = (.ok a, s')) (hnext : Ends (f a) s' fail post') :
    Ends (m >>= f) s fail post' :=
  of_eq (f a) s' (bind_ok h) hnext

theorem after_read {g : σ → StateExcept σ ε β} (h : Ends (g s) s fail post') :
    Ends (read >>= g) s fail post' :=
  of_eq (g s) s (read_bind g s) h

theorem after_check {c : Prop} [Decidable c] {k : Unit → StateExcept σ ε β} (hc : ¬c)
    (h : Ends (k ()) s fail post') : Ends (throwIf c e >>= k) s fail post' :=
  of_eq (k ()) s (throwIf_bind_of_not hc k) h

theorem after_except {x : Except ε α} (hx : x = .ok a) (h : Ends (f a) s fail post') :
    Ends (fromExcept x >>= f) s fail post' :=
  of_eq (f a) s (fromExcept_bind hx) h

theorem mono {fail' : Prop} {post'' : α → σ → Prop} (h : Ends m s fail post)
    (hfail : fail → fail') (hpost : ∀ a s', post a s' → post'' a s') : Ends m s fail' post'' :=
  ⟨fun hrun => hpost _ _ (h.ok hrun), fun hrun => hfail (h.failed hrun)⟩

/-- Two accounts of one run. -/
theorem and {fail' : Prop} {post'' : α → σ → Prop} (h : Ends m s fail post)
    (h' : Ends m s fail' post'') : Ends m s fail fun a s' => post a s' ∧ post'' a s' :=
  ⟨fun hrun => ⟨h.ok hrun, h'.ok hrun⟩, fun hrun => h.failed hrun⟩

/-- Any computation that may fail, with what holds anyway. -/
theorem of_forall {p : Prop} (h : p) : Ends m s True fun _ _ => p :=
  ⟨fun _ => h, fun _ => trivial⟩

theorem succeeds (h : Ends m s fail post) (hfail : ¬fail) :
    ∃ a s', m s = (.ok a, s') ∧ post a s' := by
  match hrun : m s with
  | (.ok a, s') => exact ⟨a, s', rfl, h.ok hrun⟩
  | (.error e, s') => exact absurd (h.failed hrun) hfail

end Ends

/-! ## Which failures are possible -/

/-- A success satisfies `post`, a failure is none of the `bad` ones. -/
def Avoids (m : StateExcept σ ε α) (s : σ) (bad : ε → Prop) (post : α → Prop) : Prop :=
  match (m s).1 with
  | .ok a => post a
  | .error e => ¬bad e

namespace Avoids

variable {m : StateExcept σ ε α} {f : α → StateExcept σ ε β} {s s' : σ} {a : α} {e : ε}
  {bad : ε → Prop} {post : α → Prop} {post' : β → Prop}

theorem of_ok (h : m s = (.ok a, s')) (hpost : post a) : Avoids m s bad post := by
  rwa [Avoids, h]

theorem of_error (h : m s = (.error e, s')) (he : ¬bad e) : Avoids m s bad post := by
  rwa [Avoids, h]

theorem bind (h : Avoids m s bad post) (hnext : ∀ a s', post a → Avoids (f a) s' bad post') :
    Avoids (m >>= f) s bad post' := by
  unfold Avoids at h
  match hrun : m s with
  | (.ok a, s') =>
    rw [hrun] at h
    rw [Avoids, bind_ok hrun]
    exact hnext a s' h
  | (.error e, s') =>
    rw [hrun] at h
    rw [Avoids, bind_error hrun]
    exact h

theorem after_ok (h : m s = (.ok a, s')) (hnext : Avoids (f a) s' bad post') :
    Avoids (m >>= f) s bad post' := by
  rwa [Avoids, bind_ok h]

theorem after_except {x : Except ε α} (hx : x = .ok a) (h : Avoids (f a) s bad post') :
    Avoids (fromExcept x >>= f) s bad post' := by
  rwa [Avoids, fromExcept_bind hx]

/-- The errors of a wrapped run are wrapped. -/
theorem mapError {ε' : Type} {m : StateExcept σ ε' α} {wrap : ε' → ε} (h : ∀ e, ¬bad (wrap e))
    (hpost : ∀ a, post a) : Avoids (StateExcept.mapError wrap m) s bad post := by
  match hrun : m s with
  | (.ok a, s') => exact of_ok (mapError_ok wrap hrun) (hpost a)
  | (.error e, s') => exact of_error (mapError_error wrap hrun) (h e)

/-- Nothing is asked of the first result. -/
theorem after_any (h : Avoids m s bad fun _ => True) (hnext : ∀ a s', Avoids (f a) s' bad post') :
    Avoids (m >>= f) s bad post' :=
  h.bind fun a s' _ => hnext a s'

theorem not_bad (h : Avoids m s bad post) (hrun : (m s).1 = .error e) : ¬bad e := by
  rwa [Avoids, hrun] at h

end Avoids

/-! ## What a run leaves behind -/

/-- Whatever the run returns, the state it leaves satisfies `post`. -/
def Leaves (m : StateExcept σ ε α) (s : σ) (post : σ → Prop) : Prop :=
  post (m s).2

namespace Leaves

variable {m : StateExcept σ ε α} {f : α → StateExcept σ ε β} {s : σ} {post post' : σ → Prop}

theorem pure {a : α} (h : post s) : Leaves (Pure.pure a : StateExcept σ ε α) s post := h

theorem throw {e : ε} (h : post s) :
    Leaves (MonadExcept.throw e : StateExcept σ ε α) s post := h

theorem fromExcept {x : Except ε α} (h : post s) : Leaves (StateExcept.fromExcept x) s post := h

theorem mono (h : Leaves m s post) (himp : ∀ s', post s' → post' s') : Leaves m s post' :=
  himp _ h

/-- A run that stops early has to meet the final condition too. -/
theorem bind (h : Leaves m s post) (hstop : ∀ s', post s' → post' s')
    (hnext : ∀ a s', post s' → Leaves (f a) s' post') : Leaves (m >>= f) s post' := by
  unfold Leaves at h ⊢
  rw [bind_apply]
  rcases hrun : m s with ⟨a | a, s'⟩
  · rw [hrun] at h
    exact hstop s' h
  · rw [hrun] at h
    exact hnext a s' h

theorem assoc {γ : Type} {g : β → StateExcept σ ε γ}
    (h : Leaves (m >>= fun a => f a >>= g) s post) : Leaves ((m >>= f) >>= g) s post := by
  rw [Leaves, bind_apply] at h ⊢
  rw [bind_apply]
  rcases hrun : m s with ⟨a | a, s'⟩
  · rwa [hrun] at h
  · rwa [hrun] at h

theorem after_read {g : σ → StateExcept σ ε β} (h : Leaves (g s) s post') :
    Leaves (read >>= g) s post' := h

theorem after_update {g : σ → σ} {k : Unit → StateExcept σ ε β} (h : Leaves (k ()) (g s) post') :
    Leaves (update g >>= k) s post' := h

theorem after_except {x : Except ε α} (hstop : post' s) (h : ∀ a, Leaves (f a) s post') :
    Leaves (StateExcept.fromExcept x >>= f) s post' := by
  cases x with
  | error e => exact hstop
  | ok a => exact h a

theorem after_check {c : Prop} [Decidable c] {e : ε} {k : Unit → StateExcept σ ε β}
    (hstop : post' s) (h : ¬c → Leaves (k ()) s post') : Leaves (throwIf c e >>= k) s post' := by
  by_cases hc : c
  · rw [Leaves, throwIf_bind hc]
    exact hstop
  · rw [Leaves, throwIf_bind_of_not hc]
    exact h hc

end Leaves

end StateExcept
