import Mathlib.Tactic

/-!
# Readers of a symbol stream

A reader consumes a prefix of its input and may fail.  `Reads` and `Refuses`
say what a reader does on every input that starts with a given string;
`IsLocal` says that what it did on an input it does on every longer one, which
makes the strings of a format prefix-free.  `Follows` compares two readers of one
format: where the second succeeds, the first does too and stops at the same place.
-/

abbrev StreamReader (ε σ : Type) := StateT (List σ) (Except ε)

namespace StreamReader

variable {ε σ α β : Type} {m : StreamReader ε σ α} {f : α → StreamReader ε σ β}
variable {xs ys : List σ} {a : α} {b : β} {e : ε}

/-- On every input starting with `xs`, the reader takes `xs` and returns `a`. -/
def Reads (m : StreamReader ε σ α) (xs : List σ) (a : α) : Prop :=
  ∀ rest, m (xs ++ rest) = .ok (a, rest)

/-- On every input starting with `xs`, the reader fails with `e`. -/
def Refuses (m : StreamReader ε σ α) (xs : List σ) (e : ε) : Prop :=
  ∀ rest, m (xs ++ rest) = .error e

/-- A successful run does not depend on what follows the input. -/
def IsLocal (m : StreamReader ε σ α) : Prop :=
  ∀ s a s', m s = .ok (a, s') → ∀ t, m (s ++ t) = .ok (a, s' ++ t)

theorem bind_apply (m : StreamReader ε σ α) (f : α → StreamReader ε σ β) (s : List σ) :
    (m >>= f) s = match m s with
      | .ok (a, s') => f a s'
      | .error e => .error e := by
  show (do let p ← m s; f p.1 p.2 : Except ε (β × List σ)) = _
  cases m s <;> rfl

theorem Reads.pure (a : α) : Reads (Pure.pure a : StreamReader ε σ α) [] a := fun _ => rfl

theorem Reads.bind (hm : Reads m xs a) (hf : Reads (f a) ys b) :
    Reads (m >>= f) (xs ++ ys) b := by
  intro rest
  rw [List.append_assoc, bind_apply, hm]
  exact hf rest

/-- A last step that consumes nothing. -/
theorem Reads.bind_nil (hm : Reads m xs a) (hf : Reads (f a) [] b) : Reads (m >>= f) xs b := by
  have h := hm.bind hf
  rwa [List.append_nil] at h

theorem Reads.map (hm : Reads m xs a) (g : α → β) : Reads (do return g (← m)) xs (g a) :=
  hm.bind_nil (f := fun a => Pure.pure (g a)) (Reads.pure (g a))

theorem Refuses.throw (e : ε) : Refuses (MonadExcept.throw e : StreamReader ε σ α) [] e :=
  fun _ => rfl

theorem Refuses.bind_left (hm : Refuses m xs e) : Refuses (m >>= f) xs e := by
  intro rest
  rw [bind_apply, hm]

theorem Refuses.bind (hm : Reads m xs a) (hf : Refuses (f a) ys e) :
    Refuses (m >>= f) (xs ++ ys) e := by
  intro rest
  rw [List.append_assoc, bind_apply, hm]
  exact hf rest

theorem Refuses.append (hm : Refuses m xs e) (ys : List σ) : Refuses m (xs ++ ys) e := by
  intro rest
  rw [List.append_assoc]
  exact hm (ys ++ rest)

theorem IsLocal.pure (a : α) : IsLocal (Pure.pure a : StreamReader ε σ α) := by
  intro s a' s' h t
  cases h
  rfl

theorem IsLocal.throw (e : ε) : IsLocal (MonadExcept.throw e : StreamReader ε σ α) := by
  intro s a s' h
  cases h

theorem IsLocal.bind (hm : IsLocal m) (hf : ∀ a, IsLocal (f a)) : IsLocal (m >>= f) := by
  intro s b s' h t
  rw [bind_apply] at h ⊢
  cases hms : m s with
  | error e =>
      rw [hms] at h
      cases h
  | ok p =>
      obtain ⟨a, s₁⟩ := p
      rw [hms] at h
      rw [hm s a s₁ hms t]
      exact hf a s₁ b s' h t

/-- A local reader that takes all of `xs` takes no proper prefix of it whole. -/
theorem IsLocal.eq_of_prefix_read (hlocal : IsLocal m) (hreads : Reads m xs a) {p : List σ} {a' : α}
    (hp : p <+: xs) (h : m p = .ok (a', [])) : p = xs := by
  obtain ⟨t, rfl⟩ := hp
  have hlong := hlocal p a' [] h t
  have hfull := hreads []
  rw [List.append_nil] at hfull
  rw [hfull] at hlong
  cases hlong
  simp

/-! ## Two readers of one format -/

theorem exists_of_bind_eq_ok {s t : List σ} (h : (m >>= f) s = .ok (b, t)) :
    ∃ a r, m s = .ok (a, r) ∧ f a r = .ok (b, t) := by
  rw [bind_apply] at h
  cases hms : m s with
  | error e =>
      rw [hms] at h
      cases h
  | ok p =>
      obtain ⟨a, r⟩ := p
      rw [hms] at h
      exact ⟨a, r, rfl, h⟩

theorem bind_eq_ok {s r t : List σ} (hm : m s = .ok (a, r)) (hf : f a r = .ok (b, t)) :
    (m >>= f) s = .ok (b, t) := by
  rw [bind_apply, hm]
  exact hf

theorem bind_eq_ok_iff {s t : List σ} :
    (m >>= f) s = .ok (b, t) ↔ ∃ a r, m s = .ok (a, r) ∧ f a r = .ok (b, t) :=
  ⟨exists_of_bind_eq_ok, fun ⟨_, _, hm, hf⟩ => bind_eq_ok hm hf⟩

/-- Where `m` succeeds, `n` succeeds and leaves the same input unread. -/
def Follows (n : StreamReader ε σ β) (m : StreamReader ε σ α) : Prop :=
  ∀ s a t, m s = .ok (a, t) → ∃ b, n s = .ok (b, t)

/-- Where `m` succeeds, `n` succeeds with the same result. -/
def Extends (n m : StreamReader ε σ α) : Prop :=
  ∀ s r, m s = .ok r → n s = .ok r

/-- The reader takes nothing from its input. -/
def Idle (m : StreamReader ε σ α) : Prop :=
  ∀ s a t, m s = .ok (a, t) → t = s

variable {γ δ : Type} {n : StreamReader ε σ γ} {g : γ → StreamReader ε σ δ}

theorem Idle.pure (a : α) : Idle (Pure.pure a : StreamReader ε σ α) := by
  intro s a' t h
  cases h
  rfl

theorem Idle.throw (e : ε) : Idle (MonadExcept.throw e : StreamReader ε σ α) := by
  intro s a t h
  cases h

theorem Follows.refl (m : StreamReader ε σ α) : Follows m m := fun _ a _ h => ⟨a, h⟩

theorem Follows.pure (b : β) (a : α) :
    Follows (Pure.pure b : StreamReader ε σ β) (Pure.pure a : StreamReader ε σ α) := by
  intro s a' t h
  cases h
  exact ⟨b, rfl⟩

theorem Follows.of_throw (n : StreamReader ε σ γ) (e : ε) :
    Follows n (MonadExcept.throw e : StreamReader ε σ α) := by
  intro s a t h
  cases h

theorem Follows.bind (hm : Follows n m) (hf : ∀ c a, Follows (g c) (f a)) :
    Follows (n >>= g) (m >>= f) := by
  intro s b t h
  obtain ⟨a, r, hmr, hfr⟩ := exists_of_bind_eq_ok h
  obtain ⟨c, hc⟩ := hm s a r hmr
  obtain ⟨d, hd⟩ := hf c a r b t hfr
  exact ⟨d, bind_eq_ok hc hd⟩

/-- Both readers start with the same step and go on from its result. -/
theorem Follows.bind_same {g : α → StreamReader ε σ δ} (hf : ∀ a, Follows (g a) (f a)) :
    Follows (m >>= g) (m >>= f) := by
  intro s b t h
  obtain ⟨a, r, hmr, hfr⟩ := exists_of_bind_eq_ok h
  obtain ⟨d, hd⟩ := hf a r b t hfr
  exact ⟨d, bind_eq_ok hmr hd⟩

/-- What the second reader does last without reading. -/
theorem Follows.bind_idle (hm : Follows n m) (hf : ∀ a, Idle (f a)) : Follows n (m >>= f) := by
  intro s b t h
  obtain ⟨a, r, hmr, hfr⟩ := exists_of_bind_eq_ok h
  rw [hf a r b t hfr]
  exact hm s a r hmr

/-- What the first reader does last and cannot fail at. -/
theorem Follows.pure_bind {c : δ} (hm : Follows n m) : Follows (n >>= fun _ => Pure.pure c) m := by
  intro s a t h
  obtain ⟨b, hb⟩ := hm s a t h
  exact ⟨c, bind_eq_ok hb rfl⟩

theorem Extends.refl (m : StreamReader ε σ α) : Extends m m := fun _ _ h => h

theorem Extends.of_throw (n : StreamReader ε σ α) (e : ε) :
    Extends n (MonadExcept.throw e : StreamReader ε σ α) := by
  intro s r h
  cases h

theorem Extends.bind {n : StreamReader ε σ α} {g : α → StreamReader ε σ β} (hm : Extends n m)
    (hf : ∀ a, Extends (g a) (f a)) : Extends (n >>= g) (m >>= f) := by
  intro s r h
  obtain ⟨a, q, hmr, hfr⟩ := exists_of_bind_eq_ok h
  exact bind_eq_ok (hm s _ hmr) (hf a q _ hfr)

theorem Extends.follows {n : StreamReader ε σ α} (h : Extends n m) : Follows n m :=
  fun s a _ hm => ⟨a, h s _ hm⟩

theorem Follows.trans {k : StreamReader ε σ β} (hnk : Follows n k) (hkm : Follows k m) :
    Follows n m := by
  intro s a t h
  obtain ⟨b, hb⟩ := hkm s a t h
  exact hnk s b t hb

end StreamReader
