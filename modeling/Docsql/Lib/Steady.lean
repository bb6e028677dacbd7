import Docsql.Lib.Lookup

/-!
# Computations that change values

A computation over a table of values that it may also change, and that may fail.
`Steady S m` says that `m` cannot tell apart tables that agree on `S`, and that it
leaves them in agreement.
-/

/-- Computations that look up values by key and change them. -/
abbrev Rewrite (ι V ε : Type) := StateT (ι → V) (Except ε)

namespace Rewrite

variable {ι V ε α β : Type} {S : Set ι}

/-- A computation that only looks values up. -/
def look (m : Lookup ι V ε α) : Rewrite ι V ε α := fun db =>
  match m db with
  | .ok a => .ok (a, db)
  | .error e => .error e

def Steady (S : Set ι) (m : Rewrite ι V ε α) : Prop :=
  ∀ db db' : ι → V, Set.EqOn db db' S →
    Lookup.Outcomes (fun x y => x.1 = y.1 ∧ Set.EqOn x.2 y.2 S) (m db) (m db')

theorem bind_apply (m : Rewrite ι V ε α) (f : α → Rewrite ι V ε β) (db : ι → V) :
    (m >>= f) db = match m db with
      | .ok (a, db') => f a db'
      | .error e => .error e := by
  show (do let (a, db') ← m db; f a db' : Except ε (β × (ι → V))) = _
  cases m db <;> rfl

namespace Steady

variable {m : Rewrite ι V ε α} {f : α → Rewrite ι V ε β}

theorem pure (a : α) : Steady S (Pure.pure a : Rewrite ι V ε α) :=
  fun _ _ hdb => .ok ⟨rfl, hdb⟩

theorem throw (e : ε) : Steady S (MonadExcept.throw e : Rewrite ι V ε α) :=
  fun _ _ _ => .error e

theorem look {m : Lookup ι V ε α} {Q : α → Prop} (h : Lookup.OnlyOn S m Q) :
    Steady S (Rewrite.look m) := by
  intro db db' hdb
  unfold Rewrite.look
  rw [← h.agree db db' hdb]
  cases m db with
  | ok a => exact .ok ⟨rfl, hdb⟩
  | error e => exact .error e

theorem bind (hm : Steady S m) (hf : ∀ a, Steady S (f a)) : Steady S (m >>= f) := by
  intro db db' hdb
  rw [bind_apply, bind_apply]
  have hrun := hm db db' hdb
  revert hrun
  generalize m db = x, m db' = x'
  rintro (⟨⟨hres, hafter⟩⟩ | e)
  · rename_i x y
    dsimp only
    rw [← hres]
    exact hf x.1 _ _ hafter
  · exact .error e

/-- A lookup whose result satisfies a condition. -/
theorem bind_look {x : Lookup ι V ε α} {Q : α → Prop} (hx : Lookup.OnlyOn S x Q)
    (hf : ∀ a, Q a → Steady S (f a)) : Steady S (Rewrite.look x >>= f) := by
  intro db db' hdb
  rw [bind_apply, bind_apply]
  unfold Rewrite.look
  rw [← hx.agree db db' hdb]
  cases hrun : x db with
  | ok a => exact hf a (hx.result db a hrun) db db' hdb
  | error e => exact .error e

/-- A check that comes before the rest. -/
theorem guard {c : Prop} [Decidable c] {e : ε} {rest : Unit → Rewrite ι V ε α}
    (h : ¬c → Steady S (rest ())) :
    Steady S (if c then (MonadExcept.throw e : Rewrite ι V ε Unit) >>= rest else rest ()) := by
  split
  · intro db db' _
    exact .error e
  · rename_i hc
    exact h hc

theorem foldlM {l : List α} {g : β → α → Rewrite ι V ε β} (b : β)
    (h : ∀ b, ∀ a ∈ l, Steady S (g b a)) : Steady S (l.foldlM g b) := by
  induction l generalizing b with
  | nil => exact .pure b
  | cons a l ih =>
    rw [List.foldlM_cons]
    refine (h b a List.mem_cons_self).bind fun b' => ih b' fun b'' a' ha' => ?_
    exact h b'' a' (List.mem_cons_of_mem a ha')

end Steady

end Rewrite
