import Docsql.Trigger.Statement

/-!
# Writes under a running statement

A body may not write the table whose trigger is firing, nor a table of the
referential plan that is being applied.  A second trigger, or a plan below a
plan, leads past both comparisons.  `NoReentry` is what a catalog has to satisfy
for the two comparisons to be enough.
-/

namespace Docsql.Trigger

open Relation (TransGen ReflTransGen)
open StateExcept (Leaves forEach)

variable {Doc Payload : Type}

/-! ## Which statements run inside which -/

/-- A statement up to its rows. -/
structure Shape where
  kind : DmlKind
  target : String
deriving DecidableEq

namespace Shape

variable (c : Catalog Doc Payload) (s : Shape)

/-- The statement is executed through a referential plan. -/
def Plans : Prop :=
  (s.kind = .update ∨ s.kind = .delete) ∧ c.referentialClosureOf s.target ≠ []

instance : Decidable (s.Plans c) := inferInstanceAs (Decidable (_ ∧ _))

/-- The tables the statement may write itself. -/
def tables : List String :=
  if s.Plans c then s.target :: c.referentialClosureOf s.target else [s.target]

/-- Triggers the statement can fire on one of its tables. -/
def Fires (d : TriggerDef Doc Payload) : Prop :=
  match s.kind with
  | .insert => True
  | .update => d.update = true ∨ s.Plans c
  | .delete => d.delete = true ∨ s.Plans c
  | .merge => False

/-- A trigger of the first statement holds the second one in its body, on a
table other than its own. -/
def Calls (s s' : Shape) : Prop :=
  ∃ d ∈ c.triggers, d.table ∈ s.tables c ∧ s.Fires c d ∧
    ∃ stmt, .sql stmt ∈ d.body ∧ stmt.target ≠ d.table ∧ s' = ⟨stmt.kind, stmt.target⟩

/-- No statement below this one replaces the referential guard. -/
def Quiet : Prop :=
  ∀ s', TransGen (Calls c) s s' → ¬s'.Plans c

/-- The guard this statement sets stays in force for all statements below it. -/
def Guarded : Prop :=
  s.Plans c ∧ s.Quiet c

variable {c s}

theorem target_mem_tables : s.target ∈ s.tables c := by
  unfold tables
  split <;> simp

theorem tables_of_not_plans (h : ¬s.Plans c) : s.tables c = [s.target] :=
  if_neg h

theorem Quiet.of_reaches {a : Shape} (ha : a.Quiet c) (h : ReflTransGen (Calls c) a s) :
    s.Quiet c := fun _ hs => ha _ (TransGen.trans_right h hs)

end Shape

/-- Below a statement that is not guarded, nothing writes its tables. -/
def Catalog.NoReentry (c : Catalog Doc Payload) : Prop :=
  ∀ s s' : Shape, TransGen (Shape.Calls c) s s' →
    s.Guarded c ∨ (s.tables c).Disjoint (s'.tables c)

/-! ## Writes on record -/

/-- The writes lead from one state of the tables to the other, and each found
the content it is said to have found. -/
def Chained : Db Doc → List (Write Doc) → Db Doc → Prop
  | db, [], db' => db' = db
  | db, w :: ws, db' =>
    w.current = db w.table ∧ Chained (Function.update db w.table w.content) ws db'

/-- The table is in use by no enclosing statement, and the writer knew what it held. -/
structure Write.Outside (w : Write Doc) : Prop where
  free : w.table ∉ w.inProgress
  known : w.base = w.current

/-- The writes made between two states, all outside the tables held. -/
structure Grown (held : List String) (e e' : Engine Doc) (new : List (Write Doc)) : Prop where
  writes : e'.writes = e.writes ++ new
  chained : Chained e.db new e'.db
  outside : ∀ w ∈ new, w.Outside
  held : ∀ w ∈ new, held ⊆ w.inProgress
  guard : e'.referentialGuard = none ∨ e'.referentialGuard = e.referentialGuard

def Ran (held : List String) (e e' : Engine Doc) : Prop :=
  ∃ new, Grown held e e' new

theorem Chained.append {db₁ db₂ db₃ : Db Doc} {xs ys : List (Write Doc)}
    (hxs : Chained db₁ xs db₂) (hys : Chained db₂ ys db₃) : Chained db₁ (xs ++ ys) db₃ := by
  induction xs generalizing db₁ with
  | nil =>
    rw [Chained] at hxs
    rwa [hxs] at hys
  | cons w ws ih => exact ⟨hxs.1, ih hxs.2⟩

theorem Chained.eq_of_not_written {db db' : Db Doc} {ws : List (Write Doc)} {x : String}
    (h : Chained db ws db') (hx : ∀ w ∈ ws, w.table ≠ x) : db' x = db x := by
  induction ws generalizing db with
  | nil => rw [h]
  | cons w ws ih =>
    rw [ih h.2 fun w' hw' => hx w' (List.mem_cons_of_mem _ hw')]
    exact Function.update_of_ne (hx w List.mem_cons_self).symm _ _

namespace Ran

variable {held held' : List String} {e e' e'' : Engine Doc}

theorem refl : Ran held e e :=
  ⟨[], ⟨(List.append_nil _).symm, rfl, by simp, by simp, .inr rfl⟩⟩

theorem trans (h : Ran held e e') (h' : Ran held e' e'') : Ran held e e'' := by
  obtain ⟨xs, hxs⟩ := h
  obtain ⟨ys, hys⟩ := h'
  refine ⟨xs ++ ys, ⟨?_, hxs.chained.append hys.chained, ?_, ?_, ?_⟩⟩
  · rw [hys.writes, hxs.writes, List.append_assoc]
  · intro w hw
    exact (List.mem_append.mp hw).elim (hxs.outside w) (hys.outside w)
  · intro w hw
    exact (List.mem_append.mp hw).elim (hxs.held w) (hys.held w)
  · rcases hys.guard with h | h
    · exact .inl h
    · rw [h]
      exact hxs.guard

theorem weaken (h : Ran held' e e') (hsub : held ⊆ held') : Ran held e e' := by
  obtain ⟨new, hnew⟩ := h
  exact ⟨new, hnew.writes, hnew.chained, hnew.outside,
    fun w hw => List.Subset.trans hsub (hnew.held w hw), hnew.guard⟩

/-- A table in use keeps its content. -/
theorem db_eq (h : Ran held e e') {x : String} (hx : x ∈ held) : e'.db x = e.db x := by
  obtain ⟨new, hnew⟩ := h
  refine hnew.chained.eq_of_not_written ?_
  rintro w hw rfl
  exact (hnew.outside w hw).free (hnew.held w hw hx)

/-- The write of a statement on its own table. -/
theorem commit {table : String} {base content : List Doc} (hfree : table ∉ held)
    (hbase : base = e.db table) :
    Leaves (commit held table base content) e fun e' =>
      Ran held e e' ∧ e'.referentialGuard = e.referentialGuard := by
  refine ⟨⟨[⟨table, held, base, e.db table, content⟩], rfl, ⟨rfl, rfl⟩, ?_, ?_, .inr rfl⟩, rfl⟩
  · intro w hw
    rw [List.mem_singleton.mp hw]
    exact ⟨hfree, hbase⟩
  · intro w hw
    rw [List.mem_singleton.mp hw]
    exact List.Subset.refl _

end Ran

/-! ## What protects a table in use -/

/-- How a statement in progress keeps a table from the statements below it: by
the guard, if nothing replaces that, else by the catalog alone. -/
def Protects (c : Catalog Doc Payload) (a : Shape) (guard : Option (List String)) (x : String) :
    Prop :=
  (¬a.Guarded c ∧ x ∈ a.tables c) ∨ (a.Guarded c ∧ x ∈ guard.getD [])

/-- Every table in use is protected by a statement above this one. -/
def Held (c : Catalog Doc Payload) (s : Shape) (held : List String)
    (guard : Option (List String)) : Prop :=
  ∀ x ∈ held, ∃ a, TransGen (Shape.Calls c) a s ∧ Protects c a guard x

/-- The same while the statement itself is in progress. -/
def Inside (c : Catalog Doc Payload) (s : Shape) (held : List String)
    (guard : Option (List String)) : Prop :=
  ∀ x ∈ held, ∃ a, ReflTransGen (Shape.Calls c) a s ∧ Protects c a guard x

section Protection

variable {c : Catalog Doc Payload} {s s' : Shape} {held : List String}
variable {guard guard' : Option (List String)}

theorem Inside.held_of_calls (h : Inside c s held guard) (hcall : s.Calls c s') : Held c s' held guard := by
  intro x hx
  obtain ⟨a, ha, hprotects⟩ := h x hx
  exact ⟨a, TransGen.tail' ha hcall, hprotects⟩

theorem Inside.stays (h : Inside c s held guard) (hguard : s.Quiet c → guard' = guard) :
    Inside c s held guard' := by
  intro x hx
  obtain ⟨a, ha, hopen | ⟨hguarded, hmem⟩⟩ := h x hx
  · exact ⟨a, ha, .inl hopen⟩
  · rw [← hguard (hguarded.2.of_reaches ha)] at hmem
    exact ⟨a, ha, .inr ⟨hguarded, hmem⟩⟩

/-- A statement that passed the comparisons writes no table in use. -/
theorem Held.disjoint (hc : c.NoReentry) (h : Held c s held guard)
    (hbody : s.target ∉ guard.getD []) : held.Disjoint (s.tables c) := by
  intro x hx hmem
  obtain ⟨a, ha, ⟨hopen, hin⟩ | ⟨hguarded, hin⟩⟩ := h x hx
  · exact ((hc a s ha).resolve_left hopen) hin hmem
  · rw [Shape.tables_of_not_plans (hguarded.2 s ha), List.mem_singleton] at hmem
    rw [hmem] at hin
    exact hbody hin

/-- A statement without a plan enters its table. -/
theorem Held.inside (h : Held c s held guard) (hplan : ¬s.Plans c) :
    Inside c s (s.target :: held) guard := by
  intro x hx
  rcases List.mem_cons.mp hx with rfl | hx
  · exact ⟨s, .refl, .inl ⟨fun hguarded => hplan hguarded.1, Shape.target_mem_tables⟩⟩
  · obtain ⟨a, ha, hprotects⟩ := h x hx
    exact ⟨a, ha.to_reflTransGen, hprotects⟩

/-- A statement with a plan enters the tables of the plan and sets the guard. -/
theorem Held.inside_plan {order : List String} (h : Held c s held guard) (hplan : s.Plans c)
    (horder : order ⊆ s.tables c) : Inside c s (order ++ held) (some order) := by
  intro x hx
  rcases List.mem_append.mp hx with hx | hx
  · refine ⟨s, .refl, ?_⟩
    by_cases hguarded : s.Guarded c
    · exact .inr ⟨hguarded, hx⟩
    · exact .inl ⟨hguarded, horder hx⟩
  · obtain ⟨a, ha, hopen | ⟨hguarded, -⟩⟩ := h x hx
    · exact ⟨a, ha.to_reflTransGen, .inl hopen⟩
    · exact absurd hplan (hguarded.2 s ha)

end Protection

/-! ## Running the bodies of a statement -/

/-- What statement `s` may do while it holds these tables. -/
def Within (c : Catalog Doc Payload) (s : Shape) (held : List String) (e e' : Engine Doc) : Prop :=
  Ran held e e' ∧ (s.Quiet c → e'.referentialGuard = e.referentialGuard)

def Runs {α : Type} (c : Catalog Doc Payload) (s : Shape) (held : List String)
    (m : EngineM Doc α) : Prop :=
  ∀ e, Inside c s held e.referentialGuard → Leaves m e (Within c s held e)

/-- What a statement does that may be run under others. -/
def NestedOk (c : Catalog Doc Payload) (run : Nested Doc Payload) : Prop :=
  ∀ (s : Shape) held p e, Held c s held e.referentialGuard →
    s.target ∉ e.referentialGuard.getD [] →
    Leaves (run held s.kind s.target p) e fun e' =>
      Ran held e e' ∧ (¬s.Plans c → s.Quiet c → e'.referentialGuard = e.referentialGuard)

section Bodies

variable {c : Catalog Doc Payload} {s : Shape} {held : List String} {α β : Type}

theorem Within.refl {e : Engine Doc} : Within c s held e e :=
  ⟨.refl, fun _ => rfl⟩

theorem Within.trans {e e' e'' : Engine Doc} (h : Within c s held e e')
    (h' : Within c s held e' e'') : Within c s held e e'' :=
  ⟨h.1.trans h'.1, fun hquiet => (h'.2 hquiet).trans (h.2 hquiet)⟩

theorem Within.weaken {held' : List String} {e e' : Engine Doc} (h : Within c s held' e e')
    (hsub : held ⊆ held') : Within c s held e e' :=
  ⟨h.1.weaken hsub, h.2⟩

theorem Runs.pure {a : α} : Runs c s held (pure a : EngineM Doc α) :=
  fun _ _ => Within.refl

theorem Runs.fromExcept {x : Except String α} :
    Runs c s held (StateExcept.fromExcept x : EngineM Doc α) :=
  fun _ _ => Within.refl

theorem Runs.bind {m : EngineM Doc α} {f : α → EngineM Doc β} (hm : Runs c s held m)
    (hf : ∀ a, Runs c s held (f a)) : Runs c s held (m >>= f) := by
  intro e he
  refine (hm e he).bind (fun _ h => h) ?_
  intro a e' h
  exact (hf a e' (he.stays h.2)).mono fun _ h' => h.trans h'

theorem Runs.forEach {run : α → EngineM Doc Unit} {xs : List α}
    (h : ∀ x ∈ xs, Runs c s held (run x)) : Runs c s held (forEach run xs) := by
  induction xs with
  | nil => exact .pure
  | cons x xs ih =>
    refine (h x List.mem_cons_self).bind fun _ => ?_
    exact ih fun y hy => h y (List.mem_cons_of_mem _ hy)

theorem leaves_after_checkBodyTarget {target firingTable : String} {e : Engine Doc}
    {k : Unit → EngineM Doc β} {post : Engine Doc → Prop} (hstop : post e)
    (h : target ≠ firingTable → target ∉ e.referentialGuard.getD [] → Leaves (k ()) e post) :
    Leaves (checkBodyTarget target firingTable >>= k) e post := by
  refine Leaves.assoc (Leaves.after_check hstop fun hown => ?_)
  refine Leaves.assoc (Leaves.after_read ?_)
  exact Leaves.after_check hstop fun hguard => h hown hguard

variable {run : Nested Doc Payload} {d : TriggerDef Doc Payload}

theorem runAction_runs (hrun : NestedOk c run) (hd : d ∈ c.triggers)
    (htable : d.table ∈ s.tables c) (hfires : s.Fires c d) (old new : Option Doc)
    {action : TriggerAction Doc Payload} (haction : action ∈ d.body) :
    Runs c s held (runAction run held d d.table old new action) := by
  intro e he
  cases action with
  | raise msg => exact Leaves.throw Within.refl
  | sql stmt =>
    refine leaves_after_checkBodyTarget Within.refl fun hown hguard => ?_
    refine Leaves.after_except Within.refl fun payload => ?_
    have hcall : s.Calls c ⟨stmt.kind, stmt.target⟩ :=
      ⟨d, hd, htable, hfires, stmt, haction, hown, rfl⟩
    refine (hrun ⟨stmt.kind, stmt.target⟩ held payload e (he.held_of_calls hcall) hguard).mono ?_
    rintro e' ⟨hran, hstays⟩
    refine ⟨hran, fun hquiet => hstays (hquiet _ (.single hcall)) ?_⟩
    exact hquiet.of_reaches (.single hcall)

theorem fireRowTriggers_runs {nested : Option (Nested Doc Payload)}
    (hnested : ∀ run, nested = some run → NestedOk c run) {table : String}
    (htable : table ∈ s.tables c) (before : Bool) {ev : TriggerFireEvent}
    (hev : ∀ d : TriggerDef Doc Payload, d.matchesEvent ev = true → s.Fires c d)
    (old new : Option Doc) :
    Runs c s held (fireRowTriggers c nested held table before ev old new) := by
  unfold fireRowTriggers
  dsimp only
  split
  · exact .pure
  · cases nested with
    | none => exact fun _ _ => Leaves.throw Within.refl
    | some run =>
      refine Runs.forEach ?_
      intro d hd
      obtain ⟨hmem, hmatch⟩ := List.mem_filter.mp hd
      obtain ⟨⟨hon, -⟩, hmatches⟩ : (d.table = table ∧ d.before = before) ∧
          d.matchesEvent ev = true := by
        simpa using hmatch
      subst hon
      refine Runs.fromExcept.bind fun pass => ?_
      cases pass with
      | false => exact .pure
      | true =>
        exact .forEach fun action haction =>
          runAction_runs (hnested run rfl) hmem htable (hev d hmatches) old new haction

end Bodies

end Docsql.Trigger
