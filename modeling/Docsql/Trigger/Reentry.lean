import Docsql.Trigger.Guard

/-!
# Statements keep out of each other's tables

Each executor writes only tables that no enclosing statement has in use, as long
as the statements below it do; by induction on the room for nesting, every
statement does.
-/

namespace Docsql.Trigger

open Relation (TransGen)
open StateExcept (Leaves forEach)

variable {Doc Payload : Type} {c : Catalog Doc Payload} {s : Shape} {held held' : List String}

/-! ## Before and after the write of a statement -/

section Next

variable {α β : Type} {e₀ e : Engine Doc} {post : Engine Doc → Prop}

/-- The bodies of a statement run next, after others of them. -/
theorem Runs.next {m : EngineM Doc α} {f : α → EngineM Doc β} (hm : Runs c s held' m)
    (hin : Inside c s held' e₀.referentialGuard) (h : Within c s held' e₀ e)
    (hstop : ∀ e', Within c s held' e₀ e' → post e')
    (hnext : ∀ a e', Within c s held' e₀ e' → Leaves (f a) e' post) :
    Leaves (m >>= f) e post := by
  have hrun : Leaves m e (Within c s held' e₀) :=
    (hm e (hin.stays h.2)).mono fun _ h' => h.trans h'
  exact hrun.bind hstop hnext

/-- The table of a statement is written once its bodies before the write are
done; the bodies after the write run under the same protection. -/
theorem leaves_fire_commit_fire {before after : EngineM Doc Unit} {t : String}
    {base content : List Doc} (hbefore : Runs c s held' before) (hafter : Runs c s held' after)
    (hin : Inside c s held' e.referentialGuard) (hsub : held ⊆ held') (ht : t ∈ held')
    (hfree : t ∉ held) (hbase : base = e.db t) :
    Leaves (before >>= fun _ => commit held t base content >>= fun _ => after) e fun e' =>
      Within c s held e e' ∧ ∀ x ∈ held', x ≠ t → e'.db x = e.db x := by
  refine hbefore.next hin .refl ?_ ?_
  · intro e₁ h₁
    exact ⟨h₁.weaken hsub, fun x hx _ => h₁.1.db_eq hx⟩
  · intro _ e₁ h₁
    have hcommit : Within c s held e₁ (commit held t base content e₁).2 := by
      have hknown : base = e₁.db t := by rw [hbase, h₁.1.db_eq ht]
      obtain ⟨hran, hguard⟩ := Ran.commit hfree hknown
      exact ⟨hran, fun _ => hguard⟩
    have hout : Within c s held e (commit held t base content e₁).2 :=
      (h₁.weaken hsub).trans hcommit
    refine Leaves.after_update ((hafter _ (hin.stays hout.2)).mono ?_)
    intro e₂ h₂
    refine ⟨hout.trans (h₂.weaken hsub), fun x hx hne => ?_⟩
    calc
      e₂.db x = Function.update e₁.db t content x := h₂.1.db_eq hx
      _ = e₁.db x := Function.update_of_ne hne _ _
      _ = e.db x := h₁.1.db_eq hx

end Next

/-! ## Statements without a plan -/

/-- What a statement is to leave behind. -/
def Post (c : Catalog Doc Payload) (s : Shape) (held : List String) (e e' : Engine Doc) : Prop :=
  Ran held e e' ∧ (¬s.Plans c → s.Quiet c → e'.referentialGuard = e.referentialGuard)

theorem Within.post {e e' : Engine Doc} (h : Within c s held e e') : Post c s held e e' :=
  ⟨h.1, fun _ => h.2⟩

section Executors

variable (rows : Rows Doc Payload) {nested : Option (Nested Doc Payload)} {table : String}
variable {e : Engine Doc}

theorem placeRows_runs (hnested : ∀ run, nested = some run → NestedOk c run)
    (p : Payload) (docs staged : List Doc) :
    Runs c ⟨.insert, table⟩ held (placeRows c rows nested held table p docs staged) := by
  have hfire (before : Bool) (ev : TriggerFireEvent) (old new : Option Doc) :
      Runs c ⟨.insert, table⟩ held (fireRowTriggers c nested held table before ev old new) :=
    fireRowTriggers_runs (s := ⟨.insert, table⟩) hnested Shape.target_mem_tables before
      (fun _ _ => trivial) old new
  induction docs generalizing staged with
  | nil => exact .pure
  | cons doc docs ih =>
    refine (hfire _ _ _ _).bind fun _ => ?_
    intro e he
    refine Leaves.after_read (Leaves.after_except Within.refl fun placed => ?_)
    revert e
    cases placed with
    | skipped => exact ih staged
    | updated old new content =>
      exact (hfire _ _ _ _).bind fun _ => (hfire _ _ _ _).bind fun _ => ih content
    | inserted content => exact (hfire _ _ _ _).bind fun _ => ih content

theorem not_plans_insert : ¬Shape.Plans c ⟨.insert, table⟩ := by
  rintro ⟨h | h, -⟩ <;> cases h

theorem not_plans_merge : ¬Shape.Plans c ⟨.merge, table⟩ := by
  rintro ⟨h | h, -⟩ <;> cases h

theorem execInsert_post (hnested : ∀ run, nested = some run → NestedOk c run) (p : Payload)
    (hheld : Held c ⟨.insert, table⟩ held e.referentialGuard) (hfree : table ∉ held) :
    Leaves (execInsert c rows nested held table p) e (Post c ⟨.insert, table⟩ held e) := by
  have hin := hheld.inside not_plans_insert
  have hfire (before : Bool) (ev : TriggerFireEvent) (old new : Option Doc) :
      Runs c ⟨.insert, table⟩ (table :: held)
        (fireRowTriggers c nested (table :: held) table before ev old new) :=
    fireRowTriggers_runs (s := ⟨.insert, table⟩) hnested Shape.target_mem_tables before
      (fun _ _ => trivial) old new
  have hstop : ∀ e', Within c ⟨.insert, table⟩ (table :: held) e e' →
      Post c ⟨.insert, table⟩ held e e' :=
    fun e' h => (h.weaken (List.subset_cons_self _ _)).post
  refine Leaves.after_read ?_
  refine Leaves.after_except (hstop e .refl) fun newDocs => ?_
  refine Leaves.after_except (hstop e .refl) fun displacedDocs => ?_
  refine Runs.next (.forEach fun d _ => hfire _ _ _ _) hin .refl hstop fun _ e₁ h₁ => ?_
  refine Runs.next (.forEach fun d _ => hfire _ _ _ _) hin h₁ hstop fun _ e₂ h₂ => ?_
  refine Runs.next (placeRows_runs rows hnested p _ _) hin h₂ hstop fun staged e₃ h₃ => ?_
  refine Leaves.after_read ?_
  refine Leaves.after_except (hstop e₃ h₃) fun _ => ?_
  have hknown : e.db table = e₃.db table := (h₃.1.db_eq List.mem_cons_self).symm
  refine (Ran.commit hfree hknown).mono fun e₄ h₄ => ?_
  have hcommit : Within c ⟨.insert, table⟩ held e₃ e₄ := ⟨h₄.1, fun _ => h₄.2⟩
  exact ((h₃.weaken (List.subset_cons_self _ _)).trans hcommit).post

theorem execMerge_post (p : Payload) (hfree : table ∉ held) :
    Leaves (execMerge rows held table p) e (Post c ⟨.merge, table⟩ held e) := by
  refine Leaves.after_read ?_
  refine Leaves.after_except Within.refl.post fun content => ?_
  exact (Ran.commit hfree rfl).mono fun e' h => ⟨h.1, fun _ _ => h.2⟩

/-! ## Referential plans -/

section Plan

variable (c : Catalog Doc Payload) {origin : String}

theorem newChildren_nodup (parent : String) (seen : List String) :
    (newChildren c.tables parent seen).Nodup := by
  have hsub := List.filter_sublist (l := c.tables) (p := fun t =>
    decide (t.1 ∉ seen ∧ t.2.any fun fk => fk.refTable = parent ∧ fk.hasAction))
  exact c.distinct.sublist (hsub.map Prod.fst)

theorem disjoint_newChildren (parent : String) (seen : List String) :
    seen.Disjoint (newChildren c.tables parent seen) := by
  intro t hseen ht
  obtain ⟨entry, hentry, rfl⟩ := List.mem_map.mp ht
  exact (of_decide_eq_true (List.mem_filter.mp hentry).2).1 hseen

theorem closureLoop_nodup (fuel : ℕ) (queue order : List String) (horder : order.Nodup) :
    (closureLoop c.tables fuel queue order).Nodup := by
  induction fuel generalizing queue order with
  | zero => exact horder
  | succ fuel ih =>
    cases queue with
    | nil => exact horder
    | cons parent queue =>
      refine ih _ _ (List.Nodup.append horder (newChildren_nodup c parent order) ?_)
      exact disjoint_newChildren c parent order

theorem planOrder_nodup (deltas : String → ReferentialDelta Doc) :
    (planOrder c origin deltas).Nodup := by
  refine List.Nodup.filter _ (List.nodup_cons.mpr ⟨?_, ?_⟩)
  · simp
  · exact (closureLoop_nodup c _ _ _ List.nodup_nil).filter _

theorem planOrder_subset {c : Catalog Doc Payload} {s : Shape} (hplan : s.Plans c)
    (deltas : String → ReferentialDelta Doc) : planOrder c s.target deltas ⊆ s.tables c := by
  intro t ht
  rw [Shape.tables, if_pos hplan]
  rcases List.mem_cons.mp (List.mem_of_mem_filter ht) with rfl | ht
  · exact List.mem_cons_self
  · exact List.mem_cons_of_mem _ (List.mem_of_mem_filter ht)

end Plan

theorem Shape.Plans.fires (hplan : s.Plans c) (d : TriggerDef Doc Payload) : s.Fires c d := by
  unfold Shape.Fires
  rcases hplan.1 with h | h
  · rw [h]
    exact .inr hplan
  · rw [h]
    exact .inr hplan

theorem fireDelta_runs (hnested : ∀ run, nested = some run → NestedOk c run) (hplan : s.Plans c)
    (ht : table ∈ s.tables c) (before : Bool) (delta : ReferentialDelta Doc) :
    Runs c s held (fireDelta c rows nested held table before delta) := by
  have hfire (ev : TriggerFireEvent) (old new : Option Doc) :
      Runs c s held (fireRowTriggers c nested held table before ev old new) :=
    fireRowTriggers_runs hnested ht before (fun d _ => hplan.fires d) old new
  exact (Runs.forEach fun d _ => hfire _ _ _).bind fun _ => .forEach fun pair _ => hfire _ _ _

section Apply

variable {order : List String} {pre : Db Doc} {deltas : String → ReferentialDelta Doc}

theorem applyTable_leaves (hnested : ∀ run, nested = some run → NestedOk c run)
    (hplan : s.Plans c) (horder : order ⊆ s.tables c) (hfree : held.Disjoint (s.tables c))
    (hin : Inside c s (order ++ held) e.referentialGuard) (ht : table ∈ order)
    (hpre : e.db table = pre table) :
    Leaves (applyTable c rows nested held order pre deltas table) e fun e' =>
      Within c s held e e' ∧ ∀ x ∈ order, x ≠ table → e'.db x = e.db x := by
  unfold applyTable
  split
  · exact Leaves.pure ⟨.refl, fun _ _ _ => rfl⟩
  · have hfire (before : Bool) : Runs c s (order ++ held)
        (fireDelta c rows nested (order ++ held) table before (deltas table)) :=
      fireDelta_runs rows hnested hplan (horder ht) before _
    refine (leaves_fire_commit_fire (hfire true) (hfire false) hin
      (List.subset_append_right _ _) (List.mem_append_left _ ht) ?_ hpre.symm).mono ?_
    · exact fun hheld => hfree hheld (horder ht)
    · exact fun e' h => ⟨h.1, fun x hx => h.2 x (List.mem_append_left _ hx)⟩

/-- The tables of the plan one after the other; those still to come hold what
the plan was computed from. -/
theorem forEach_applyTable_leaves (hnested : ∀ run, nested = some run → NestedOk c run)
    (hplan : s.Plans c) (horder : order ⊆ s.tables c) (hfree : held.Disjoint (s.tables c))
    {rest : List String} (hrest : rest ⊆ order) (hnodup : rest.Nodup)
    (hin : Inside c s (order ++ held) e.referentialGuard)
    (hpre : ∀ x ∈ rest, e.db x = pre x) :
    Leaves (forEach (applyTable c rows nested held order pre deltas) rest) e
      (Within c s held e) := by
  induction rest generalizing e with
  | nil => exact Leaves.pure Within.refl
  | cons t rest ih =>
    obtain ⟨ht, hsub⟩ := List.cons_subset.mp hrest
    obtain ⟨hnew, hnodup⟩ := List.nodup_cons.mp hnodup
    refine (applyTable_leaves rows hnested hplan horder hfree hin ht
      (hpre t List.mem_cons_self)).bind (fun _ h => h.1) ?_
    rintro _ e₁ ⟨h₁, hother⟩
    refine (ih hsub hnodup (hin.stays h₁.2) ?_).mono fun e₂ h₂ => h₁.trans h₂
    intro x hx
    have hne : x ≠ t := fun heq => hnew (heq ▸ hx)
    rw [hother x (hsub hx) hne]
    exact hpre x (List.mem_cons_of_mem _ hx)

end Apply

theorem execReferential_post (hnested : ∀ run, nested = some run → NestedOk c run)
    (hplan : s.Plans c) (hheld : Held c s held e.referentialGuard)
    (hfree : held.Disjoint (s.tables c)) (deletes : List Doc) (updates : List (Doc × Doc)) :
    Leaves (execReferential c rows nested held s.target deletes updates) e (Post c s held e) := by
  refine Leaves.after_read ?_
  refine Leaves.after_except Within.refl.post fun deltas => ?_
  have horder := planOrder_subset hplan deltas
  let e₁ := { e with referentialGuard := some (planOrder c s.target deltas) }
  have hrun : Leaves (forEach (applyTable c rows nested held (planOrder c s.target deltas) e.db
      deltas) (planOrder c s.target deltas)) e₁ (Within c s held e₁) :=
    forEach_applyTable_leaves rows hnested hplan horder hfree (List.Subset.refl _)
      (planOrder_nodup c deltas) (hheld.inside_plan hplan horder) fun _ _ => rfl
  obtain ⟨new, hnew⟩ := hrun.1
  exact ⟨⟨new, hnew.writes, hnew.chained, hnew.outside, hnew.held, .inl rfl⟩,
    fun hnot => absurd hplan hnot⟩

/-! ## Every statement -/

theorem execUpdate_post (hnested : ∀ run, nested = some run → NestedOk c run) (p : Payload)
    (hheld : Held c ⟨.update, table⟩ held e.referentialGuard)
    (hfree : held.Disjoint (Shape.tables c ⟨.update, table⟩)) :
    Leaves (execUpdate c rows nested held table p) e (Post c ⟨.update, table⟩ held e) := by
  refine Leaves.after_read ?_
  refine Leaves.after_except Within.refl.post fun found => ?_
  cases found with
  | none => exact Leaves.pure Within.refl.post
  | some u =>
    by_cases hclosure : c.referentialClosureOf table ≠ []
    · have hplan : Shape.Plans c ⟨.update, table⟩ := ⟨.inl rfl, hclosure⟩
      simp only [hclosure, ne_eq, not_false_eq_true, if_true]
      exact execReferential_post rows hnested hplan hheld hfree [] u.pairs
    · have hplan : ¬Shape.Plans c ⟨.update, table⟩ := fun h => hclosure h.2
      simp only [hclosure, if_false]
      refine Leaves.after_except Within.refl.post fun _ => ?_
      have hev : ∀ d : TriggerDef Doc Payload, d.matchesEvent (.update (some u.changedCols)) = true →
          Shape.Fires c ⟨.update, table⟩ d := fun d hd => .inl (Bool.and_eq_true_iff.mp hd).1
      have hfire (before : Bool) (old new : Option Doc) : Runs c ⟨.update, table⟩ (table :: held)
          (fireRowTriggers c nested (table :: held) table before (.update (some u.changedCols))
            old new) :=
        fireRowTriggers_runs hnested Shape.target_mem_tables before hev old new
      refine (leaves_fire_commit_fire (.forEach fun pair _ => hfire true _ _)
        (.forEach fun pair _ => hfire false _ _) (hheld.inside hplan)
        (List.subset_cons_self _ _) List.mem_cons_self ?_ rfl).mono fun e' h => h.1.post
      exact fun hmem => hfree hmem Shape.target_mem_tables

theorem execDelete_post (hnested : ∀ run, nested = some run → NestedOk c run) (p : Payload)
    (hheld : Held c ⟨.delete, table⟩ held e.referentialGuard)
    (hfree : held.Disjoint (Shape.tables c ⟨.delete, table⟩)) :
    Leaves (execDelete c rows nested held table p) e (Post c ⟨.delete, table⟩ held e) := by
  refine Leaves.after_read ?_
  refine Leaves.after_except Within.refl.post fun found => ?_
  cases found with
  | none => exact Leaves.pure Within.refl.post
  | some d =>
    by_cases hclosure : c.referentialClosureOf table ≠ []
    · have hplan : Shape.Plans c ⟨.delete, table⟩ := ⟨.inr rfl, hclosure⟩
      simp only [hclosure, ne_eq, not_false_eq_true, if_true]
      exact execReferential_post rows hnested hplan hheld hfree d.removed []
    · have hplan : ¬Shape.Plans c ⟨.delete, table⟩ := fun h => hclosure h.2
      simp only [hclosure, if_false]
      refine Leaves.after_except Within.refl.post fun _ => ?_
      have hev : ∀ d : TriggerDef Doc Payload, d.matchesEvent .delete = true →
          Shape.Fires c ⟨.delete, table⟩ d := fun d hd => .inl hd
      have hfire (before : Bool) (old new : Option Doc) : Runs c ⟨.delete, table⟩ (table :: held)
          (fireRowTriggers c nested (table :: held) table before .delete old new) :=
        fireRowTriggers_runs hnested Shape.target_mem_tables before hev old new
      refine (leaves_fire_commit_fire (.forEach fun doc _ => hfire true _ _)
        (.forEach fun doc _ => hfire false _ _) (hheld.inside hplan)
        (List.subset_cons_self _ _) List.mem_cons_self ?_ rfl).mono fun e' h => h.1.post
      exact fun hmem => hfree hmem Shape.target_mem_tables

theorem execStmtInner_ok (hc : c.NoReentry)
    (hnested : ∀ run, nested = some run → NestedOk c run) :
    NestedOk c (execStmtInner c rows nested) := by
  rintro ⟨kind, table⟩ held p e hheld hbody
  have hfree := hheld.disjoint hc hbody
  have hown : table ∉ held := fun hmem => hfree hmem Shape.target_mem_tables
  cases kind with
  | insert => exact execInsert_post rows hnested p hheld hown
  | update => exact execUpdate_post rows hnested p hheld hfree
  | delete => exact execDelete_post rows hnested p hheld hfree
  | merge => exact execMerge_post rows p hown

theorem execStmt_ok (hc : c.NoReentry) (room : ℕ) : NestedOk c (execStmt c rows room) := by
  induction room with
  | zero => exact execStmtInner_ok rows hc fun _ h => nomatch h
  | succ room ih =>
    refine execStmtInner_ok rows hc fun run h => ?_
    rwa [← Option.some.inj h]

end Executors

/-! ## Whole runs -/

structure Request (Payload : Type) where
  kind : DmlKind
  table : String
  payload : Payload

def runStatements (c : Catalog Doc Payload) (rows : Rows Doc Payload) (e : Engine Doc)
    (requests : List (Request Payload)) : Engine Doc :=
  requests.foldl (fun e r => runStatement c rows e r.kind r.table r.payload) e

/-- A row that was written is there, unless a later write knew it and left it out. -/
def Kept (new : List (Write Doc)) (db : Db Doc) : Prop :=
  ∀ earlier w later, new = earlier ++ w :: later → ∀ row ∈ w.content,
    row ∈ db w.table ∨ ∃ w' ∈ later, w'.table = w.table ∧ row ∈ w'.base ∧ row ∉ w'.content

/-- No body wrote a table in use, and if the statement succeeded no written row was lost. -/
def Undisturbed (c : Catalog Doc Payload) (rows : Rows Doc Payload) (e : Engine Doc)
    (r : Request Payload) : Prop :=
  ∃ new, (runStatement c rows e r.kind r.table r.payload).writes = e.writes ++ new ∧
    (∀ w ∈ new, w.table ∉ w.inProgress) ∧
    ((execStmt c rows maxTriggerDepth [] r.kind r.table r.payload e).1 = .ok () →
      Kept new (runStatement c rows e r.kind r.table r.payload).db)

theorem Chained.mem_or_removed {db db' : Db Doc} {ws : List (Write Doc)} {t : String} {row : Doc}
    (h : Chained db ws db') (hknown : ∀ w ∈ ws, w.base = w.current) (hrow : row ∈ db t) :
    row ∈ db' t ∨ ∃ w ∈ ws, w.table = t ∧ row ∈ w.base ∧ row ∉ w.content := by
  induction ws generalizing db with
  | nil =>
    rw [Chained] at h
    rw [h]
    exact .inl hrow
  | cons w ws ih =>
    have hrest := fun hmem => ih h.2 (fun w' hw' => hknown w' (List.mem_cons_of_mem _ hw')) hmem
    have hlater : (∃ w' ∈ ws, w'.table = t ∧ row ∈ w'.base ∧ row ∉ w'.content) →
        ∃ w' ∈ w :: ws, w'.table = t ∧ row ∈ w'.base ∧ row ∉ w'.content := by
      rintro ⟨w', hw', hw⟩
      exact ⟨w', List.mem_cons_of_mem _ hw', hw⟩
    by_cases htable : w.table = t
    · by_cases hstill : row ∈ w.content
      · refine (hrest ?_).imp id hlater
        rwa [htable, Function.update_self]
      · refine .inr ⟨w, List.mem_cons_self, htable, ?_, hstill⟩
        rwa [hknown w List.mem_cons_self, h.1, htable]
    · refine (hrest ?_).imp id hlater
      rwa [Function.update_of_ne (Ne.symm htable)]

theorem Chained.kept {db db' : Db Doc} {ws : List (Write Doc)} (h : Chained db ws db')
    (hknown : ∀ w ∈ ws, w.base = w.current) : Kept ws db' := by
  intro earlier w later heq row hrow
  subst heq
  induction earlier generalizing db with
  | nil =>
    refine h.2.mem_or_removed (fun w' hw' => hknown w' (List.mem_cons_of_mem _ hw')) ?_
    rwa [Function.update_self]
  | cons w₀ earlier ih => exact ih h.2 fun w' hw' => hknown w' (List.mem_cons_of_mem _ hw')

section Run

variable (rows : Rows Doc Payload)

theorem execStmt_ran (hc : c.NoReentry) (e : Engine Doc) (hguard : e.referentialGuard = none)
    (r : Request Payload) :
    Ran [] e (execStmt c rows maxTriggerDepth [] r.kind r.table r.payload e).2 := by
  refine (execStmt_ok rows hc maxTriggerDepth ⟨r.kind, r.table⟩ [] r.payload e ?_ ?_).1
  · exact fun x hx => nomatch hx
  · rw [hguard]
    exact List.not_mem_nil

theorem runStatement_guard (hc : c.NoReentry) (e : Engine Doc)
    (hguard : e.referentialGuard = none) (r : Request Payload) :
    (runStatement c rows e r.kind r.table r.payload).referentialGuard = none := by
  obtain ⟨new, hnew⟩ := execStmt_ran rows hc e hguard r
  have hend := hnew.guard
  rw [hguard, or_self] at hend
  unfold runStatement
  rcases hrun : execStmt c rows maxTriggerDepth [] r.kind r.table r.payload e with ⟨a | a, e'⟩
  · rwa [hrun] at hend
  · rwa [hrun] at hend

theorem runStatements_guard (hc : c.NoReentry) (e : Engine Doc)
    (hguard : e.referentialGuard = none) (requests : List (Request Payload)) :
    (runStatements c rows e requests).referentialGuard = none := by
  induction requests generalizing e with
  | nil => exact hguard
  | cons r requests ih => exact ih _ (runStatement_guard rows hc e hguard r)

theorem runStatement_undisturbed (hc : c.NoReentry) (e : Engine Doc)
    (hguard : e.referentialGuard = none) (r : Request Payload) : Undisturbed c rows e r := by
  obtain ⟨new, hnew⟩ := execStmt_ran rows hc e hguard r
  refine ⟨new, ?_, fun w hw => (hnew.outside w hw).free, ?_⟩
  · have hwrites := hnew.writes
    unfold runStatement
    rcases hrun : execStmt c rows maxTriggerDepth [] r.kind r.table r.payload e with ⟨a | a, e'⟩
    · rwa [hrun] at hwrites
    · rwa [hrun] at hwrites
  · intro hok
    have hkept := hnew.chained.kept fun w hw => (hnew.outside w hw).known
    unfold runStatement
    rcases hrun : execStmt c rows maxTriggerDepth [] r.kind r.table r.payload e with ⟨a | a, e'⟩
    · rw [hrun] at hok
      cases hok
    · rwa [hrun] at hkept

/-- Without re-entry, whatever statements went before, a statement and all that
its triggers run leave the tables of enclosing statements alone. -/
theorem bodies_keep_out_of_running_statements (hc : c.NoReentry) (db : Db Doc)
    (past : List (Request Payload)) (r : Request Payload) :
    Undisturbed c rows (runStatements c rows { db := db } past) r :=
  runStatement_undisturbed rows hc _ (runStatements_guard rows hc _ rfl past) r

end Run

/-! ## A cascade with an audit trail, and two triggers in a circle -/

/-- Rows of one number: INSERT appends, UPDATE adds one, DELETE and its cascade
remove the numbers given. -/
def numberRows : Rows ℕ (List ℕ) where
  insertRows _ _ p := .ok p
  displaced _ _ _ _ := .ok []
  dropDisplaced base _ := base
  upsertCols _ := none
  placeRow _ _ _ staged n := .ok (.inserted (staged ++ [n]))
  checkInsert _ _ _ _ := .ok ()
  updateRows db table _ := .ok (some
    ⟨(db table).map fun n => (n, n + 1), (db table).map (· + 1), ["n"]⟩)
  checkUpdate _ _ _ := .ok ()
  deleteRows db table p := .ok (some ⟨(db table).filter (· ∈ p), (db table).filter (· ∉ p)⟩)
  checkDelete _ _ _ := .ok ()
  mergeRows db table p := .ok (db table ++ p)
  planDeltas db _ deletes _ := .ok fun t =>
    ⟨(db t).filter (· ∈ deletes), [], (db t).filter (· ∉ deletes)⟩
  changedCols _ _ _ := ["n"]

/-- Deleting from `parent` deletes from `child`, which records it in `audit`. -/
def auditTrail : Catalog ℕ (List ℕ) where
  tables := [("audit", []), ("child", [⟨"parent", true⟩]), ("parent", [])]
  triggers := [⟨"record", "child", false, false, true, false, none, none,
    [.sql ⟨.insert, "audit", fun old _ => .ok old.toList⟩]⟩]
  distinct := by decide

theorem auditTrail_closure {origin : String} (h : origin ≠ "parent") :
    auditTrail.referentialClosureOf origin = [] := by
  have hnone : newChildren auditTrail.tables origin [] = [] := by
    simp [newChildren, auditTrail, Ne.symm h]
  unfold Catalog.referentialClosureOf
  rw [show auditTrail.tables.length + 1 = 3 + 1 from rfl, closureLoop, hnone]
  rfl

theorem auditTrail_calls {s s' : Shape} (h : s.Calls auditTrail s') :
    "child" ∈ s.tables auditTrail ∧ s' = ⟨.insert, "audit"⟩ := by
  obtain ⟨d, hd, htable, -, stmt, hstmt, -, rfl⟩ := h
  rw [auditTrail, List.mem_singleton] at hd
  subst hd
  rw [List.mem_singleton, TriggerAction.sql.injEq] at hstmt
  subst hstmt
  exact ⟨htable, rfl⟩

theorem auditTrail_noReentry : auditTrail.NoReentry := by
  intro s s' h
  refine .inr ?_
  have hs' : s' = ⟨.insert, "audit"⟩ := by
    obtain ⟨_, -, hlast⟩ := TransGen.tail'_iff.mp h
    exact (auditTrail_calls hlast).2
  have hs : "child" ∈ s.tables auditTrail := by
    obtain ⟨_, hfirst, -⟩ := TransGen.head'_iff.mp h
    exact (auditTrail_calls hfirst).1
  rw [hs', Shape.tables_of_not_plans not_plans_insert, List.disjoint_singleton]
  by_cases htarget : s.target = "parent"
  · have hclosure : auditTrail.referentialClosureOf "parent" = ["child"] := by decide
    unfold Shape.tables
    rw [htarget, hclosure]
    split <;> decide
  · have hplan : ¬s.Plans auditTrail := fun hplan => hplan.2 (auditTrail_closure htarget)
    rw [Shape.tables_of_not_plans hplan] at hs ⊢
    rw [← List.mem_singleton.mp hs]
    decide

/-- A cascading DELETE whose body writes the audit table. -/
theorem bodies_keep_out_of_audited_delete :
    Undisturbed auditTrail numberRows (runStatements auditTrail numberRows
      { db := fun _ => [] } [⟨.insert, "parent", [1, 2]⟩, ⟨.insert, "child", [1]⟩])
      ⟨.delete, "parent", [1]⟩ ∧
    (runStatements auditTrail numberRows { db := fun _ => [] } [⟨.insert, "parent", [1, 2]⟩,
      ⟨.insert, "child", [1]⟩, ⟨.delete, "parent", [1]⟩]).db "audit" = [1] :=
  ⟨bodies_keep_out_of_running_statements numberRows auditTrail_noReentry _ _ _, by decide⟩

/-- An UPDATE of `a` records its old rows in `b`, and an INSERT into `b` writes
to `a`. -/
def roundAbout : Catalog ℕ (List ℕ) where
  tables := [("a", []), ("b", [])]
  triggers := [
    ⟨"a_to_b", "a", true, false, false, true, none, none,
      [.sql ⟨.insert, "b", fun old _ => .ok old.toList⟩]⟩,
    ⟨"b_to_a", "b", false, true, false, false, none, none,
      [.sql ⟨.insert, "a", fun _ new => .ok (new.toList.map (· + 10))⟩]⟩]
  distinct := by decide

def oneRow : Db ℕ := fun t => if t = "a" then [1] else []

/-- The row 11 is inserted into `a` under the UPDATE of `a`, which then commits
the rows it had computed before. -/
theorem row_of_body_lost_under_update :
    (execStmt roundAbout numberRows maxTriggerDepth [] .update "a" [] { db := oneRow }).1 =
      .ok () ∧
    (⟨"a", ["b", "a"], [1], [1], [1, 11]⟩ : Write ℕ) ∈
      (runStatement roundAbout numberRows { db := oneRow } .update "a" []).writes ∧
    (runStatement roundAbout numberRows { db := oneRow } .update "a" []).db "a" = [2] ∧
    ¬Undisturbed roundAbout numberRows { db := oneRow } ⟨.update, "a", []⟩ := by
  have hwrites : (runStatement roundAbout numberRows { db := oneRow } .update "a" []).writes =
      [⟨"a", ["b", "a"], [1], [1], [1, 11]⟩, ⟨"b", ["a"], [], [], [1]⟩,
        ⟨"a", [], [1], [1, 11], [2]⟩] := by rfl
  refine ⟨by rfl, ?_, by rfl, ?_⟩
  · rw [hwrites]
    exact List.mem_cons_self
  · rintro ⟨new, hnew, hfree, -⟩
    rw [hwrites] at hnew
    change _ = [] ++ new at hnew
    rw [List.nil_append] at hnew
    have hmem : (⟨"a", ["b", "a"], [1], [1], [1, 11]⟩ : Write ℕ) ∈ new := by
      rw [← hnew]
      exact List.mem_cons_self
    exact hfree _ hmem (by decide)

end Docsql.Trigger
