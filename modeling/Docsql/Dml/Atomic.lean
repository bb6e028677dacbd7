import Docsql.Dml.Numbers

/-!
# A failed statement leaves no trace

Under the statement guard the journal leads back to the tables the statement
found.  Without it a statement writes one table, once, behind all of its checks;
only its RETURNING list is evaluated after that.
-/

namespace Docsql.Dml

open StateExcept (Leaves read forEach fromExcept throwIf)
open Index (DocHeap Table ListHeap listHeap)
open Trigger (TriggerDef)
open UndoJournal (Covers)

variable {Doc H α β : Type}

/-! ## What a statement keeps -/

/-- A property of sessions that the writes of a statement keep. -/
structure Stable (env : Env Doc) (P : Session Doc H → Prop) : Prop where
  commit : ∀ table t docs e, P e → P (commitTable env table t docs e).2
  record : ∀ (r : Record Doc) e, P e → P { e with record := r }
  guard : ∀ (g : Option (List String)) e, P e → P { e with referentialGuard := g }

def Keeps (P : Session Doc H → Prop) (m : SessionM Doc H α) : Prop := ∀ e, P e → Leaves m e P

namespace Keeps

variable {P : Session Doc H → Prop} {m : SessionM Doc H α}

theorem pure {a : α} : Keeps P (pure a : SessionM Doc H α) := fun _ h => h

theorem throw {msg : String} : Keeps P (throw msg : SessionM Doc H α) := fun _ h => h

theorem fromExcept {x : Except String α} :
    Keeps P (StateExcept.fromExcept x : SessionM Doc H α) := fun _ h => h

theorem read : Keeps P (read : SessionM Doc H (Session Doc H)) := fun _ h => h

theorem bind {f : α → SessionM Doc H β} (hm : Keeps P m) (hf : ∀ a, Keeps P (f a)) :
    Keeps P (m >>= f) := fun e he => (hm e he).bind (fun _ h => h) fun a e' h => hf a e' h

theorem throwIf {p : Prop} [Decidable p] {msg : String} :
    Keeps P (throwIf p msg : SessionM Doc H Unit) := by
  unfold StateExcept.throwIf
  split
  · exact throw
  · exact pure

theorem forEach {run : α → SessionM Doc H Unit} {xs : List α} (h : ∀ x, Keeps P (run x)) :
    Keeps P (forEach run xs) := by
  induction xs with
  | nil => exact pure
  | cons x xs ih => exact (h x).bind fun _ => ih

end Keeps

section Kept

variable {env : Env Doc} {heap : DocHeap Doc H} {c : Catalog Doc H}
variable {nested : Option (Nested Doc H)} {P : Session Doc H → Prop}

theorem Stable.note (hP : Stable env P) (f : Record Doc → Record Doc) :
    Keeps P (note f : SessionM Doc H Unit) := fun e he => hP.record (f e.record) e he

theorem Stable.commitTable (hP : Stable env P) (table : String) (t : Table H) (docs : List Doc) :
    Keeps P (commitTable env table t docs) := fun e he => hP.commit table t docs e he

theorem Stable.apart (hP : Stable env P) {run : SessionM Doc H Unit} (h : Keeps P run) :
    Keeps P (apart run) := fun e he => hP.record e.record _ (h _ (hP.record {} e he))

variable (hP : Stable env P)
variable (hnested : ∀ run, nested = some run → ∀ table request, Keeps P (run table request))

include hP hnested

theorem fireRowTriggers_keeps (table : String) (before : Bool) (ev : Trigger.TriggerFireEvent)
    (old new : Option Doc) : Keeps P (fireRowTriggers c nested table before ev old new) := by
  unfold fireRowTriggers
  dsimp only
  split
  · exact .pure
  · cases nested with
    | none => exact .throw
    | some run =>
      refine .forEach fun d => ?_
      refine (hP.note _).bind fun _ => Keeps.fromExcept.bind fun pass => ?_
      split
      · refine .forEach fun action => ?_
        cases action with
        | raise msg => exact .throw
        | sql stmt =>
          have hcheck : Keeps P (checkBodyTarget stmt.target table : SessionM Doc H Unit) :=
            Keeps.throwIf.bind fun _ => Keeps.read.bind fun _ => .throwIf
          refine hcheck.bind fun _ => Keeps.fromExcept.bind fun request => ?_
          exact hP.apart (hnested run rfl stmt.target request)
      · exact .pure

theorem fireAll_keeps (table : String) (before : Bool)
    (images : α → Trigger.TriggerFireEvent × Option Doc × Option Doc) (xs : List α) :
    Keeps P (fireAll c nested table before images xs) :=
  .forEach fun _ => fireRowTriggers_keeps hP hnested _ _ _ _ _

theorem displaceRows_keeps (table : String) (t : Table H) (s : InsertStmt Doc H)
    (newDocs : List Doc) (locs : List ℕ) (w : Index.Work H) :
    Keeps P (displaceRows env heap c nested table t s newDocs locs w) := by
  unfold displaceRows
  split
  · exact .pure
  · refine Keeps.fromExcept.bind fun _ => Keeps.read.bind fun _ => ?_
    refine Keeps.fromExcept.bind fun _ => (fireAll_keeps hP hnested _ _ _ _).bind fun _ => ?_
    refine Keeps.fromExcept.bind fun _ => (hP.note _).bind fun _ => ?_
    exact (fireAll_keeps hP hnested _ _ _ _).bind fun _ => .pure

theorem insertRow_keeps (table : String) (t : Table H) (s : InsertStmt Doc H)
    (newDocs : List Doc) (st : Staged Doc H) (doc : Doc) :
    Keeps P (insertRow env heap c nested table t s newDocs st doc) := by
  have hfire := fun before ev old new =>
    fireRowTriggers_keeps (c := c) hP hnested table before ev old new
  refine (hfire _ _ _ _).bind fun _ => Keeps.read.bind fun e => ?_
  refine Keeps.fromExcept.bind fun r => ?_
  obtain ⟨conflict, w⟩ := r
  cases conflict with
  | some loc =>
    refine (hP.note _).bind fun _ => ?_
    split
    · exact .pure
    · refine Keeps.fromExcept.bind fun r => ?_
      obtain ⟨pair, w⟩ := r
      cases pair with
      | none => exact .pure
      | some u =>
        refine (hP.note _).bind fun _ => (hfire _ _ _ _).bind fun _ => ?_
        exact (hfire _ _ _ _).bind fun _ => .pure
  | none =>
    refine Keeps.fromExcept.bind fun _ => (hP.note _).bind fun _ => ?_
    exact (hfire _ _ _ _).bind fun _ => .pure

theorem insertRows_keeps (table : String) (t : Table H) (s : InsertStmt Doc H)
    (newDocs docs : List Doc) (st : Staged Doc H) :
    Keeps P (insertRows env heap c nested table t s newDocs docs st) := by
  induction docs generalizing st with
  | nil => exact .pure
  | cons doc docs ih => exact (insertRow_keeps hP hnested _ _ _ _ _ _).bind fun st => ih st

theorem execInsert_keeps (table : String) (s : InsertStmt Doc H) :
    Keeps P (execInsert env heap c nested table s) := by
  refine Keeps.read.bind fun e => Keeps.fromExcept.bind fun docs => ?_
  refine Keeps.fromExcept.bind fun _ => Keeps.fromExcept.bind fun plan => ?_
  refine (displaceRows_keeps hP hnested _ _ _ _ _ _).bind fun w => ?_
  refine (insertRows_keeps hP hnested _ _ _ _ _ _).bind fun st => Keeps.read.bind fun e => ?_
  refine Keeps.fromExcept.bind fun _ => Keeps.fromExcept.bind fun _ => ?_
  exact (hP.commitTable _ _ _).bind fun _ => .pure

theorem applyTable_keeps (origin : String) (assigned : List String) (base : List (Doc × Doc))
    (tables : Tables H) (deltas : Deltas Doc) (table : String) :
    Keeps P (applyTable env heap c nested origin assigned base tables deltas table) := by
  have hdelta : ∀ columns before d,
      Keeps P (fireDelta env c nested columns table before d) := fun columns before d =>
    (fireAll_keeps hP hnested _ _ _ _).bind fun _ => fireAll_keeps hP hnested _ _ _ _
  unfold applyTable
  dsimp only
  split
  · exact .pure
  · refine Keeps.read.bind fun e => (hdelta _ _ _).bind fun _ => ?_
    refine Keeps.fromExcept.bind fun t' => (hP.note _).bind fun _ => ?_
    exact (hP.commitTable _ _ _).bind fun _ => hdelta _ _ _

theorem execReferential_keeps (origin : String) (assigned : List String)
    (base : List (Doc × Doc)) (deletes : List Doc) :
    Keeps P (execReferential env heap c nested origin assigned base deletes) := by
  refine Keeps.read.bind fun e => Keeps.fromExcept.bind fun plan => ?_
  refine Keeps.bind (m := applyReferentialPlan env heap c nested origin assigned base _ _ _)
    ?_ fun _ => .pure
  intro e' he'
  have hloop : Keeps P (forEach (applyTable env heap c nested origin assigned base e.tables plan.2)
      plan.1) := Keeps.forEach (applyTable_keeps hP hnested origin assigned base e.tables plan.2)
  exact hP.guard none _ (hloop _ (hP.guard (some plan.1) e' he'))

theorem execUpdate_keeps (table : String) (s : UpdateStmt Doc H) :
    Keeps P (execUpdate env heap c nested table s) := by
  have hfire := fun before (pairs : List (Doc × Doc)) =>
    fireAll_keeps (c := c) hP hnested table before (updateImages s.assigned) pairs
  refine Keeps.read.bind fun e => Keeps.fromExcept.bind fun _ => ?_
  refine Keeps.fromExcept.bind fun plan => ?_
  cases plan with
  | some plan =>
    refine Keeps.read.bind fun e => Keeps.fromExcept.bind fun updates => ?_
    dsimp only
    split
    · exact .pure
    · refine Keeps.fromExcept.bind fun _ => Keeps.fromExcept.bind fun _ => ?_
      refine (hfire _ _).bind fun _ => Keeps.fromExcept.bind fun _ => ?_
      refine Keeps.fromExcept.bind fun _ => (hP.note _).bind fun _ => ?_
      refine (hP.commitTable _ _ _).bind fun _ => ?_
      exact (hfire _ _).bind fun _ => .pure
  | none =>
    refine Keeps.read.bind fun e => Keeps.fromExcept.bind fun im => ?_
    split
    · exact (execReferential_keeps hP hnested _ _ _ _).bind fun _ => .pure
    · refine Keeps.fromExcept.bind fun _ => Keeps.fromExcept.bind fun _ => ?_
      refine Keeps.fromExcept.bind fun _ => (hfire _ _).bind fun _ => ?_
      refine Keeps.fromExcept.bind fun _ => (hP.note _).bind fun _ => ?_
      refine (hP.commitTable _ _ _).bind fun _ => ?_
      exact (hfire _ _).bind fun _ => .pure

theorem execDelete_keeps (table : String) (s : DeleteStmt Doc H) :
    Keeps P (execDelete env heap c nested table s) := by
  have hfire := fun before (docs : List Doc) =>
    fireAll_keeps (c := c) hP hnested table before deleteImages docs
  refine Keeps.read.bind fun e => Keeps.fromExcept.bind fun _ => ?_
  refine Keeps.fromExcept.bind fun plan => ?_
  cases plan with
  | some plan =>
    refine Keeps.read.bind fun e => Keeps.fromExcept.bind fun targets => ?_
    dsimp only
    split
    · exact .pure
    · refine Keeps.fromExcept.bind fun _ => (hfire _ _).bind fun _ => ?_
      refine Keeps.fromExcept.bind fun _ => Keeps.fromExcept.bind fun _ => ?_
      refine (hP.note _).bind fun _ => (hP.commitTable _ _ _).bind fun _ => ?_
      exact (hfire _ _).bind fun _ => .pure
  | none =>
    refine Keeps.read.bind fun e => Keeps.fromExcept.bind fun marks => ?_
    dsimp only
    split
    · exact (execReferential_keeps hP hnested _ _ _ _).bind fun _ => .pure
    · refine Keeps.fromExcept.bind fun _ => (hfire _ _).bind fun _ => ?_
      refine Keeps.fromExcept.bind fun _ => (hP.note _).bind fun _ => ?_
      refine (hP.commitTable _ _ _).bind fun _ => ?_
      exact (hfire _ _).bind fun _ => .pure

omit hnested in
theorem execMerge_keeps (table : String) (s : MergeStmt Doc H) :
    Keeps P (execMerge env heap table s) := by
  refine Keeps.read.bind fun e => Keeps.fromExcept.bind fun _ => ?_
  refine Keeps.fromExcept.bind fun _ => Keeps.fromExcept.bind fun _ => ?_
  refine Keeps.fromExcept.bind fun _ => Keeps.fromExcept.bind fun _ => ?_
  refine Keeps.fromExcept.bind fun _ => Keeps.fromExcept.bind fun _ => ?_
  refine Keeps.fromExcept.bind fun _ => (hP.note _).bind fun _ => ?_
  refine (hP.note _).bind fun _ => ?_
  exact (hP.commitTable _ _ _).bind fun _ => .pure

theorem execStmtInner_keeps (table : String) (request : Request Doc H) :
    Keeps P (execStmtInner env heap c nested table request) := by
  refine Keeps.bind ?_ fun _ => .fromExcept
  cases request with
  | insert s => exact execInsert_keeps hP hnested table s
  | update s => exact execUpdate_keeps hP hnested table s
  | delete s => exact execDelete_keeps hP hnested table s
  | merge s => exact execMerge_keeps hP table s

omit hnested in
theorem nestedStmt_keeps (room : ℕ) (run : Nested Doc H)
    (h : nestedStmt env heap c room = some run) (table : String) (request : Request Doc H) :
    Keeps P (run table request) := by
  induction room generalizing run table request with
  | zero => cases h
  | succ room ih =>
    obtain rfl := Option.some.inj h
    exact (execStmtInner_keeps hP (fun run hrun => ih run hrun) table request).bind fun _ => .pure

end Kept

/-! ## Under the guard -/

/-- The journal leads from the tables back to `base`. -/
def Recorded (base : Tables H) (mark : ℕ) (e : Session Doc H) : Prop :=
  ∃ j, e.undo = some j ∧ Covers base mark j e.tables

theorem recorded_stable (env : Env Doc) (base : Tables H) (mark : ℕ) :
    Stable env (Recorded base mark : Session Doc H → Prop) where
  commit := by
    rintro table t docs e ⟨j, hj, hcovers⟩
    refine ⟨UndoJournal.record e.tables j table, ?_, hcovers.write table t⟩
    change e.undo.map (fun j => UndoJournal.record e.tables j table) = _
    rw [hj]
    rfl
  record := fun _ _ h => h
  guard := fun _ _ h => h

theorem Recorded.restored {base : Tables H} {mark : ℕ} {e : Session Doc H}
    (h : Recorded base mark e) :
    UndoJournal.replay ((e.undo.getD []).drop mark) e.tables = base := by
  obtain ⟨j, hj, hcovers⟩ := h
  rw [hj]
  exact hcovers.replay_eq

/-- Whether a transaction is open, and whether the pager records. -/
def InMode (inTx recording : Bool) (e : Session Doc H) : Prop :=
  e.inTx = inTx ∧ e.undo.isSome = recording

theorem inMode_stable (env : Env Doc) (inTx recording : Bool) :
    Stable env (InMode inTx recording : Session Doc H → Prop) where
  commit := fun _ _ _ e h => ⟨h.1, by rw [← h.2]; exact Option.isSome_map⟩
  record := fun _ _ h => h
  guard := fun _ _ h => h

/-- The tables, their documents and trees, and the catalog are the same. -/
structure Unchanged (e e' : Session Doc H) : Prop where
  tables : e'.tables = e.tables
  dotted : e'.dotted = e.dotted

theorem Unchanged.refl (e : Session Doc H) : Unchanged e e := ⟨rfl, rfl⟩

theorem Unchanged.trans {e e' e'' : Session Doc H} (h : Unchanged e e') (h' : Unchanged e' e'') :
    Unchanged e e'' :=
  ⟨h'.tables.trans h.tables, h'.dotted.trans h.dotted⟩

/-- A transaction that is open is being recorded. -/
def Session.Recording (e : Session Doc H) : Prop := e.inTx = true → e.undo.isSome = true

section Guard

variable {run : SessionM Doc H α} {e e' : Session Doc H} {msg : String}

theorem guardInTx_error (hrun : ∀ base mark, Keeps (Recorded base mark) run)
    (hrec : e.undo.isSome = true) (h : guardInTx run e = (.error msg, e')) : Unchanged e e' := by
  obtain ⟨j, hj⟩ := Option.isSome_iff_exists.mp hrec
  have hstart : Recorded e.tables (e.undo.getD []).length
      { e with undo := e.undo.map (UndoJournal.savepoint e.tables) } := by
    rw [hj]
    exact ⟨_, rfl, UndoJournal.covers_savepoint⟩
  have hleaves := hrun _ _ _ hstart
  unfold guardInTx at h
  unfold Leaves at hleaves
  rcases hr : run { e with undo := e.undo.map (UndoJournal.savepoint e.tables) } with ⟨r, e₁⟩
  rw [hr] at h hleaves
  cases r with
  | ok a => cases h
  | error msg' =>
    obtain ⟨-, rfl⟩ := Prod.mk.inj h
    exact ⟨hleaves.restored, rfl⟩

theorem guardAutocommit_error (hrun : ∀ base mark, Keeps (Recorded base mark) run)
    (h : guardAutocommit run e = (.error msg, e')) : Unchanged e e' := by
  have hstart : Recorded e.tables 0 { e with undo := some [] } :=
    ⟨[], rfl, UndoJournal.covers_start⟩
  have hleaves := hrun _ _ _ hstart
  unfold guardAutocommit at h
  unfold Leaves at hleaves
  rcases hr : run { e with undo := some [] } with ⟨r, e₁⟩
  rw [hr] at h hleaves
  cases r with
  | ok a => cases h
  | error msg' =>
    obtain ⟨-, rfl⟩ := Prod.mk.inj h
    exact ⟨hleaves.restored, rfl⟩

/-- The guard takes a failed statement back. -/
theorem runWithTriggerGuard_error (hrun : ∀ base mark, Keeps (Recorded base mark) run)
    (hrec : e.Recording) (h : runWithTriggerGuard run e = (.error msg, e')) : Unchanged e e' := by
  unfold runWithTriggerGuard at h
  by_cases htx : e.inTx = true
  · rw [if_pos htx] at h
    exact guardInTx_error hrun (hrec htx) h
  · rw [if_neg htx] at h
    exact guardAutocommit_error hrun h

/-- The guard stops a recording only where it started it. -/
theorem runWithTriggerGuard_recording (hrun : ∀ inTx recording, Keeps (InMode inTx recording) run)
    (hrec : e.Recording) : (runWithTriggerGuard run e).2.Recording := by
  unfold runWithTriggerGuard
  by_cases htx : e.inTx = true
  · rw [if_pos htx]
    have hmode := hrun true true { e with undo := e.undo.map (UndoJournal.savepoint e.tables) }
      ⟨htx, Option.isSome_map.trans (hrec htx)⟩
    unfold guardInTx
    unfold Leaves at hmode
    rcases hr : run { e with undo := e.undo.map (UndoJournal.savepoint e.tables) } with ⟨r, e₁⟩
    rw [hr] at hmode
    cases r with
    | ok a => exact fun _ => hmode.2
    | error msg => exact fun _ => Option.isSome_map.trans hmode.2
  · rw [if_neg htx]
    rw [Bool.not_eq_true] at htx
    have hmode := hrun false true { e with undo := some [] } ⟨htx, rfl⟩
    unfold guardAutocommit
    unfold Leaves at hmode
    rcases hr : run { e with undo := some [] } with ⟨r, e₁⟩
    rw [hr] at hmode
    cases r with
    | ok a => exact fun h => absurd (hmode.1.symm.trans h) Bool.false_ne_true
    | error msg => exact fun h => absurd (hmode.1.symm.trans h) Bool.false_ne_true

end Guard

/-! ## Without the guard -/

/-- Whatever comes of it, the contents stay. -/
def Still (m : SessionM Doc H α) : Prop := ∀ e, Leaves m e (Unchanged e)

/-- It does not fail. -/
def Sure (m : SessionM Doc H α) : Prop := ∀ e, ∃ a e', m e = (.ok a, e')

/-- If it fails, the contents stay. -/
def Clean (m : SessionM Doc H α) : Prop := ∀ e msg e', m e = (.error msg, e') → Unchanged e e'

section Rules

variable {m : SessionM Doc H α} {f : α → SessionM Doc H β}

theorem Still.pure {a : α} : Still (pure a : SessionM Doc H α) := fun e => .refl e

theorem Still.fromExcept {x : Except String α} :
    Still (StateExcept.fromExcept x : SessionM Doc H α) := fun e => .refl e

theorem Still.read : Still (read : SessionM Doc H (Session Doc H)) := fun e => .refl e

theorem Still.note (f : Record Doc → Record Doc) : Still (note f : SessionM Doc H Unit) :=
  fun _ => ⟨rfl, rfl⟩

theorem Still.bind (hm : Still m) (hf : ∀ a, Still (f a)) : Still (m >>= f) := fun e =>
  (hm e).bind (fun _ h => h) fun a e' h => (hf a e').mono fun _ h' => h.trans h'

theorem Sure.pure {a : α} : Sure (pure a : SessionM Doc H α) := fun e => ⟨a, e, rfl⟩

theorem Sure.bind (hm : Sure m) (hf : ∀ a, Sure (f a)) : Sure (m >>= f) := by
  intro e
  obtain ⟨a, e', hrun⟩ := hm e
  rw [StateExcept.bind_ok hrun]
  exact hf a e'

theorem Sure.commitTable (env : Env Doc) (table : String) (t : Table H) (docs : List Doc) :
    Sure (commitTable env table t docs) := fun _ => ⟨(), _, rfl⟩

theorem Still.clean (h : Still m) : Clean m := by
  intro e msg e' hrun
  have hleaves := h e
  rwa [Leaves, hrun] at hleaves

theorem Sure.clean (h : Sure m) : Clean m := by
  intro e msg e' hrun
  obtain ⟨a, e'', hok⟩ := h e
  rw [hok] at hrun
  cases hrun

theorem Clean.bind (hm : Still m) (hf : ∀ a, Clean (f a)) : Clean (m >>= f) := by
  intro e msg e' hrun
  have hleaves := hm e
  unfold Leaves at hleaves
  rw [StateExcept.bind_apply] at hrun
  rcases hr : m e with ⟨r, e₁⟩
  rw [hr] at hrun hleaves
  cases r with
  | ok a => exact hleaves.trans (hf a e₁ msg e' hrun)
  | error msg' =>
    obtain ⟨-, rfl⟩ := Prod.mk.inj hrun
    exact hleaves

end Rules

section Unguarded

variable {env : Env Doc} {heap : DocHeap Doc H} {c : Catalog Doc H}
variable {nested : Option (Nested Doc H)} {table : String}

/-- A table without triggers fires none. -/
theorem fireRowTriggers_eq (h : c.triggersExistFor table = false) (before : Bool)
    (ev : Trigger.TriggerFireEvent) (old new : Option Doc) :
    fireRowTriggers c nested table before ev old new = pure () := by
  have hnone : matchedTriggers c table before ev = [] := by
    refine List.filter_eq_nil_iff.mpr fun d hd hmatch => ?_
    have hon := List.any_eq_false.mp h d hd
    simp only [Bool.and_eq_true, decide_eq_true_eq] at hmatch hon
    exact hon hmatch.1.1
  unfold fireRowTriggers
  rw [hnone]
  rfl

theorem fireAll_eq (h : c.triggersExistFor table = false) (before : Bool)
    (images : α → Trigger.TriggerFireEvent × Option Doc × Option Doc) (xs : List α) :
    fireAll c nested table before images xs = pure () := by
  induction xs with
  | nil => rfl
  | cons x xs ih =>
    unfold fireAll at ih ⊢
    rw [forEach, ih]
    simp only [fireRowTriggers_eq h]
    rfl

variable (h : guarded c table = false)

include h

theorem triggers_of_guarded : c.triggersExistFor table = false :=
  (Bool.or_eq_false_iff.mp h).1

theorem reach_of_guarded : c.referentialActionsReach table = false :=
  (Bool.or_eq_false_iff.mp h).2

theorem fireAll_still (before : Bool)
    (images : α → Trigger.TriggerFireEvent × Option Doc × Option Doc) (xs : List α) :
    Still (fireAll c nested table before images xs) := by
  rw [fireAll_eq (triggers_of_guarded h)]
  exact .pure

/-- The write of a statement and the triggers that come after it. -/
theorem commit_clean (t : Table H) (docs : List Doc)
    (images : α → Trigger.TriggerFireEvent × Option Doc × Option Doc) (xs : List α) (b : β) :
    Clean (do
      commitTable env table t docs
      fireAll c nested table false images xs
      return b) := by
  rw [fireAll_eq (triggers_of_guarded h)]
  exact ((Sure.commitTable _ _ _ _).bind fun _ => Sure.pure.bind fun _ => .pure).clean

theorem displaceRows_still (t : Table H) (s : InsertStmt Doc H) (newDocs : List Doc)
    (locs : List ℕ) (w : Index.Work H) :
    Still (displaceRows env heap c nested table t s newDocs locs w) := by
  unfold displaceRows
  split
  · exact .pure
  · refine Still.fromExcept.bind fun _ => Still.read.bind fun _ => ?_
    refine Still.fromExcept.bind fun _ => (fireAll_still h _ _ _).bind fun _ => ?_
    refine Still.fromExcept.bind fun _ => (Still.note _).bind fun _ => ?_
    exact (fireAll_still h _ _ _).bind fun _ => .pure

theorem insertRow_still (t : Table H) (s : InsertStmt Doc H) (newDocs : List Doc)
    (st : Staged Doc H) (doc : Doc) :
    Still (insertRow env heap c nested table t s newDocs st doc) := by
  unfold insertRow
  simp only [fireRowTriggers_eq (triggers_of_guarded h)]
  refine Still.pure.bind fun _ => Still.read.bind fun e => ?_
  refine Still.fromExcept.bind fun r => ?_
  obtain ⟨conflict, w⟩ := r
  cases conflict with
  | some loc =>
    refine (Still.note _).bind fun _ => ?_
    split
    · exact .pure
    · refine Still.fromExcept.bind fun r => ?_
      obtain ⟨pair, w⟩ := r
      cases pair with
      | none => exact .pure
      | some u =>
        exact (Still.note _).bind fun _ => Still.pure.bind fun _ => Still.pure.bind fun _ => .pure
  | none =>
    refine Still.fromExcept.bind fun _ => (Still.note _).bind fun _ => ?_
    exact Still.pure.bind fun _ => .pure

theorem insertRows_still (t : Table H) (s : InsertStmt Doc H) (newDocs docs : List Doc)
    (st : Staged Doc H) : Still (insertRows env heap c nested table t s newDocs docs st) := by
  induction docs generalizing st with
  | nil => exact .pure
  | cons doc docs ih => exact (insertRow_still h _ _ _ _ _).bind fun st => ih st

theorem execInsert_clean (s : InsertStmt Doc H) :
    Clean (execInsert env heap c nested table s) := by
  refine Clean.bind .read fun e => Clean.bind .fromExcept fun docs => ?_
  refine Clean.bind .fromExcept fun _ => Clean.bind .fromExcept fun plan => ?_
  refine Clean.bind (displaceRows_still h _ _ _ _ _) fun w => ?_
  refine Clean.bind (insertRows_still h _ _ _ _ _) fun st => Clean.bind .read fun e => ?_
  refine Clean.bind .fromExcept fun _ => Clean.bind .fromExcept fun _ => ?_
  exact ((Sure.commitTable _ _ _ _).bind fun _ => .pure).clean

theorem execUpdate_clean (s : UpdateStmt Doc H) :
    Clean (execUpdate env heap c nested table s) := by
  refine Clean.bind .read fun e => Clean.bind .fromExcept fun _ => ?_
  refine Clean.bind .fromExcept fun plan => ?_
  cases plan with
  | some plan =>
    refine Clean.bind .read fun e => Clean.bind .fromExcept fun updates => ?_
    dsimp only
    split
    · exact Still.pure.clean
    · refine Clean.bind .fromExcept fun _ => Clean.bind .fromExcept fun _ => ?_
      refine Clean.bind (fireAll_still h _ _ _) fun _ => Clean.bind .fromExcept fun _ => ?_
      refine Clean.bind .fromExcept fun _ => Clean.bind (.note _) fun _ => ?_
      exact commit_clean h _ _ _ _ _
  | none =>
    refine Clean.bind .read fun e => Clean.bind .fromExcept fun im => ?_
    rw [reach_of_guarded h]
    refine Clean.bind .fromExcept fun _ => Clean.bind .fromExcept fun _ => ?_
    refine Clean.bind .fromExcept fun _ => Clean.bind (fireAll_still h _ _ _) fun _ => ?_
    refine Clean.bind .fromExcept fun _ => Clean.bind (.note _) fun _ => ?_
    exact commit_clean h _ _ _ _ _

theorem execDelete_clean (s : DeleteStmt Doc H) :
    Clean (execDelete env heap c nested table s) := by
  refine Clean.bind .read fun e => Clean.bind .fromExcept fun _ => ?_
  refine Clean.bind .fromExcept fun plan => ?_
  cases plan with
  | some plan =>
    refine Clean.bind .read fun e => Clean.bind .fromExcept fun targets => ?_
    dsimp only
    split
    · exact Still.pure.clean
    · refine Clean.bind .fromExcept fun _ => Clean.bind (fireAll_still h _ _ _) fun _ => ?_
      refine Clean.bind .fromExcept fun _ => Clean.bind .fromExcept fun _ => ?_
      refine Clean.bind (.note _) fun _ => ?_
      exact commit_clean h _ _ _ _ _
  | none =>
    refine Clean.bind .read fun e => Clean.bind .fromExcept fun marks => ?_
    dsimp only
    rw [reach_of_guarded h]
    refine Clean.bind .fromExcept fun _ => Clean.bind (fireAll_still h _ _ _) fun _ => ?_
    refine Clean.bind .fromExcept fun _ => Clean.bind (.note _) fun _ => ?_
    exact commit_clean h _ _ _ _ _

omit h in
theorem execMerge_clean (s : MergeStmt Doc H) : Clean (execMerge env heap table s) := by
  refine Clean.bind .read fun e => Clean.bind .fromExcept fun _ => ?_
  refine Clean.bind .fromExcept fun _ => Clean.bind .fromExcept fun _ => ?_
  refine Clean.bind .fromExcept fun _ => Clean.bind .fromExcept fun _ => ?_
  refine Clean.bind .fromExcept fun _ => Clean.bind .fromExcept fun _ => ?_
  refine Clean.bind .fromExcept fun _ => Clean.bind (.note _) fun _ => ?_
  refine Clean.bind (.note _) fun _ => ?_
  exact ((Sure.commitTable _ _ _ _).bind fun _ => .pure).clean

/-- A statement that fails before its RETURNING list has written nothing. -/
theorem execBody_clean (request : Request Doc H) :
    Clean (execBody env heap c nested table request) := by
  cases request with
  | insert s => exact execInsert_clean h s
  | update s => exact execUpdate_clean h s
  | delete s => exact execDelete_clean h s
  | merge s => exact execMerge_clean s

end Unguarded

/-! ## Failed statements -/

section Failed

variable (env : Env Doc) (heap : DocHeap Doc H) (c : Catalog Doc H)

/-- The branch that goes wrong: without the guard, the statement is carried out
and its RETURNING list fails on the rows it returns. -/
def LateReturning (table : String) (request : Request Doc H) (e : Session Doc H) : Prop :=
  guarded c table = false ∧ ∃ done e' msg,
    execBody env heap c (nestedStmt env heap c maxTriggerDepth) table request e =
      (.ok done, e') ∧
    ¬Unchanged e e' ∧ outcome env request.returning done = .error msg

variable {env heap c}

theorem execStmtInner_eq {nested : Option (Nested Doc H)} {table : String}
    {request : Request Doc H} {e e' : Session Doc H} {done : Done Doc}
    (h : execBody env heap c nested table request e = (.ok done, e')) :
    execStmtInner env heap c nested table request e =
      (outcome env request.returning done, e') := by
  unfold execStmtInner
  rw [StateExcept.bind_ok h]
  rfl

theorem execStmt_recording (table : String) (request : Request Doc H) (e : Session Doc H)
    (hrec : e.Recording) : (execStmt env heap c table request e).2.Recording := by
  have hmode : ∀ inTx recording, Keeps (InMode inTx recording)
      (execStmtInner env heap c (nestedStmt env heap c maxTriggerDepth) table request) :=
    fun inTx recording => execStmtInner_keeps (inMode_stable env inTx recording)
      (nestedStmt_keeps (inMode_stable env inTx recording) _) table request
  unfold execStmt
  by_cases hguard : guarded c table = true
  · rw [if_pos hguard]
    exact runWithTriggerGuard_recording hmode hrec
  · rw [if_neg hguard]
    intro htx
    have hkept := hmode e.inTx e.undo.isSome e ⟨rfl, rfl⟩
    unfold Leaves InMode at hkept
    rw [hkept.2]
    exact hrec (hkept.1.symm.trans htx)

end Failed

/-- `RETURNING nosuch(n)`. -/
def unknownFunction : ReturningItem ℕ := .expr "nosuch" fun _ => .error "unknown function: nosuch"

end Docsql.Dml
