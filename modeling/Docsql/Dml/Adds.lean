import Docsql.Dml.Shown
import Docsql.Trigger.Reentry

/-!
# What a statement adds to the record

INSERT, and the UPDATE and DELETE of one table without referential actions,
fire once for every row.  A join and a referential plan list a row once for all
rows with the same encoding, the plan decides UPDATE OF by the columns whose
values differ, and MERGE does not fire at all.
-/

namespace Docsql.Dml

open StateExcept (read fromExcept forEach bind_eq_ok_iff fromExcept_bind_eq_ok_iff
  pure_eq_ok_iff)
open Index (DocHeap Table)
open Trigger (TriggerDef)

variable {Doc H : Type}

/-! ## The conditions -/

section Conditions

variable (env : Env Doc) (heap : DocHeap Doc H) (c : Catalog Doc H) (table : String)

/-- A trigger of the table is for an UPDATE of one of these columns. -/
def WatchesUpdate (cols : List String) : Prop :=
  ∃ d ∈ c.triggers, d.table = table ∧ d.matchesEvent (.update (some cols))

def WatchesInsert : Prop := ∃ d ∈ c.triggers, d.table = table ∧ d.matchesEvent .insert

/-- UPDATE ... FROM: where a trigger watches, the rows changed are alone. -/
def JoinShows (s : UpdateStmt Doc H) (tables : Tables H) : Prop :=
  s.source.isSome → WatchesUpdate c table s.assigned →
    ∀ im, imagesOf env s tables (docsOf heap tables table) = .ok im →
      ∀ p ∈ im.changed, Alone env (docsOf heap tables table) p.1

/-- A referential plan shows the triggers of every table the rows it changes. -/
def PlanShows (tables : Tables H) (assigned : List String) (base plain : List (Doc × Doc))
    (deletes : List Doc) : Prop :=
  ∀ order deltas,
    planReferentialActions env c (docsOf heap tables) tables table deletes base =
      .ok (order, deltas) →
    ∀ t ∈ order, ∀ d ∈ c.triggers, d.table = t → ∀ doc ∈ docsOf heap tables t,
      ShowsRow env (tables t).tableMeta.columns t table assigned base d ((deltas t).getD {})
        (ownUpdates table plain t) (docsOf heap tables t) doc

/-- No trigger of the target watches what the MERGE does. -/
def MergeUnwatched (s : MergeStmt Doc H) (tables : Tables H) : Prop :=
  ∀ rows, s.source tables = .ok rows →
    (s.update.isSome → WatchesUpdate c table s.assigned →
      ∀ target ∈ docsOf heap tables table, ∀ row ∈ rows, s.on target row ≠ .ok true) ∧
    (s.insert.isSome → WatchesInsert c table →
      ∀ row ∈ rows, ∃ target ∈ docsOf heap tables table, s.on target row = .ok true)

def UpdateShows (s : UpdateStmt Doc H) (tables : Tables H) : Prop :=
  if c.referentialActionsReach table then
    ∀ im, imagesOf env s tables (docsOf heap tables table) = .ok im →
      PlanShows env heap c table tables s.assigned im.pairs
        (if s.source.isNone then im.pairs else []) []
  else JoinShows env heap c table s tables

def DeleteShows (s : DeleteStmt Doc H) (tables : Tables H) : Prop :=
  c.referentialActionsReach table →
    ∀ marks, removalMarks env s tables (docsOf heap tables table) = .ok marks →
      PlanShows env heap c table tables [] [] [] ((marks.filter fun m => m.2).map Prod.fst)

/-- When the triggers are run once for every row that a statement changes. -/
def FiresOnce (tables : Tables H) : Request Doc H → Prop
  | .insert _ => True
  | .update s => UpdateShows env heap c table s tables
  | .delete s => DeleteShows env heap c table s tables
  | .merge s => MergeUnwatched heap c table s tables

end Conditions

/-! ## What is added to the record -/

/-- The record grows by one that keeps faith with the triggers where `p` holds. -/
def Adds (c : Catalog Doc H) (e e' : Session Doc H) (p : Prop) : Prop :=
  ∃ r : Record Doc, e'.record = e.record ++ r ∧ (r.Faithful c ↔ p)

section Steps

variable {env : Env Doc} {heap : DocHeap Doc H} {c : Catalog Doc H}
variable {nested : Option (Nested Doc H)} {table : String} {before : Bool} {e e' : Session Doc H}

theorem Adds.refl (h : e'.record = e.record) : Adds c e e' True :=
  ⟨{}, by rw [h, Record.append_empty], iff_of_true (Record.faithful_empty c) trivial⟩

theorem Adds.trans {e₁ : Session Doc H} (h₁ : Adds c e e₁ True) (h₂ : Adds c e₁ e' True) :
    Adds c e e' True := by
  obtain ⟨r₁, hr₁, hf₁⟩ := h₁
  obtain ⟨r₂, hr₂, hf₂⟩ := h₂
  refine ⟨r₁ ++ r₂, by rw [hr₂, hr₁, Record.append_assoc], iff_of_true ?_ trivial⟩
  exact (hf₁.mpr trivial).append (hf₂.mpr trivial)

/-- Changes announced by their own images. -/
theorem Adds.announced (table : String) (changes : List (Change Doc))
    (h : e'.record = e.record ++ announced c table (changes.map Change.image) changes) :
    Adds c e e' True :=
  ⟨_, h, iff_of_true (announced_faithful rfl) trivial⟩

theorem commitTable_ok {t : Table H} {docs : List Doc} {u : Unit}
    (h : commitTable env table t docs e = (.ok u, e')) : e'.record = e.record := by
  obtain ⟨-, rfl⟩ := Prod.mk.inj h
  rfl

theorem noteChanged_ok {changes : List (Change Doc)} {u : Unit}
    (h : noteChanged table changes e = (.ok u, e')) :
    e'.record = e.record ++ { changed := changes.map fun ch => (table, ch) } := by
  rw [(note_ok h).1]
  change _ = Record.mk _ _ _
  simp

theorem fireRow_ok (im : Image Doc) {u : Unit}
    (h : fireRowTriggers c nested table before im.1 im.2.1 im.2.2 e = (.ok u, e')) :
    e'.record = e.record ++ ranFor c table before [im] := by
  rw [fireRowTriggers_ok h]
  simp [ranFor]

/-! ## INSERT -/

/-- A candidate that does not become a row. -/
theorem candidate_faithful (c : Catalog Doc H) (table : String) (doc : Doc) :
    (ranFor c table true [(.insert, none, some doc)] ++
      ({ unplaced := [(table, doc)] } : Record Doc)).Faithful c := by
  intro d hd
  have hruns : ({ unplaced := [(table, doc)] } : Record Doc).runsOf d = [] := rfl
  have hchanges : (ranFor c table true [(.insert, none, some doc)] ++
      ({ unplaced := [(table, doc)] } : Record Doc)).changesFor d = [] := rfl
  rw [Record.runsOf_append, runsOf_ranFor hd, hruns, hchanges, List.append_nil, List.nil_append,
    Record.candidatesFor]
  by_cases hbefore : d.before = true
  · by_cases htable : d.table = table
    · simp [hbefore, htable, ranFor]
    · have hne : ¬ table = d.table := fun h => htable h.symm
      simp [hbefore, htable, hne, ranFor, seenBy]
  · simp [hbefore]

theorem displaceRows_ok {t : Table H} {s : InsertStmt Doc H} {newDocs : List Doc}
    {locs : List ℕ} {w w' : Index.Work H}
    (h : displaceRows env heap c nested table t s newDocs locs w e = (.ok w', e')) :
    Adds c e e' True := by
  unfold displaceRows at h
  split at h
  · rw [(pure_eq_ok_iff.mp h).2]
    exact .refl rfl
  · obtain ⟨⟨found, w₁⟩, -, h⟩ := fromExcept_bind_eq_ok_iff.mp h
    dsimp only at h
    rw [StateExcept.read_bind] at h
    obtain ⟨_, -, h⟩ := fromExcept_bind_eq_ok_iff.mp h
    obtain ⟨_, e₁, hbefore, h⟩ := bind_eq_ok_iff.mp h
    obtain ⟨⟨_, w₂⟩, -, h⟩ := fromExcept_bind_eq_ok_iff.mp h
    obtain ⟨_, e₂, hnote, h⟩ := bind_eq_ok_iff.mp h
    obtain ⟨_, e₃, hafter, h⟩ := bind_eq_ok_iff.mp h
    rw [(pure_eq_ok_iff.mp h).2]
    refine .announced table
      ((Index.docsAt found (locs.toFinset.sort (· ≤ ·))).map fun x => .deleted x.2) ?_
    rw [fireAll_ok hafter, noteChanged_ok hnote, fireAll_ok hbefore, Dml.announced]
    simp only [Record.append_assoc, List.map_map]
    rfl

theorem insertRow_ok {t : Table H} {s : InsertStmt Doc H} {newDocs : List Doc}
    {st st' : Staged Doc H} {doc : Doc}
    (h : insertRow env heap c nested table t s newDocs st doc e = (.ok st', e')) :
    Adds c e e' True := by
  obtain ⟨_, e₁, hbefore, h⟩ := bind_eq_ok_iff.mp h
  replace hbefore := fireRow_ok (.insert, none, some doc) hbefore
  rw [StateExcept.read_bind] at h
  obtain ⟨⟨conflict, w⟩, -, h⟩ := fromExcept_bind_eq_ok_iff.mp h
  cases conflict with
  | some loc =>
    obtain ⟨_, e₂, hnote, h⟩ := bind_eq_ok_iff.mp h
    have hcandidate : Adds c e e₂ True := by
      refine ⟨_, ?_, iff_of_true (candidate_faithful c table doc) trivial⟩
      rw [(note_ok hnote).1, hbefore, ← Record.append_assoc]
      change Record.mk _ _ _ = Record.mk _ _ _
      simp
    split at h
    · rw [(pure_eq_ok_iff.mp h).2]
      exact hcandidate
    · obtain ⟨⟨pair, w'⟩, -, h⟩ := fromExcept_bind_eq_ok_iff.mp h
      cases pair with
      | none =>
        rw [(pure_eq_ok_iff.mp h).2]
        exact hcandidate
      | some u =>
        obtain ⟨placed, old, new⟩ := u
        obtain ⟨_, e₃, hchanged, h⟩ := bind_eq_ok_iff.mp h
        obtain ⟨_, e₄, hrun, h⟩ := bind_eq_ok_iff.mp h
        obtain ⟨_, e₅, hafter, h⟩ := bind_eq_ok_iff.mp h
        rw [(pure_eq_ok_iff.mp h).2]
        refine hcandidate.trans (.announced table [.updated old new s.assigned] ?_)
        rw [fireRow_ok (.update (some s.assigned), some old, some new) hafter,
          fireRow_ok (.update (some s.assigned), some old, some new) hrun,
          noteChanged_ok hchanged, Dml.announced]
        simp only [Record.append_assoc]
        rfl
  | none =>
    obtain ⟨⟨loc, w'⟩, -, h⟩ := fromExcept_bind_eq_ok_iff.mp h
    obtain ⟨_, e₂, hchanged, h⟩ := bind_eq_ok_iff.mp h
    obtain ⟨_, e₃, hafter, h⟩ := bind_eq_ok_iff.mp h
    rw [(pure_eq_ok_iff.mp h).2]
    refine .announced table [.inserted doc] ?_
    rw [fireRow_ok (.insert, none, some doc) hafter, noteChanged_ok hchanged, hbefore,
      Dml.announced]
    simp only [Record.append_assoc]
    rfl

theorem insertRows_ok {t : Table H} {s : InsertStmt Doc H} {newDocs docs : List Doc}
    {st st' : Staged Doc H}
    (h : insertRows env heap c nested table t s newDocs docs st e = (.ok st', e')) :
    Adds c e e' True := by
  induction docs generalizing st e with
  | nil =>
    rw [(pure_eq_ok_iff.mp h).2]
    exact .refl rfl
  | cons doc docs ih =>
    obtain ⟨st₁, e₁, hrow, h⟩ := bind_eq_ok_iff.mp h
    exact (insertRow_ok hrow).trans (ih h)

theorem execInsert_ok {s : InsertStmt Doc H} {done : Done Doc}
    (h : execInsert env heap c nested table s e = (.ok done, e')) : Adds c e e' True := by
  unfold execInsert at h
  rw [StateExcept.read_bind] at h
  obtain ⟨docs, -, h⟩ := fromExcept_bind_eq_ok_iff.mp h
  obtain ⟨_, -, h⟩ := fromExcept_bind_eq_ok_iff.mp h
  obtain ⟨⟨⟨newDocs, locs⟩, w⟩, -, h⟩ := fromExcept_bind_eq_ok_iff.mp h
  obtain ⟨w₁, e₁, hdisplace, h⟩ := bind_eq_ok_iff.mp h
  obtain ⟨st, e₂, hrows, h⟩ := bind_eq_ok_iff.mp h
  rw [StateExcept.read_bind] at h
  obtain ⟨_, -, h⟩ := fromExcept_bind_eq_ok_iff.mp h
  obtain ⟨_, -, h⟩ := fromExcept_bind_eq_ok_iff.mp h
  obtain ⟨_, e₃, hcommit, h⟩ := bind_eq_ok_iff.mp h
  rw [(pure_eq_ok_iff.mp h).2]
  have hloop := (displaceRows_ok hdisplace).trans (insertRows_ok hrows)
  exact hloop.trans (.refl (commitTable_ok hcommit))

/-! ## UPDATE and DELETE -/

/-- A write to one table, between its triggers. -/
theorem write_ok {α : Type} {images : α → Image Doc} {xs : List α} {changes : List (Change Doc)}
    {t : Table H} {docs : List Doc} {e₁ e₂ e₃ : Session Doc H} {u : Unit}
    (hbefore : fireAll c nested table true images xs e = (.ok u, e₁))
    (hnote : noteChanged table changes e₁ = (.ok u, e₂))
    (hcommit : commitTable env table t docs e₂ = (.ok u, e₃))
    (hafter : fireAll c nested table false images xs e₃ = (.ok u, e')) :
    e'.record = e.record ++ announced c table (xs.map images) changes := by
  rw [fireAll_ok hafter, commitTable_ok hcommit, noteChanged_ok hnote, fireAll_ok hbefore,
    announced]
  simp only [Record.append_assoc]

theorem execUpdateFast_ok {s : UpdateStmt Doc H} {plan : Index.Plan} {done : Done Doc}
    (h : execUpdateFast env heap c nested table s plan e = (.ok done, e')) :
    Adds c e e' True := by
  unfold execUpdateFast at h
  rw [StateExcept.read_bind] at h
  obtain ⟨updates, -, h⟩ := fromExcept_bind_eq_ok_iff.mp h
  split at h
  · rw [(pure_eq_ok_iff.mp h).2]
    exact .refl rfl
  · obtain ⟨_, -, h⟩ := fromExcept_bind_eq_ok_iff.mp h
    obtain ⟨_, -, h⟩ := fromExcept_bind_eq_ok_iff.mp h
    obtain ⟨_, e₁, hbefore, h⟩ := bind_eq_ok_iff.mp h
    obtain ⟨⟨_, w⟩, -, h⟩ := fromExcept_bind_eq_ok_iff.mp h
    obtain ⟨_, -, h⟩ := fromExcept_bind_eq_ok_iff.mp h
    obtain ⟨_, e₂, hnote, h⟩ := bind_eq_ok_iff.mp h
    obtain ⟨_, e₃, hcommit, h⟩ := bind_eq_ok_iff.mp h
    obtain ⟨_, e₄, hafter, h⟩ := bind_eq_ok_iff.mp h
    rw [(pure_eq_ok_iff.mp h).2]
    refine ⟨_, write_ok hbefore hnote hcommit hafter, iff_of_true (announced_faithful ?_) trivial⟩
    rw [List.map_map]
    rfl

theorem execDeleteFast_ok {s : DeleteStmt Doc H} {plan : Index.Plan} {done : Done Doc}
    (h : execDeleteFast env heap c nested table s plan e = (.ok done, e')) :
    Adds c e e' True := by
  unfold execDeleteFast at h
  rw [StateExcept.read_bind] at h
  obtain ⟨targets, -, h⟩ := fromExcept_bind_eq_ok_iff.mp h
  split at h
  · rw [(pure_eq_ok_iff.mp h).2]
    exact .refl rfl
  · obtain ⟨_, -, h⟩ := fromExcept_bind_eq_ok_iff.mp h
    obtain ⟨_, e₁, hbefore, h⟩ := bind_eq_ok_iff.mp h
    obtain ⟨⟨found, w⟩, -, h⟩ := fromExcept_bind_eq_ok_iff.mp h
    obtain ⟨⟨_, w₁⟩, -, h⟩ := fromExcept_bind_eq_ok_iff.mp h
    obtain ⟨_, e₂, hnote, h⟩ := bind_eq_ok_iff.mp h
    obtain ⟨_, e₃, hcommit, h⟩ := bind_eq_ok_iff.mp h
    obtain ⟨_, e₄, hafter, h⟩ := bind_eq_ok_iff.mp h
    rw [(pure_eq_ok_iff.mp h).2]
    refine ⟨_, write_ok hbefore hnote hcommit hafter, iff_of_true (announced_faithful ?_) trivial⟩
    rw [List.map_map]
    rfl

/-! ## Referential plans -/

theorem ranFor_append (c : Catalog Doc H) (table : String) (before : Bool)
    (xs ys : List (Image Doc)) :
    ranFor c table before (xs ++ ys) = ranFor c table before xs ++ ranFor c table before ys := by
  change Record.mk _ _ _ = Record.mk _ _ _
  simp [ranFor]

theorem fireDelta_ok {columns : List String} {δ : ReferentialDelta Doc} {u : Unit}
    (h : fireDelta env c nested columns table before δ e = (.ok u, e')) :
    e'.record = e.record ++ ranFor c table before (deltaImages env columns δ) := by
  obtain ⟨_, e₁, hdeletes, h⟩ := bind_eq_ok_iff.mp h
  rw [fireAll_ok h, fireAll_ok hdeletes, deltaImages, ranFor_append, Record.append_assoc]

theorem deltaImages_empty {columns : List String} {δ : ReferentialDelta Doc}
    (h : δ.isEmpty = true) : deltaImages env columns δ = [] := by
  obtain ⟨hdeletes, hupdates⟩ := (Bool.and_eq_true _ _).mp h
  rw [deltaImages, List.isEmpty_iff.mp hdeletes, List.isEmpty_iff.mp hupdates]
  rfl

theorem deltaChanges_empty {origin : String} {assigned columns : List String}
    {base : List (Doc × Doc)} {δ : ReferentialDelta Doc} (h : δ.isEmpty = true) (pre : List Doc) :
    deltaChanges env origin assigned base columns table δ pre = [] := by
  obtain ⟨hdeletes, hupdates⟩ := (Bool.and_eq_true _ _).mp h
  refine List.filterMap_eq_nil_iff.mpr fun doc _ => ?_
  have hfate : δ.fate env doc = none := by
    rw [ReferentialDelta.fate, ReferentialDelta.deleteKeys, List.isEmpty_iff.mp hdeletes,
      List.isEmpty_iff.mp hupdates]
    rfl
  rw [hfate]
  rfl

theorem applyTable_ok {origin : String} {assigned : List String} {base : List (Doc × Doc)}
    {tables : Tables H} {deltas : Deltas Doc}
    (h : applyTable env heap c nested origin assigned base tables deltas table e =
      (.ok (), e')) :
    let δ := (deltas table).getD {}
    let columns := (tables table).tableMeta.columns
    e'.record = e.record ++ announced c table (deltaImages env columns δ)
      (deltaChanges env origin assigned base columns table δ (docsOf heap tables table)) := by
  unfold applyTable at h
  dsimp only at h ⊢
  split at h
  case isTrue hempty =>
    rw [(pure_eq_ok_iff.mp h).2, deltaImages_empty hempty, deltaChanges_empty hempty]
    exact (Record.append_empty _).symm
  case isFalse =>
    rw [StateExcept.read_bind] at h
    obtain ⟨_, e₁, hbefore, h⟩ := bind_eq_ok_iff.mp h
    obtain ⟨t', -, h⟩ := fromExcept_bind_eq_ok_iff.mp h
    obtain ⟨_, e₂, hnote, h⟩ := bind_eq_ok_iff.mp h
    obtain ⟨_, e₃, hcommit, hafter⟩ := bind_eq_ok_iff.mp h
    rw [fireDelta_ok hafter, commitTable_ok hcommit, noteChanged_ok hnote, fireDelta_ok hbefore,
      announced]
    simp only [Record.append_assoc]

theorem planOrder_nodup (c : Catalog Doc H) (origin : String) (deltas : Deltas Doc) :
    (planOrder c origin deltas).Nodup := by
  refine List.Nodup.filter _ (List.nodup_cons.mpr ⟨by simp, ?_⟩)
  exact (Trigger.closureLoop_nodup c.shape _ _ _ List.nodup_nil).filter _

section Plan

variable {assigned : List String} {base plain : List (Doc × Doc)} {deletes : List Doc}

theorem applyReferentialPlan_ok {tables : Tables H} {order : List String} {deltas : Deltas Doc}
    (h : applyReferentialPlan env heap c nested table assigned base tables order deltas e =
      (.ok (), e')) :
    e'.record = e.record ++ announcedAll c
      (fun t => deltaImages env (tables t).tableMeta.columns ((deltas t).getD {}))
      (fun t => deltaChanges env table assigned base (tables t).tableMeta.columns t
        ((deltas t).getD {}) (docsOf heap tables t)) order := by
  unfold applyReferentialPlan at h
  dsimp only at h
  generalize hrun : forEach (applyTable env heap c nested table assigned base tables deltas) order
    { e with referentialGuard := some order } = out at h
  obtain ⟨r, e₁⟩ := out
  obtain ⟨rfl, rfl⟩ := Prod.mk.inj h
  have hloop := forEach_ok (fun _ _ _ hstep => applyTable_ok hstep) hrun
  exact hloop

theorem repeats_ownUpdates {origin : String} (pre : String → List Doc)
    (h : Repeats env (pre origin) base plain) (t : String) :
    Repeats env (pre t) (ownUpdates origin base t) (ownUpdates origin plain t) := by
  unfold ownUpdates
  by_cases ht : t = origin
  · rw [if_pos ht, if_pos ht, ht]
    exact h
  · rw [if_neg ht, if_neg ht]
    exact fun doc _ => .inr ⟨rfl, Nat.zero_le 1⟩

theorem execReferential_ok (plain : List (Doc × Doc)) {δ : ReferentialDelta Doc}
    (hdeletes : ∀ doc ∈ deletes, doc ∈ docsOf heap e.tables table)
    (hbase : ∀ p ∈ base, p.1 ∈ docsOf heap e.tables table) (honly : deletes = [] ∨ base = [])
    (hrepeats : Repeats env (docsOf heap e.tables table) base plain)
    (h : execReferential env heap c nested table assigned base deletes e = (.ok δ, e')) :
    Adds c e e' (PlanShows env heap c table e.tables assigned base plain deletes) := by
  unfold execReferential at h
  rw [StateExcept.read_bind] at h
  obtain ⟨⟨order, deltas⟩, hplan, h⟩ := fromExcept_bind_eq_ok_iff.mp h
  obtain ⟨_, e₁, happly, h⟩ := bind_eq_ok_iff.mp h
  rw [(pure_eq_ok_iff.mp h).2]
  obtain ⟨htracks, horder⟩ := planReferentialActions_tracks hdeletes hbase honly hplan
  refine ⟨_, applyReferentialPlan_ok happly, ?_⟩
  rw [announcedAll_faithful_iff _ _ (horder ▸ planOrder_nodup c table deltas)]
  have hshown : ∀ t ∈ order, ∀ d ∈ c.triggers, d.table = t → _ := fun t _ d _ _ =>
    delta_shown_iff (e.tables t).tableMeta.columns t table assigned base d (htracks t)
      (repeats_ownUpdates (docsOf heap e.tables) hrepeats t)
  constructor
  · intro hall order' deltas' hplan' t ht d hd htable
    obtain ⟨rfl, rfl⟩ := Prod.mk.inj (Except.ok.inj (hplan.symm.trans hplan'))
    exact (hshown t ht d hd htable).mp
      ((announced_faithful_iff _ _ _ c).mp (hall t ht) d hd htable)
  · intro hshow t ht
    refine (announced_faithful_iff _ _ _ c).mpr fun d hd htable => ?_
    exact (hshown t ht d hd htable).mpr (hshow order deltas hplan t ht d hd htable)

end Plan

end Steps

end Docsql.Dml
