import Docsql.Catalog.Create
import Docsql.Catalog.Drop
import Docsql.Lib.Run

/-!
# ALTER TABLE keeps references

Columns that foreign keys are on stay, and foreign keys follow a new name of a column or a
table.  Triggers and the queries of materialized views do not follow.
-/

namespace Docsql.Catalog

open Sql (Rows)

variable {s s' : Schema} {ops : DdlOps}

/-! ## Columns -/

theorem addColumn_inv (h : Inv s) {table col : String} {e : Entry} (hget : s.get table = some e)
    (hview : e.isView = false) : Inv (s.put table { e with columns := e.columns ++ [col] }) := by
  refine h.altered hget rfl hview hview (fun q hq => h.queries table e q hget hq)
    (List.Subset.refl _) ?_
  intro n o hn fk hfk href
  obtain ⟨parent, hparent, -, hcol⟩ := h.foreignKeys n o hn fk hfk
  rw [href, hget] at hparent
  cases hparent
  exact List.mem_append_left _ hcol

theorem dropOneColumn_inv (h : Inv s) {table col : String}
    (hview : ∀ e, s.get table = some e → e.isView = false)
    (hexec : dropOneColumn ops table s col = .ok s') : Inv s' := by
  unfold dropOneColumn at hexec
  split at hexec
  · cases hexec
  · rename_i e hget
    obtain ⟨-, hexec⟩ := Except.guard_eq_ok hexec
    obtain ⟨-, hexec⟩ := Except.guard_eq_ok hexec
    obtain ⟨husers, hexec⟩ := Except.guard_eq_ok hexec
    cases hexec
    refine h.altered hget rfl (hview e hget) (hview e hget)
      (fun q hq => h.queries table e q hget hq) (fun fk hfk => List.mem_of_mem_filter hfk) ?_
    intro n o hn fk hfk href
    obtain ⟨parent, hparent, -, hcol⟩ := h.foreignKeys n o hn fk hfk
    rw [href, hget] at hparent
    cases hparent
    refine List.mem_filter.2 ⟨hcol, decide_eq_true fun hsame => husers ?_⟩
    have hmem : n ∈ s.names.filter fun n => (s.get n).any fun e =>
        e.foreignKeys.any fun fk => fk.refTable = table ∧ fk.refCol = col := by
      refine List.mem_filter.2 ⟨s.mem_names hn, ?_⟩
      rw [hn, Option.any_some, List.any_eq_true]
      exact ⟨fk, hfk, decide_eq_true ⟨href, hsame⟩⟩
    rw [Bool.not_eq_true', List.isEmpty_eq_false_iff]
    exact List.ne_nil_of_mem hmem

/-- The same objects with the same queries, their columns and foreign keys apart. -/
theorem Inv.mapped (h : Inv s) {f : String → Entry → Entry} (hid : ∀ n e, (f n e).id = e.id)
    (hkind : ∀ n e, (f n e).kind = e.kind)
    (hfks : ∀ n e, s.get n = some e → ∀ fk ∈ (f n e).foreignKeys, ∃ parent,
      s.get fk.refTable = some parent ∧ parent.isView = false ∧
        fk.refCol ∈ (f fk.refTable parent).columns) : Inv (s.mapEntries f) := by
  have hview (n : String) (e : Entry) : (f n e).isView = e.isView := by
    unfold Entry.isView
    rw [hkind]
  have hold {n : String} {e' : Entry} (hget : (s.mapEntries f).get n = some e') :
      ∃ e, s.get n = some e ∧ f n e = e' :=
    Option.map_eq_some_iff.1 (s.get_mapEntries f n ▸ hget)
  have hnew {n : String} {e : Entry} (hget : s.get n = some e) :
      (s.mapEntries f).get n = some (f n e) := by
    rw [s.get_mapEntries, hget]
    rfl
  refine {
    queries := ?_
    triggers := ?_
    foreignKeys := ?_
    acyclic := ?_
    walked := ?_ }
  · intro n e' q hget hq t ht
    obtain ⟨e, he, rfl⟩ := hold hget
    rw [Entry.query, hkind] at hq
    obtain ⟨base, hbase⟩ := Option.isSome_iff_exists.1 (h.queries n e q he hq t ht)
    rw [hnew hbase]
    rfl
  · intro p hp
    obtain ⟨e, he, hno, hmade⟩ := h.triggers p hp
    exact ⟨_, hnew he, (hview _ e).trans hno, (hid _ e).trans hmade⟩
  · intro n e' hget fk hfk
    obtain ⟨e, he, rfl⟩ := hold hget
    obtain ⟨parent, hparent, hno, hcol⟩ := hfks n e he fk hfk
    exact ⟨_, hnew hparent, (hview _ parent).trans hno, hcol⟩
  · refine h.acyclic.mono fun v refs hrefs => ?_
    obtain ⟨e', q, hget, hq, rfl⟩ := Schema.viewRefs_eq_some hrefs
    obtain ⟨e, he, rfl⟩ := hold hget
    exact Schema.viewRefs_of_view he (hkind v e ▸ hq)
  · intro n e' q hget hq
    obtain ⟨e, he, rfl⟩ := hold hget
    exact h.walked n e q he (hkind n e ▸ hq)

theorem renameColumn_inv (h : Inv s) {table old new : String}
    (hexec : renameColumn s table old new = .ok s') : Inv s' := by
  unfold renameColumn at hexec
  split at hexec
  · cases hexec
  · obtain ⟨-, hexec⟩ := Except.guard_eq_ok hexec
    obtain ⟨-, hexec⟩ := Except.guard_eq_ok hexec
    obtain ⟨-, hexec⟩ := Except.guard_eq_ok hexec
    cases hexec
    refine h.mapped (fun _ _ => rfl) (fun _ _ => rfl) ?_
    intro n e hget fk' hfk'
    obtain ⟨fk, hfk, rfl⟩ := List.mem_map.1 hfk'
    obtain ⟨parent, hparent, hno, hcol⟩ := h.foreignKeys n e hget fk hfk
    refine ⟨parent, hparent, hno, ?_⟩
    by_cases href : fk.refTable = table
    · simp only [renameFkColumn, if_pos href]
      exact List.mem_map_of_mem hcol
    · simp only [renameFkColumn, if_neg href]
      exact hcol

theorem checkAlter_ok {table : String} (h : checkAlter s table = .ok ()) :
    ∃ e, s.get table = some e ∧ e.kind = .table := by
  unfold checkAlter at h
  obtain ⟨-, h⟩ := Except.guard_eq_ok h
  split at h
  · cases h
  · rename_i e hget
    split at h
    · cases h
    · split at h
      · cases h
      · rename_i hmatview hview
        refine ⟨e, hget, ?_⟩
        cases hkind : e.kind with
        | table => rfl
        | view q => exact absurd (Entry.isView_of_kind hkind) hview
        | matview q => exact absurd (by rw [Entry.isMatview, hkind]) hmatview

/-- The table that is altered stays a table. -/
def IsTable (s : Schema) (table : String) : Prop := ∀ e, s.get table = some e → e.isView = false

theorem isTable_put {table : String} {e : Entry} (h : e.isView = false) :
    IsTable (s.put table e) table := by
  intro e' hget
  rw [s.get_put, if_pos rfl] at hget
  cases hget
  exact h

theorem dropOneColumn_isTable {table col : String} (htable : IsTable s table)
    (hexec : dropOneColumn ops table s col = .ok s') : IsTable s' table := by
  unfold dropOneColumn at hexec
  split at hexec
  · cases hexec
  · rename_i e hget
    obtain ⟨-, hexec⟩ := Except.guard_eq_ok hexec
    obtain ⟨-, hexec⟩ := Except.guard_eq_ok hexec
    obtain ⟨-, hexec⟩ := Except.guard_eq_ok hexec
    cases hexec
    exact isTable_put (htable e hget)

theorem renameColumn_isTable {table old new : String} (htable : IsTable s table)
    (hexec : renameColumn s table old new = .ok s') : IsTable s' table := by
  unfold renameColumn at hexec
  split at hexec
  · cases hexec
  · obtain ⟨-, hexec⟩ := Except.guard_eq_ok hexec
    obtain ⟨-, hexec⟩ := Except.guard_eq_ok hexec
    obtain ⟨-, hexec⟩ := Except.guard_eq_ok hexec
    cases hexec
    intro e' hget
    rw [s.get_mapEntries] at hget
    obtain ⟨e, he, rfl⟩ := Option.map_eq_some_iff.1 hget
    exact htable e he

theorem alterOp_inv {table : String} {op : AlterOp} (h : Inv s ∧ IsTable s table)
    (hexec : alterOp ops table s op = .ok s') : Inv s' ∧ IsTable s' table := by
  cases op with
  | addColumn col =>
    rw [alterOp] at hexec
    split at hexec
    · cases hexec
    · rename_i e hget
      split at hexec
      · cases hexec
      · cases hexec
        exact ⟨addColumn_inv h.1 hget (h.2 e hget), isTable_put (h.2 e hget)⟩
  | dropColumn cols =>
    refine Except.foldlM_keeps (P := fun s => Inv s ∧ IsTable s table) ?_ h hexec
    intro s col s' h hdrop
    exact ⟨dropOneColumn_inv h.1 h.2 hdrop, dropOneColumn_isTable h.2 hdrop⟩
  | renameColumn old new =>
    exact ⟨renameColumn_inv h.1 hexec, renameColumn_isTable h.2 hexec⟩

theorem alterTable_inv (h : Inv s) {table : String} {alterOps : List AlterOp}
    (hexec : alterTable ops s table alterOps = .ok s') : Inv s' := by
  obtain ⟨_, hcheck, hexec⟩ := Except.bind_eq_ok_iff.1 hexec
  obtain ⟨e, hget, hkind⟩ := checkAlter_ok hcheck
  have htable : IsTable s table := by
    intro e' hget'
    rw [hget] at hget'
    cases hget'
    rw [Entry.isView, hkind]
  exact (Except.foldlM_keeps (P := fun s => Inv s ∧ IsTable s table)
    (fun _ _ _ => alterOp_inv) ⟨h, htable⟩ hexec).1

/-! ## RENAME TO -/

section RenameTable

variable {table newName : String} {e : Entry}

/-- Foreign keys follow the name. -/
def renameKeys (table newName : String) (e : Entry) : Entry :=
  { e with foreignKeys := e.foreignKeys.map fun fk =>
      { fk with refTable := renamed table newName fk.refTable } }

/-- `s'` is `s` with the table under its new name. -/
def Moved (s s' : Schema) (table newName : String) (e : Entry) : Prop :=
  ∀ t, s'.get t = (if t = newName then some e else if t = table then none else s.get t).map
    (renameKeys table newName)

theorem Moved.get_new (h : Moved s s' table newName e) :
    s'.get newName = some (renameKeys table newName e) := by
  rw [h, if_pos rfl]
  rfl

theorem Moved.get_other (h : Moved s s' table newName e) (hfree : s.get newName = none)
    {t : String} {o : Entry} (ht : t ≠ table) (hget : s.get t = some o) :
    s'.get t = some (renameKeys table newName o) := by
  have hne : t ≠ newName := by
    rintro rfl
    rw [hfree] at hget
    cases hget
  rw [h, if_neg hne, if_neg ht, hget]
  rfl

theorem Moved.of_get (h : Moved s s' table newName e) {t : String} {o' : Entry}
    (hget : s'.get t = some o') : t = newName ∧ o' = renameKeys table newName e ∨
      t ≠ table ∧ ∃ o, s.get t = some o ∧ o' = renameKeys table newName o := by
  rw [h] at hget
  obtain ⟨o, ho, rfl⟩ := Option.map_eq_some_iff.1 hget
  split at ho
  · rename_i ht
    cases ho
    exact .inl ⟨ht, rfl⟩
  · split at ho
    · cases ho
    · rename_i hne
      exact .inr ⟨hne, o, ho, rfl⟩

theorem Inv.moved (h : Inv s) (hmoved : Moved s s' table newName e)
    (hget : s.get table = some e) (hkind : e.kind = .table) (hfree : s.get newName = none)
    (htriggers : ∀ p ∈ s'.triggers, p ∈ s.triggers ∧ p.2.table ≠ table)
    (hviews : ViewsStay s [table]) (hmatviews : MatviewsStay s {table}) : Inv s' where
  queries := by
    intro n o' q hn hq t ht
    rcases hmoved.of_get hn with ⟨rfl, rfl⟩ | ⟨hne, o, ho, rfl⟩
    · rw [Entry.query, renameKeys, hkind] at hq
      cases hq
    · have hstays : t ≠ table := by
        rcases Entry.kind_of_query hq with hkind | hkind
        · rintro rfl
          exact hviews n o q ho hkind (by simpa using hne) t ht List.mem_cons_self
        · exact hmatviews n o q ho hkind hne t ht
      obtain ⟨base, hbase⟩ := Option.isSome_iff_exists.1 (h.queries n o q ho hq t ht)
      rw [hmoved.get_other hfree hstays hbase]
      rfl
  triggers := by
    intro p hp
    obtain ⟨hold, hne⟩ := htriggers p hp
    obtain ⟨o, ho, hview, hid⟩ := h.triggers p hold
    exact ⟨_, hmoved.get_other hfree hne ho, hview, hid⟩
  foreignKeys := by
    intro n o' hn fk' hfk'
    obtain ⟨o, m, ho, rfl⟩ : ∃ o m, s.get m = some o ∧ o' = renameKeys table newName o := by
      rcases hmoved.of_get hn with ⟨-, ho'⟩ | ⟨-, o, ho, ho'⟩
      · exact ⟨e, table, hget, ho'⟩
      · exact ⟨o, n, ho, ho'⟩
    obtain ⟨fk, hfk, rfl⟩ := List.mem_map.1 hfk'
    obtain ⟨parent, hparent, hview, hcol⟩ := h.foreignKeys m o ho fk hfk
    by_cases href : fk.refTable = table
    · rw [href, hget] at hparent
      cases hparent
      simp only [renamed, if_pos href]
      exact ⟨_, hmoved.get_new, hview, hcol⟩
    · simp only [renamed, if_neg href]
      exact ⟨_, hmoved.get_other hfree href hparent, hview, hcol⟩
  acyclic := by
    refine h.acyclic.mono fun v refs hrefs => ?_
    obtain ⟨o', q, hv, hq, rfl⟩ := Schema.viewRefs_eq_some hrefs
    rcases hmoved.of_get hv with ⟨-, rfl⟩ | ⟨-, o, ho, rfl⟩
    · rw [renameKeys, hkind] at hq
      cases hq
    · exact Schema.viewRefs_of_view ho hq
  walked := by
    intro n o' q hn hq
    rcases hmoved.of_get hn with ⟨-, rfl⟩ | ⟨-, o, ho, rfl⟩
    · rw [renameKeys, hkind] at hq
      cases hq
    · exact h.walked n o q ho hq

end RenameTable

theorem renameTable_inv (h : Inv s) {table newName : String}
    (htriggers : ∀ p ∈ s.triggers, p.2.table ≠ table) (hmatviews : MatviewsStay s {table})
    (hexec : renameTable s table newName = .ok s') : Inv s' := by
  obtain ⟨_, hcheck, hexec⟩ := Except.bind_eq_ok_iff.1 hexec
  obtain ⟨hfree, hexec⟩ := Except.guard_eq_ok hexec
  obtain ⟨-, hexec⟩ := Except.guard_eq_ok hexec
  obtain ⟨-, hexec⟩ := Except.guard_eq_ok hexec
  obtain ⟨-, hexec⟩ := Except.guard_eq_ok hexec
  obtain ⟨hdeps, hexec⟩ := Except.guard_eq_ok hexec
  obtain ⟨e, hget, hkind⟩ := checkAlter_ok hcheck
  rw [hget] at hexec
  cases hexec
  have hmoved : Moved s (((s.removeAll [table]).put newName e).mapEntries fun _ =>
      renameKeys table newName) table newName e := by
    intro t
    rw [Schema.get_mapEntries, Schema.get_put, Schema.get_removeAll]
    simp only [List.mem_singleton]
  refine h.moved hmoved hget hkind (by simpa using hfree) (fun p hp => ⟨hp, htriggers p hp⟩)
    (h.viewsStay ?_) hmatviews
  simpa using hdeps

end Docsql.Catalog

/-!
# No dangling references

Each statement keeps the catalog sound as long as it does not meet one of the places where
references are passed over: names the walker or the dry run of a view body does not get to,
materialized views and triggers when names go, and foreign keys of a table on itself.
-/

namespace Docsql.Catalog

open Sql (Rows)
open Lib

variable {s s' : Schema} {ops : DdlOps} {db : String → Rows}

/-! ## Runs -/

/-- A statement that does not reach a place where references are passed over.  A body that is
run when it is stored has no other names than those that were found to exist. -/
def Safe (ops : DdlOps) (s : Schema) (event : Event) : Prop :=
  match event.1 with
  | .createTable name columns foreignKeys _ =>
    s.get name = none → SelfKeysDeclared name columns foreignKeys
  | .createView _ q _ _ => ∀ r, runQuery ops event.2 s { views := 1 } q = .ok r → Readable s q
  | .createMatview name q _ _ =>
    ∀ r, runQuery ops event.2 s {} q = .ok r → Refreshable s name q r.columns
  | .dropView names _ cascade => MatviewsStay s (Goes s names cascade)
  | .dropTable names _ cascade => MatviewsStay s (Goes s names cascade)
  | .renameTable table _ => (∀ p ∈ s.triggers, p.2.table ≠ table) ∧ MatviewsStay s {table}
  | _ => True

theorem exec_inv {ddl : Ddl} (h : Inv s) (hsafe : Safe ops s (ddl, db))
    (hexec : exec ops db s ddl = .ok s') : Inv s' := by
  cases ddl with
  | createTable name columns foreignKeys ifNotExists => exact createTable_inv h hsafe hexec
  | createTableAs name q ifNotExists => exact createTableAs_inv h hexec
  | createView name q orReplace ifNotExists => exact createView_inv h hsafe hexec
  | createMatview name q orReplace ifNotExists => exact createMatview_inv h hsafe hexec
  | createTrigger name table orReplace => exact createTrigger_inv h hexec
  | dropTrigger names ifExists => exact dropTrigger_inv h hexec
  | dropView names ifExists cascade => exact dropView_inv h hsafe hexec
  | dropTable names ifExists cascade => exact dropTable_inv h hsafe hexec
  | alterTable table alterOps => exact alterTable_inv h hexec
  | renameTable table newName => exact renameTable_inv h hsafe.1 hsafe.2 hexec
  | createIndex table =>
    rw [exec] at hexec
    split at hexec
    · cases hexec
    · split at hexec
      · cases hexec
      · cases hexec
        exact h
  | dropIndex name =>
    cases hexec
    exact h

theorem step_inv (s : Schema) (event : Event) (h : Inv s) (hsafe : Safe ops s event) :
    Inv (step ops s event) := by
  unfold step
  split
  · rename_i hexec
    exact exec_inv h hsafe hexec
  · exact h

theorem inv_empty : Inv {} where
  queries := nofun
  triggers := nofun
  foreignKeys := nofun
  acyclic := RefGraph.acyclic_none
  walked := nofun

/-- Every state of a run of safe statements is sound. -/
theorem run_sound (ops : DdlOps) (events : List Event)
    (hsafe : ∀ done event, done ++ [event] <+: events → Safe ops (run ops done) event) :
    ∀ done, done <+: events → Sound (run ops done) := by
  intro done hdone
  exact (Run.inv_of_fit inv_empty step_inv hsafe hdone).toSound

/-! ## Examples of runs -/

def plainDdl : DdlOps where
  rows := Sql.plainOps
  fuel := 9
  textReferencesIdent _ _ := false
  refuses _ _ _ := .ok ()

/-- Statements on empty tables. -/
def onEmpty (statements : List Ddl) : List Event := statements.map fun ddl => (ddl, fun _ => [])

def createT : Ddl := .createTable "t" ["a"] [] false

/-- A view goes with its table, and so does a trigger. -/
def cascaded : List Event := onEmpty
  [createT, .createView "v" (Sql.selectFrom "a" ["t"]) false false, .createTrigger "tr" "t" false,
    .dropTable ["t"] false true]

theorem legible_selectFrom (column table : String) : Legible (Sql.selectFrom column [table]) := by
  intro cat
  simp [Sql.Reported, Sql.selectFrom, Sql.missedQuery, Sql.missedCtes, Sql.missedBody,
    Sql.missedSelect, Sql.missedSources, Sql.missedFactor, Sql.missedJoins, Sql.missedExprs,
    Sql.missedExpr, Sql.missedOpt, Sql.cteShadow, Sql.readsOpt, Sql.catalogNames]

theorem matviewsStay_of_none {targets : Set String}
    (h : s.tables.all (fun p => !p.2.isMatview) = true) : MatviewsStay s targets := by
  intro n e q hget hkind
  obtain ⟨before, after, hsplit, -⟩ := List.lookup_eq_some_iff.1 hget
  have hno := List.all_eq_true.1 h (n, e) (by rw [hsplit]; simp)
  rw [Entry.isMatview, hkind] at hno
  cases hno

theorem run_sound_cascaded :
    ((run plainDdl (cascaded.take 3)).get "v").isSome = true ∧
      ∀ done, done <+: cascaded → Sound (run plainDdl done) := by
  refine ⟨by decide +kernel, run_sound plainDdl cascaded (Run.Fits.at_prefix ?_)⟩
  refine ⟨nofun, fun r _ => ⟨legible_selectFrom "a" "t", ?_⟩, trivial, ?_, trivial⟩
  · have hnames : Sql.namesQuery [] (Sql.selectFrom "a" ["t"]) = ["t"] := by decide +kernel
    rw [hnames]
    decide +kernel
  · exact matviewsStay_of_none (by decide +kernel)

/-- The trigger stays with the old name. -/
def renamedUnderTrigger : List Event := onEmpty
  [createT, .createTrigger "tr" "t" false, .renameTable "t" "u"]

/-- The materialized view stays without its table. -/
def droppedUnderMatview : List Event := onEmpty
  [createT, .createMatview "m" (Sql.selectFrom "a" ["t"]) false false, .dropTable ["t"] false false]

/-- The column of a foreign key on the table itself is not looked for. -/
def selfKey : List Event := onEmpty [.createTable "t" ["a"] [⟨"a", "t", "b"⟩] false]

/-- The walker takes `x.t` for another table than the executor does. -/
def droppedUnderQualified : List Event := onEmpty
  [createT, .createView "v" (Sql.selectFrom "a" ["x", "t"]) false false,
    .dropTable ["t"] false false]

theorem not_sound_of_trigger (h : s.triggers.any (fun p => (s.get p.2.table).isNone) = true) :
    ¬Sound s := by
  intro hs
  obtain ⟨p, hp, hnone⟩ := List.any_eq_true.1 h
  obtain ⟨e, hget, -⟩ := hs.triggers p hp
  rw [hget] at hnone
  cases hnone

theorem not_sound_of_query {n : String} (h : ((s.get n).bind Entry.query).any (fun q =>
    (Sql.namesQuery [] q).any fun t => (s.get t).isNone) = true) : ¬Sound s := by
  intro hs
  obtain ⟨q, hq, hany⟩ := (Option.any_eq_true _ _).1 h
  obtain ⟨e, hget, hquery⟩ := Option.bind_eq_some_iff.1 hq
  obtain ⟨t, ht, hnone⟩ := List.any_eq_true.1 hany
  have hex := hs.queries n e q hget hquery t ht
  rw [Option.isNone_iff_eq_none.1 hnone] at hex
  cases hex

theorem not_sound_of_key {n : String} (h : (s.get n).any (fun e => e.foreignKeys.any fun fk =>
    !(s.get fk.refTable).any fun parent => fk.refCol ∈ parent.columns) = true) : ¬Sound s := by
  intro hs
  obtain ⟨e, hget, hany⟩ := (Option.any_eq_true _ _).1 h
  obtain ⟨fk, hfk, hno⟩ := List.any_eq_true.1 hany
  obtain ⟨parent, hparent, -, hcol⟩ := hs.foreignKeys n e hget fk hfk
  rw [hparent, Option.any_some, decide_eq_true hcol] at hno
  cases hno

theorem dangling_references :
    ¬Sound (run plainDdl renamedUnderTrigger) ∧ ¬Sound (run plainDdl droppedUnderMatview) ∧
      ¬Sound (run plainDdl droppedUnderQualified) ∧ ¬Sound (run plainDdl selfKey) := by
  refine ⟨not_sound_of_trigger ?_, not_sound_of_query (n := "m") ?_,
    not_sound_of_query (n := "v") ?_, not_sound_of_key (n := "t") ?_⟩
  · decide +kernel
  · decide +kernel
  · decide +kernel
  · decide +kernel

end Docsql.Catalog
