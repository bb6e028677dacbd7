import Docsql.Autoinc.Plan

/-!
# The watermark over runs

Statements, the statements of the trigger bodies inside them, and transaction control.  In every
run whose statements have room below the largest integer, and whose trigger bodies leave the
tables of the statements around them alone, a cached watermark is ahead of the live ids and
generated ids are new.
-/

namespace Docsql.Autoinc

/-! ## The engine -/

/-- The tables and the watermark cache, as `catalog_snapshot` keeps them. -/
structure Snapshot where
  tables : String → Option Table
  autoinc : String → Option Int64

/-- The savepoints are listed from the newest. -/
structure Engine extends Snapshot where
  txSnapshot : Option Snapshot
  savepoints : List (String × Snapshot)

namespace Engine

variable (e : Engine)

/-- The statement has looked its watermark up. -/
def start (s : Statement) (table : Table) : Engine :=
  { e with autoinc := Function.update e.autoinc s.target (s.starts table (e.autoinc s.target)) }

def mark (t : String) (m : Mark) : Engine :=
  { e with autoinc := Function.update e.autoinc t (m.apply (e.autoinc t)) }

def put (t : String) (table : Option Table) : Engine :=
  { e with tables := Function.update e.tables t table }

/-- `restore_transaction` -/
def restore (snap : Snapshot) : Engine := { e with toSnapshot := snap }

end Engine

/-! ## Commands outside of statements -/

inductive Command where
  | createTable (t : String) (autoinc : Option String)
  | dropTables (ts : List String)
  | renameTable (old new : String)
  | wipe (doomed : String → Bool)
  | begin
  | commit
  | rollback
  | savepoint (name : String)
  | rollbackTo (name : String)
  | release (name : String)

def dropTable (e : Engine) (t : String) : Engine := (e.put t none).mark t .forget

/-- The savepoint of the name and those in front of it. -/
def findSavepoint (name : String) :
    List (String × Snapshot) → Option (Snapshot × List (String × Snapshot))
  | [] => none
  | (n, snap) :: rest => if n = name then some (snap, rest) else findSavepoint name rest

def Command.apply (e : Engine) : Command → Option Engine
  | createTable t autoinc =>
    if (e.tables t).isSome then none else some (e.put t (some ⟨autoinc, []⟩))
  | dropTables ts => some (ts.foldl dropTable e)
  | renameTable old new =>
    if (e.tables new).isSome then none
    else
      match e.tables old with
      | none => none
      | some table => some (((dropTable e old).put new (some table)).mark new .forget)
  | wipe doomed =>
    some { e with
      tables := fun t => if doomed t then none else e.tables t
      autoinc := fun _ => none }
  | begin =>
    if e.txSnapshot.isSome then none else some { e with txSnapshot := some e.toSnapshot }
  | commit =>
    if e.txSnapshot.isSome then some { e with txSnapshot := none, savepoints := [] } else none
  | rollback =>
    match e.txSnapshot with
    | some snap => some { e.restore snap with txSnapshot := none, savepoints := [] }
    | none => none
  | savepoint name =>
    if e.txSnapshot.isSome ∧ e.savepoints.length < 64 then
      some { e with savepoints := (name, e.toSnapshot) :: e.savepoints }
    else none
  | rollbackTo name =>
    match findSavepoint name e.savepoints with
    | some (snap, rest) => some { e.restore snap with savepoints := rest }
    | none => none
  | release name =>
    match findSavepoint name e.savepoints with
    | some (_, rest) => some { e with savepoints := rest }
    | none => none

/-! ## Runs -/

/-- What lands when the staged rows are committed on a table that was read as `base`: the staged
rows, or page by page a mixture with what another statement has committed meanwhile. -/
def Commits (base staged current content : List Doc) : Prop :=
  (current = base → content = staged) ∧ ∀ d ∈ content, d ∈ staged ∨ d ∈ current

/-- The engine behind the commit of a statement. -/
def Engine.land (e : Engine) (s : Statement) (w : Write) (content : List Doc) : Engine :=
  (e.put s.target (some ⟨w.autoinc, content⟩)).mark s.target w.atCommit

/-- Statements one after the other, inside statements that write `held`, innermost first; each of
them is subject to `ok`.  Trigger bodies run before and behind the commit of a statement. -/
inductive Steps (ok : List String → Engine → Statement → Prop) :
    List String → Engine → Engine → Prop
  | done {held e} : Steps ok held e e
  | statement {held e s table w e₁ current content e₂ e'} : ok held e s →
      e.tables s.target = some table → s.plan table (e.autoinc s.target) = some w →
      Steps ok (s.target :: (s.guarded ++ held)) (e.start s table) e₁ →
      e₁.tables s.target = some current → Commits table.docs w.docs current.docs content →
      Steps ok (s.target :: (s.guarded ++ held)) (e₁.land s w content) e₂ →
      (w.after = false → e₂ = e₁.land s w content) →
      Steps ok held (e₂.mark s.target w.atEnd) e' → Steps ok held e e'
  /-- A statement outside of triggers fails behind the lookup of its watermark. -/
  | refused {e s table e'} : ok [] e s → e.tables s.target = some table →
      Steps ok [] (e.start s table) e' → Steps ok [] e e'
  | command {c e e₁ e'} : Command.apply e c = some e₁ → Steps ok [] e₁ e' → Steps ok [] e e'

/-- A body may not write the table whose trigger is firing. -/
def Guard (held : List String) (_ : Engine) (s : Statement) : Prop := held.head? ≠ some s.target

/-- The statement writes no table of a statement around it, and has room. -/
def Clear (held : List String) (e : Engine) (s : Statement) : Prop :=
  s.target ∉ held ∧ ∀ table, e.tables s.target = some table → s.Roomy table (e.autoinc s.target)

/-- The ids that an `INSERT` generates are new. -/
def Fresh (e : Engine) : Statement → Prop
  | .insert s => ∀ table col docs next, e.tables s.table = some table → table.autoinc = some col →
      s.documents table.autoinc (autoincNextFor table (e.autoinc s.table)) = some (docs, next) →
      FreshAmong col table.docs (s.rows.map (rowId table.autoinc s.columns)) docs
  | _ => True

/-- A cached watermark is greater than the live ids, unless their maximum is the largest
integer. -/
def Ahead (e : Engine) : Prop :=
  ∀ t table n, e.tables t = some table → e.autoinc t = some n →
    (∀ i ∈ idsOf table.autoinc table.docs, i < n) ∨
      Int64.maxValue ∈ idsOf table.autoinc table.docs

/-! ## The invariant -/

def Snapshot.OkAt (snap : Snapshot) (t : String) : Prop :=
  ∀ table, snap.tables t = some table → TableOk table (snap.autoinc t)

/-- The tables outside of the running statements are in order, and so is every snapshot. -/
structure Inv (held : List String) (e : Engine) : Prop where
  ok : ∀ t ∉ held, e.OkAt t
  tx : ∀ snap, e.txSnapshot = some snap → ∀ t, snap.OkAt t
  savepoints : ∀ p ∈ e.savepoints, ∀ t, p.2.OkAt t

variable {e e' : Engine} {t : String}

theorem Inv.ahead (h : Inv [] e) : Ahead e := by
  intro t table n htable hn
  by_cases hmax : Int64.maxValue ∈ idsOf table.autoinc table.docs
  · exact .inr hmax
  · refine .inl fun i hi => ?_
    rcases h.ok t List.not_mem_nil table htable n hn i hi with hlt | ⟨rfl, -⟩
    · exact hlt
    · exact absurd hi hmax

theorem OkAt.of_forget (h : e.autoinc t = none) : e.OkAt t := by
  intro table _ n hn
  rw [h] at hn
  cases hn

theorem OkAt.of_none (h : e.tables t = none) : e.OkAt t := by
  intro table ht
  rw [h] at ht
  cases ht

theorem OkAt.congr (htable : e'.tables t = e.tables t) (hcache : e'.autoinc t = e.autoinc t)
    (h : e.OkAt t) : e'.OkAt t := by
  intro table ht
  rw [hcache]
  exact h table (htable ▸ ht)

/-- Two engines with the same entries for a table. -/
def SameAt (e e' : Engine) (t : String) : Prop :=
  e'.tables t = e.tables t ∧ e'.autoinc t = e.autoinc t

theorem SameAt.okAt (h : SameAt e e' t) (hok : e.OkAt t) : e'.OkAt t := OkAt.congr h.1 h.2 hok

theorem SameAt.trans {e'' : Engine} (h : SameAt e e' t) (h' : SameAt e' e'' t) : SameAt e e'' t :=
  ⟨h'.1.trans h.1, h'.2.trans h.2⟩

section Parts

variable {s : Statement} {table : Table} {w : Write} {content : List Doc} {m : Mark}

theorem start_same (h : t ≠ s.target) : SameAt e (e.start s table) t :=
  ⟨rfl, Function.update_of_ne h _ _⟩

theorem mark_same {target : String} (h : t ≠ target) : SameAt e (e.mark target m) t :=
  ⟨rfl, Function.update_of_ne h _ _⟩

theorem land_same (h : t ≠ s.target) : SameAt e (e.land s w content) t :=
  ⟨Function.update_of_ne h _ _, Function.update_of_ne h _ _⟩

/-- A change of the tables of running statements. -/
theorem Inv.change {held held' : List String} (h : Inv held e) (hsub : held ⊆ held')
    (hsame : ∀ t ∉ held', SameAt e e' t) (htx : e'.txSnapshot = e.txSnapshot)
    (hsave : e'.savepoints = e.savepoints) : Inv held' e' where
  ok t ht := (hsame t ht).okAt (h.ok t fun hmem => ht (hsub hmem))
  tx := htx ▸ h.tx
  savepoints := hsave ▸ h.savepoints

end Parts

/-! ## Commands -/

theorem dropTable_okAt (h : ∀ t, e.OkAt t) (dropped t : String) : (dropTable e dropped).OkAt t := by
  by_cases heq : t = dropped
  · subst heq
    exact OkAt.of_forget (Function.update_self ..)
  · exact OkAt.congr (Function.update_of_ne heq _ _) (Function.update_of_ne heq _ _) (h t)

theorem dropTables_okAt {ts : List String} (h : ∀ t, e.OkAt t) (t : String) :
    (ts.foldl dropTable e).OkAt t := by
  induction ts generalizing e with
  | nil => exact h t
  | cons dropped ts ih => exact ih fun t => dropTable_okAt h dropped t

theorem dropTables_rest (ts : List String) :
    (ts.foldl dropTable e).txSnapshot = e.txSnapshot ∧
      (ts.foldl dropTable e).savepoints = e.savepoints := by
  induction ts generalizing e with
  | nil => exact ⟨rfl, rfl⟩
  | cons dropped ts ih => exact ih

theorem findSavepoint_mem {name : String} {saved rest : List (String × Snapshot)} {snap : Snapshot}
    (h : findSavepoint name saved = some (snap, rest)) :
    (∃ p ∈ saved, p.2 = snap) ∧ rest ⊆ saved := by
  induction saved with
  | nil => cases h
  | cons p saved ih =>
    unfold findSavepoint at h
    split_ifs at h
    · cases h
      exact ⟨⟨p, List.mem_cons_self, rfl⟩, List.subset_cons_self _ _⟩
    · obtain ⟨⟨q, hq, heq⟩, hsub⟩ := ih h
      exact ⟨⟨q, List.mem_cons_of_mem _ hq, heq⟩, fun x hx => List.mem_cons_of_mem _ (hsub hx)⟩

/-- A command outside of statements keeps the invariant: what it restores was in order. -/
theorem Inv.command {c : Command} (h : Inv [] e) (hc : c.apply e = some e') : Inv [] e' := by
  have hok (t : String) : e.OkAt t := h.ok t List.not_mem_nil
  cases c with
  | createTable t autoinc =>
    rw [Command.apply] at hc
    split_ifs at hc with hsome
    cases hc
    refine ⟨fun x _ => ?_, h.tx, h.savepoints⟩
    by_cases heq : x = t
    · subst heq
      intro table htable n _ i hi
      cases (Function.update_self ..).symm.trans htable
      cases autoinc with
      | none => cases hi
      | some col => cases hi
    · exact OkAt.congr (Function.update_of_ne heq _ _) rfl (hok x)
  | dropTables ts =>
    cases hc
    obtain ⟨htx, hsave⟩ := dropTables_rest (e := e) ts
    exact ⟨fun x _ => dropTables_okAt hok x, htx ▸ h.tx, hsave ▸ h.savepoints⟩
  | renameTable old new =>
    rw [Command.apply] at hc
    split_ifs at hc
    split at hc
    · cases hc
    · cases hc
      refine ⟨fun x _ => ?_, h.tx, h.savepoints⟩
      by_cases heq : x = new
      · subst heq
        exact OkAt.of_forget (Function.update_self ..)
      · exact OkAt.congr (Function.update_of_ne heq _ _) (Function.update_of_ne heq _ _)
          (dropTable_okAt hok old x)
  | wipe doomed =>
    cases hc
    exact ⟨fun x _ => OkAt.of_forget rfl, h.tx, h.savepoints⟩
  | begin =>
    rw [Command.apply] at hc
    split_ifs at hc
    cases hc
    exact ⟨h.ok, fun snap hsnap t => Option.some.inj hsnap ▸ hok t, h.savepoints⟩
  | commit =>
    rw [Command.apply] at hc
    split_ifs at hc
    cases hc
    exact ⟨h.ok, nofun, nofun⟩
  | rollback =>
    rw [Command.apply] at hc
    split at hc
    · rename_i snap hsnap
      cases hc
      exact ⟨fun t _ => h.tx snap hsnap t, nofun, nofun⟩
    · cases hc
  | savepoint name =>
    rw [Command.apply] at hc
    split_ifs at hc
    cases hc
    refine ⟨h.ok, h.tx, fun p hp t => ?_⟩
    rcases List.mem_cons.mp hp with rfl | hp
    · exact hok t
    · exact h.savepoints p hp t
  | rollbackTo name =>
    rw [Command.apply] at hc
    split at hc
    · rename_i snap rest hfind
      cases hc
      obtain ⟨⟨p, hp, rfl⟩, hsub⟩ := findSavepoint_mem hfind
      exact ⟨fun t _ => h.savepoints p hp t, h.tx, fun q hq t => h.savepoints q (hsub hq) t⟩
    · cases hc
  | release name =>
    rw [Command.apply] at hc
    split at hc
    · rename_i rest hfind
      cases hc
      obtain ⟨-, hsub⟩ := findSavepoint_mem hfind
      exact ⟨h.ok, h.tx, fun q hq t => h.savepoints q (hsub hq) t⟩
    · cases hc

/-! ## Runs keep the invariant -/

theorem Clear.fresh {held : List String} {s : Statement} (h : Inv held e) (hclear : Clear held e s) :
    Fresh e s := by
  cases s with
  | insert s =>
    intro table col docs next htable hcol hdocs
    exact insert_fresh (h.ok _ hclear.1 table htable) (hclear.2 table htable) hcol hdocs
  | update s => trivial
  | delete s => trivial
  | rewrite s => trivial
  | merge s => trivial

/-- What a run keeps: the invariant outside of the running statements, and their own tables. -/
structure Kept (held : List String) (e e' : Engine) : Prop where
  inv : Inv held e'
  same : ∀ t ∈ held, SameAt e e' t
  fresh : Steps (fun held e s => Clear held e s ∧ Fresh e s) held e e'

/-- By induction on the run; at a statement the bodies run first, with its table held. -/
theorem Steps.kept {held : List String} (h : Steps Clear held e e') (hinv : Inv held e) :
    Kept held e e' := by
  induction h with
  | done => exact ⟨hinv, fun _ _ => ⟨rfl, rfl⟩, .done⟩
  | @statement held e s table w e₁ current content e₂ e' hclear htable hplan _ hcurrent hcommits _
      hafter _ ihbefore ihafter ihrest =>
    obtain ⟨hfree, hroom⟩ := hclear
    have hok := hinv.ok _ hfree table htable
    have hsub : held ⊆ s.target :: (s.guarded ++ held) := fun t ht =>
      List.mem_cons_of_mem _ (List.mem_append_right _ ht)
    have hne {t : String} (ht : t ∉ s.target :: (s.guarded ++ held)) : t ≠ s.target := fun heq =>
      ht (heq ▸ List.mem_cons_self)
    have hbefore := ihbefore (hinv.change hsub (fun t ht => start_same (hne ht)) rfl rfl)
    have htarget := hbefore.same s.target List.mem_cons_self
    obtain rfl : current = table := by
      have heq := hcurrent.symm.trans (htarget.1.trans htable)
      exact Option.some.inj heq
    obtain rfl : content = w.docs := hcommits.1 rfl
    have hafter' := ihafter (hbefore.inv.change (List.Subset.refl _)
      (fun t ht => land_same (hne ht)) rfl rfl)
    have hend : Inv held (e₂.mark s.target w.atEnd) := by
      refine ⟨fun t ht => ?_, hafter'.inv.tx, hafter'.inv.savepoints⟩
      by_cases heq : t = s.target
      · subst heq
        have hlast := hafter'.same s.target List.mem_cons_self
        have hcache : (e₂.mark s.target w.atEnd).autoinc s.target =
            w.leaves (s.starts current (e.autoinc s.target)) := by
          have hstart : e₁.autoinc s.target = s.starts current (e.autoinc s.target) :=
            htarget.2.trans (Function.update_self ..)
          have hland : e₂.autoinc s.target = w.atCommit.apply (e₁.autoinc s.target) :=
            hlast.2.trans (Function.update_self ..)
          rw [Write.leaves, ← hstart, ← hland]
          exact Function.update_self ..
        intro table' htable'
        rw [hcache]
        have hrows : e₂.tables s.target = some ⟨w.autoinc, w.docs⟩ :=
          hlast.1.trans (Function.update_self ..)
        cases hrows.symm.trans htable'
        exact plan_leaves hok (hroom current htable) hplan
      · refine (mark_same heq).okAt ?_
        by_cases hguard : t ∈ s.guarded
        · have hmem : t ∈ s.target :: (s.guarded ++ held) :=
            List.mem_cons_of_mem _ (List.mem_append_left _ hguard)
          have hsame := ((start_same heq).trans (hbefore.same t hmem)).trans
            ((land_same heq).trans (hafter'.same t hmem))
          exact hsame.okAt (hinv.ok t ht)
        · refine hafter'.inv.ok t fun hmem => ?_
          rcases List.mem_cons.mp hmem with rfl | hmem
          · exact heq rfl
          · exact (List.mem_append.mp hmem).elim hguard ht
    have hrest := ihrest hend
    refine ⟨hrest.inv, fun t ht => ?_, ?_⟩
    · have heq : t ≠ s.target := fun heq => hfree (heq ▸ ht)
      exact ((((start_same heq).trans (hbefore.same t (hsub ht))).trans
        ((land_same heq).trans (hafter'.same t (hsub ht)))).trans (mark_same heq)).trans
          (hrest.same t ht)
    · exact .statement ⟨⟨hfree, hroom⟩, Clear.fresh hinv ⟨hfree, hroom⟩⟩ htable hplan hbefore.fresh
        hcurrent hcommits hafter'.fresh hafter hrest.fresh
  | @refused e s table e' hclear htable _ ih =>
    have hstart : Inv [] (e.start s table) := by
      refine ⟨fun t _ => ?_, hinv.tx, hinv.savepoints⟩
      by_cases heq : t = s.target
      · subst heq
        intro table' htable'
        cases htable.symm.trans htable'
        rw [show (e.start s table).autoinc s.target = s.starts table (e.autoinc s.target) from
          Function.update_self ..]
        exact (hinv.ok _ List.not_mem_nil table htable).starts (hclear.2 table htable)
      · exact (start_same heq).okAt (hinv.ok t List.not_mem_nil)
    have hrest := ih hstart
    exact ⟨hrest.inv, fun _ ht => absurd ht List.not_mem_nil,
      .refused ⟨hclear, Clear.fresh hinv hclear⟩ htable hrest.fresh⟩
  | command hc _ ih =>
    have hrest := ih (hinv.command hc)
    exact ⟨hrest.inv, fun _ ht => absurd ht List.not_mem_nil, .command hc hrest.fresh⟩

/-- A database that has just been opened has no watermarks and no transaction. -/
def Opened (e : Engine) : Prop :=
  e.autoinc = (fun _ => none) ∧ e.txSnapshot = none ∧ e.savepoints = []

/-- In every run whose statements have room, and whose trigger bodies leave the tables of the
statements around them alone, a cached watermark is ahead of the live ids, and every `INSERT`
generates ids that are new. -/
theorem watermark_ahead {e₀ e : Engine} (hopen : Opened e₀) (h : Steps Clear [] e₀ e) :
    Ahead e ∧ Steps (fun held e s => Clear held e s ∧ Fresh e s) [] e₀ e := by
  obtain ⟨hcache, htx, hsave⟩ := hopen
  have hinv : Inv [] e₀ := by
    refine ⟨fun t _ => OkAt.of_forget (congrFun hcache t), ?_, ?_⟩
    · intro snap hsnap
      rw [htx] at hsnap
      cases hsnap
    · intro p hp
      rw [hsave] at hp
      cases hp
  have hkept := h.kept hinv
  exact ⟨hkept.inv.ahead, hkept.fresh⟩

/-! ## A table with two columns -/

section Samples

/-- A statement without triggers around or inside it. -/
theorem Steps.alone {ok : List String → Engine → Statement → Prop} {s : Statement} {table : Table}
    {w : Write} (hok : ok [] e s) (htable : e.tables s.target = some table)
    (hplan : s.plan table (e.autoinc s.target) = some w)
    (h : Steps ok [] (((e.start s table).land s w w.docs).mark s.target w.atEnd) e') :
    Steps ok [] e e' :=
  .statement hok htable hplan .done htable ⟨fun _ => rfl, fun _ hd => .inl hd⟩ .done
    (fun _ => rfl) h

/-- `INSERT INTO t` with the columns and rows. -/
def insertInto (columns : List String) (rows : List (List Value)) : InsertStmt where
  table := "t"
  columns := columns
  rows := rows
  complete := some
  complete_keeps _ _ _ _ h hv := Option.some.inj h ▸ hv
  survives _ := true
  kept _ := true
  assigned := none
  resolve _ _ := .place

/-- `CREATE TABLE t (id INT AUTOINCREMENT, v INT)` in an empty database. -/
def created : Engine where
  tables := Function.update (fun _ => none) "t" (some ⟨some "id", []⟩)
  autoinc _ := none
  txSnapshot := none
  savepoints := []

/-- `INSERT INTO t (id, v) VALUES (5, 0), (NULL, 0)` -/
def insertTwo : InsertStmt := insertInto ["id", "v"] [[.int 5, .int 0], [.null, .int 0]]

def rowFive : Doc := docOf ["id", "v"] [.int 5, .int 0]

def rowSix : Doc := docOf ["id", "v"] [.int 6, .int 0]

/-- The ids 5 and 6 lie below the watermark 7. -/
theorem watermark_ahead_six : ∃ e, Steps Clear [] created e ∧ e.autoinc "t" = some 7 ∧ Ahead e := by
  have hplan : (Statement.insert insertTwo).plan ⟨some "id", []⟩ none =
      some ⟨some "id", [rowFive, rowSix], .keep, false, .set 7⟩ := rfl
  have hclear : Clear [] created (.insert insertTwo) := by
    refine ⟨List.not_mem_nil, ?_⟩
    rintro table ⟨⟩
    exact ⟨fun _ => by decide, by decide⟩
  have hrun : Steps Clear [] created _ := Steps.alone hclear rfl hplan .done
  exact ⟨_, hrun, rfl, (watermark_ahead ⟨rfl, rfl, rfl⟩ hrun).1⟩

/-- `INSERT INTO t (id, v) VALUES (9223372036854775806, 0)` -/
def insertHigh : InsertStmt := insertInto ["id", "v"] [[.int (Int64.maxValue - 1), .int 0]]

/-- `INSERT INTO t (v) VALUES (1), (2)` -/
def insertMore : InsertStmt := insertInto ["v"] [[.int 1], [.int 2]]

def rowHigh : Doc := docOf ["id", "v"] [.int (Int64.maxValue - 1), .int 0]

/-- A row with the largest integer as its id. -/
def rowTop (v : Int64) : Doc := docOf ["v", "id"] [.int v, .int Int64.maxValue]

/-- One below the largest integer two rows are left to be numbered, and both get that integer. -/
theorem ids_repeat_at_the_top :
    ∃ e e', Steps Guard [] created e ∧ Guard [] e (.insert insertMore) ∧
      ¬ Fresh e (.insert insertMore) ∧ Steps Guard [] e e' ∧
      e'.tables "t" = some ⟨some "id", [rowHigh, rowTop 1, rowTop 2]⟩ ∧
      (rowTop 1) "id" = (rowTop 2) "id" := by
  have hguard (e : Engine) (s : Statement) : Guard [] e s := nofun
  have hhigh : (Statement.insert insertHigh).plan ⟨some "id", []⟩ none =
      some ⟨some "id", [rowHigh], .keep, false, .set Int64.maxValue⟩ := rfl
  have hmore : (Statement.insert insertMore).plan ⟨some "id", [rowHigh]⟩ (some Int64.maxValue) =
      some ⟨some "id", [rowHigh, rowTop 1, rowTop 2], .keep, false, .set Int64.maxValue⟩ := rfl
  have hdocs : insertMore.documents (some "id") Int64.maxValue =
      some ([rowTop 1, rowTop 2], Int64.maxValue) := rfl
  obtain ⟨e, hrun, htable, hcache⟩ : ∃ e, Steps Guard [] created e ∧
      e.tables "t" = some ⟨some "id", [rowHigh]⟩ ∧ e.autoinc "t" = some Int64.maxValue :=
    ⟨_, Steps.alone (hguard _ _) rfl hhigh .done, rfl, rfl⟩
  rw [← hcache] at hmore
  have hrun' := Steps.alone (hguard e (.insert insertMore)) htable hmore .done
  refine ⟨e, _, hrun, hguard _ _, fun hfresh => ?_, hrun', rfl, rfl⟩
  rw [← show autoincNextFor ⟨some "id", [rowHigh]⟩ (e.autoinc "t") = Int64.maxValue by
    rw [hcache]; rfl] at hdocs
  have hpair := (hfresh _ "id" _ _ htable rfl hdocs).1
  exact List.rel_of_pairwise_cons hpair List.mem_cons_self rfl rfl

end Samples

end Docsql.Autoinc
