import Docsql.Encode
import Docsql.Sql.Authorize
import Docsql.Sql.Names

/-!
# The catalog and the statements that change it

Tables, views, materialized views and triggers with what they refer to: the query of a view,
the table of a trigger, the table and column of a foreign key.  Of the other checks a statement
makes (constraints, storage options, index names, data to be converted) only that they may
refuse it is kept, in `DdlOps`.
-/

namespace Docsql.Catalog

open Sql (Query RowOps Rows)
open Lib.Worklist (Visit drain)

structure FkRef where
  col : String
  refTable : String
  refCol : String

inductive Kind where
  | table
  | view (q : Query)
  | matview (q : Query)

/-- `id` tells objects apart that have had the same name; the engine keeps no such number. -/
structure Entry where
  id : ℕ
  columns : List String := []
  foreignKeys : List FkRef := []
  kind : Kind := .table

/-- `made` is the table the trigger was created on. -/
structure TriggerDef where
  table : String
  made : ℕ

structure Schema where
  tables : List (String × Entry) := []
  triggers : List (String × TriggerDef) := []
  /-- The next id. -/
  next : ℕ := 0

namespace Entry

def isView (e : Entry) : Bool :=
  match e.kind with
  | .view _ => true
  | _ => false

def isMatview (e : Entry) : Bool :=
  match e.kind with
  | .matview _ => true
  | _ => false

/-- The stored query. -/
def query (e : Entry) : Option Query :=
  match e.kind with
  | .table => none
  | .view q => some q
  | .matview q => some q

/-- A materialized view is a table to those who read it. -/
def toMeta (e : Entry) : Sql.TableMeta :=
  match e.kind with
  | .view q => ⟨e.columns, some (.ok q)⟩
  | _ => ⟨e.columns, none⟩

end Entry

/-! ## Statements -/

inductive AlterOp where
  | addColumn (name : String)
  | dropColumn (names : List String)
  | renameColumn (old new : String)

inductive Ddl where
  | createTable (name : String) (columns : List String) (foreignKeys : List FkRef)
    (ifNotExists : Bool)
  | createTableAs (name : String) (q : Query) (ifNotExists : Bool)
  | createView (name : String) (q : Query) (orReplace ifNotExists : Bool)
  | createMatview (name : String) (q : Query) (orReplace ifNotExists : Bool)
  | createTrigger (name table : String) (orReplace : Bool)
  | dropTrigger (names : List String) (ifExists : Bool)
  | dropView (names : List String) (ifExists cascade : Bool)
  /-- DROP MATERIALIZED VIEW as well. -/
  | dropTable (names : List String) (ifExists cascade : Bool)
  | alterTable (table : String) (ops : List AlterOp)
  | renameTable (table newName : String)
  | createIndex (table : String)
  | dropIndex (name : String)

/-- What is not followed here. -/
structure DdlOps where
  rows : RowOps
  fuel : ℕ
  /-- `text_references_ident` on the text of a view. -/
  textReferencesIdent : Query → String → Bool
  /-- The checks that have nothing to do with references. -/
  refuses : Schema → Ddl → (String → Rows) → Except String Unit

namespace Schema

variable (s : Schema)

def get (name : String) : Option Entry := List.lookup name s.tables

def names : List String := s.tables.map Prod.fst

def isView (name : String) : Bool := (s.get name).any Entry.isView

/-- The catalog as queries see it. -/
def catalog : Sql.Catalog := s.tables.map fun p => (p.1, p.2.toMeta)

def put (name : String) (e : Entry) : Schema := { s with tables := insertField name e s.tables }

/-- A new object. -/
def create (name : String) (columns : List String) (foreignKeys : List FkRef) (kind : Kind) :
    Schema :=
  { s.put name ⟨s.next, columns, foreignKeys, kind⟩ with next := s.next + 1 }

def mapEntries (f : String → Entry → Entry) : Schema :=
  { s with tables := s.tables.map fun p => (p.1, f p.1 p.2) }

def removeAll (names : List String) : Schema :=
  { s with tables := s.tables.filter fun p => p.1 ∉ names }

/-- Views whose bodies directly read any of the targets. -/
def directViewDependents (targets : List String) : List String :=
  s.names.filter fun n => s.isView n && !decide (n ∈ targets) &&
    (Sql.viewBaseTables s.catalog n).any fun bases => bases.any (· ∈ targets)

/-- `expand_view_dependents`: a round adds a view that was not there, so the rounds are no
more than the tables. -/
def expandRounds (cascade : Bool) : ℕ → List String → Except String (List String)
  | rounds, targets =>
    let deps := s.directViewDependents targets
    if deps.isEmpty then .ok targets
    else if !cascade then
      let dropped := String.intercalate ", " targets
      let views := String.intercalate ", " deps
      .error (s!"cannot drop {dropped}: referenced by VIEW {views} " ++
        "(drop the view first or use CASCADE)")
    else
      match rounds with
      | 0 => .ok targets
      | n + 1 => expandRounds cascade n (targets ++ deps)

def expandViewDependents (targets : List String) (cascade : Bool) :
    Except String (List String) := s.expandRounds cascade s.tables.length targets

/-- The tables with a foreign key on a table, apart from those of a list. -/
def referencing (table : String) (apart : List String) : List String :=
  s.names.filter fun n => n ≠ table ∧ n ∉ apart ∧
    (s.get n).any fun e => e.foreignKeys.any fun fk => fk.refTable = table

end Schema

/-! ## Names that are refused -/

def isCompatView (name : String) : Bool :=
  Sql.isDual name || Sql.asciiLower name ∈ ["sqlite_master", "sqlite_temporal_master",
    "information_schema.tables", "information_schema.columns", "all_tables", "user_tables",
    "all_tab_columns", "user_tab_columns", "all_indexes", "user_indexes"]

def checkName (what temp name : String) : Except String Unit := do
  if name.startsWith "#" then throw s!"temp {what}s ({temp}) are not supported"
  if Sql.isUserTable name then
    throw s!"{what} name {name} is reserved for the user/role subsystem"
  if Sql.isSystemTable name then throw s!"{what} name {name} is reserved for the engine"
  if isCompatView name then
    throw s!"{what} name {name} is reserved for the compatibility dictionary views"

section Exec

variable (ops : DdlOps) (db : String → Rows) (s : Schema)

/-! ## CREATE -/

/-- A foreign key on the table itself is passed over. -/
def checkForeignKey (name : String) (fk : FkRef) : Except String Unit :=
  let col := fk.col
  let table := fk.refTable
  let refCol := fk.refCol
  if fk.refTable = name then .ok ()
  else
    match s.get fk.refTable with
    | none => .error (s!"FOREIGN KEY on {name}.{col} references table {table}, " ++
        s!"which does not exist (create {table} first)")
    | some parent =>
      if parent.isView then
        .error s!"FOREIGN KEY on {name}.{col} cannot reference the VIEW {table}"
      else if fk.refCol ∉ parent.columns then
        .error s!"FOREIGN KEY on {name}.{col} references unknown column {table}.{refCol}"
      else .ok ()

def createTable (name : String) (columns : List String) (foreignKeys : List FkRef)
    (ifNotExists : Bool) : Except String Schema := do
  checkName "table" "#name/##name" name
  if (s.get name).isSome then
    if ifNotExists then return s else throw s!"table {name} already exists"
  else
    foreignKeys.forM (checkForeignKey s name)
    return s.create name columns foreignKeys .table

/-- The result of a query that a statement runs. -/
def runQuery (depth : Sql.Depth) (q : Query) : Except String Sql.QueryResult :=
  Sql.execQuery ops.rows s.catalog ops.fuel depth q db

def createTableAs (name : String) (q : Query) (ifNotExists : Bool) : Except String Schema := do
  checkName "table" "#name/##name" name
  if (s.get name).isSome then
    if ifNotExists then return s else throw s!"table {name} already exists"
  else
    let r ← runQuery ops db s {} q
    return s.create name r.columns [] .table

/-- The names that lead from the body of a replaced view back to it. -/
def visitRef (name next : String) : Except String (Visit String) :=
  if next = name then .error s!"view {name} cannot reference itself (through {next})"
  else
    match Sql.viewBaseTables s.catalog next with
    | some deeper => .ok (.expand deeper)
    | none => .ok .leaf

def checkCycle (name : String) (refs : List String) : Except String Unit := do
  let _ ← drain (visitRef s name) "" s.tables.length { stack := refs.reverse }
  return ()

/-- The body must be one the walker goes through and may not lead back to the view. -/
def checkBody (name : String) (q : Query) : Except String Unit := do
  let walk := Sql.walkQuery s.catalog.tableExists q
  if !walk.ok then throw "view body cannot be classified"
  if name ∈ walk.names then throw s!"view {name} cannot reference itself"
  if (s.get name).isSome then checkCycle s name walk.names

/-- The body is run once, one expansion deep, before the view is stored. -/
def createView (name : String) (q : Query) (orReplace ifNotExists : Bool) :
    Except String Schema := do
  checkName "view" "#name" name
  match s.get name with
  | some e =>
    if !orReplace then
      if ifNotExists then return s else throw s!"view {name} already exists"
    else if !e.isView then throw s!"{name} is a table; use DROP TABLE before CREATE VIEW"
    else
      checkBody s name q
      let _ ← runQuery ops db s { views := 1 } q
      return s.put name { e with columns := [], foreignKeys := [], kind := .view q }
  | none =>
    checkBody s name q
    let _ ← runQuery ops db s { views := 1 } q
    return s.create name [] [] (.view q)

/-- A query on another materialized view is refused. -/
def checkMatviewQuery (name : String) (q : Query) : Except String Unit :=
  match Sql.stmtReadTargets s.catalog.tableExists q with
  | none => .error "materialized view queries must be plain SELECTs over base tables"
  | some targets =>
    match targets.find? fun t => (s.get t).any Entry.isMatview with
    | some mv => .error (s!"materialized view {name} cannot query materialized view {mv} " ++
        "(refresh cascades and dump ordering are not supported)")
    | none => .ok ()

def createMatview (name : String) (q : Query) (orReplace ifNotExists : Bool) :
    Except String Schema := do
  checkName "materialized view" "#name" name
  match s.get name with
  | some e =>
    if !orReplace then
      if ifNotExists then return s else throw s!"materialized view {name} already exists"
    else if !e.isMatview then
      let kind := if e.isView then "VIEW" else "TABLE"
      throw (s!"{name} is not a materialized view; use DROP {kind} before " ++
        "CREATE OR REPLACE MATERIALIZED VIEW")
    else
      checkMatviewQuery s name q
      let r ← runQuery ops db s {} q
      return s.put name { e with columns := r.columns, kind := .matview q }
  | none =>
    checkMatviewQuery s name q
    let r ← runQuery ops db s {} q
    return s.create name r.columns [] (.matview q)

def createTrigger (name table : String) (orReplace : Bool) : Except String Schema := do
  if Sql.isSystemTable table || Sql.isUserTable table then
    throw s!"triggers cannot target the internal table {table}"
  match s.get table with
  | none => throw s!"table {table} does not exist"
  | some e =>
    if e.isView then throw s!"cannot create a trigger on view {table}"
    else if (List.lookup name s.triggers).isSome && !orReplace then
      throw s!"trigger {name} already exists"
    else return { s with triggers := insertField name ⟨table, e.id⟩ s.triggers }

/-! ## DROP -/

def dropTrigger (names : List String) (ifExists : Bool) : Except String Schema := do
  names.forM fun t => do
    if (List.lookup t s.triggers).isNone && !ifExists then throw s!"trigger {t} does not exist"
  return { s with triggers := s.triggers.filter fun p => p.1 ∉ names }

def checkDropView (ifExists : Bool) (name : String) : Except String Unit :=
  match s.get name with
  | none => if ifExists then .ok () else .error s!"view {name} does not exist"
  | some e =>
    if e.isView then .ok () else .error s!"{name} is a table, not a view (use DROP TABLE)"

def dropView (names : List String) (ifExists cascade : Bool) : Except String Schema := do
  names.forM (checkDropView s ifExists)
  let dropping ← s.expandViewDependents names cascade
  return s.removeAll dropping

def checkDropTable (ifExists cascade : Bool) (dropSet : List String) (name : String) :
    Except String Unit :=
  if (s.get name).isNone then
    if ifExists then .ok () else .error s!"table {name} does not exist"
  else if !(s.referencing name dropSet).isEmpty && !cascade then
    let tables := String.intercalate ", " (s.referencing name dropSet)
    .error s!"cannot drop table {name}: referenced by FOREIGN KEY in {tables}"
  else .ok ()

/-- The objects that go: with CASCADE the views that depend on them too. -/
def dropTargets (names : List String) (cascade : Bool) : Except String (List String) :=
  if cascade then s.expandViewDependents names true
  else do
    let _ ← s.expandViewDependents (names.filter fun n => (s.get n).isSome) false
    return names

/-- Foreign keys on dropped tables go; triggers go with their tables. -/
def dropAll (dropping dropSet : List String) : Schema :=
  let fkRemovals := dropSet.flatMap fun n =>
    if (s.get n).isSome then s.referencing n dropSet else []
  let s := s.mapEntries fun n e =>
    if n ∈ fkRemovals then
      { e with foreignKeys := e.foreignKeys.filter fun fk => fk.refTable ∉ dropSet }
    else e
  let s := s.removeAll dropping
  { s with triggers := s.triggers.filter fun p => p.2.table ∉ dropSet }

def dropTable (names : List String) (ifExists cascade : Bool) : Except String Schema := do
  names.forM fun name =>
    if s.isView name then .error s!"{name} is a view, not a table (use DROP VIEW)" else .ok ()
  let dropping ← dropTargets s names cascade
  let dropSet := dropping.filter fun n => !s.isView n
  dropSet.forM (checkDropTable s ifExists cascade dropSet)
  return dropAll s dropping dropSet

/-! ## ALTER TABLE -/

/-- The views over a table, however deep, that name a column. -/
def columnViews (table col : String) : List String :=
  ((s.expandViewDependents [table] true).toOption.getD []).filter fun v =>
    v ≠ table ∧ (s.get v).any fun e => match e.kind with
      | .view q => ops.textReferencesIdent q col
      | _ => false

def dropOneColumn (table : String) (s : Schema) (col : String) : Except String Schema := do
  match s.get table with
  | none => throw s!"table {table} does not exist"
  | some e =>
    if col ∉ e.columns then throw s!"column {col} does not exist"
    let views := columnViews ops s table col
    if !views.isEmpty then
      let names := String.intercalate ", " views
      throw (s!"cannot drop column {table}.{col}: referenced by VIEW {names} " ++
        "(drop the view first; its stored SQL is not rewritten)")
    let users := s.names.filter fun n => (s.get n).any fun e =>
      e.foreignKeys.any fun fk => fk.refTable = table ∧ fk.refCol = col
    if !users.isEmpty then
      let names := String.intercalate ", " users
      throw s!"cannot drop column {table}.{col}: referenced by FOREIGN KEY in {names}"
    return s.put table
      { e with
        columns := e.columns.filter (· ≠ col)
        foreignKeys := e.foreignKeys.filter fun fk => fk.col ≠ col }

def renamed (old new name : String) : String := if name = old then new else name

/-- A foreign key of the table itself, or of another one, after a column was renamed. -/
def renameFkColumn (table old new : String) (own : Bool) (fk : FkRef) : FkRef where
  col := if own then renamed old new fk.col else fk.col
  refTable := fk.refTable
  refCol := if fk.refTable = table then renamed old new fk.refCol else fk.refCol

def renameColumn (table old new : String) : Except String Schema := do
  match s.get table with
  | none => throw s!"table {table} does not exist"
  | some e =>
    if old ∉ e.columns then throw s!"column {old} does not exist"
    let deps := s.directViewDependents [table]
    if !deps.isEmpty then
      let names := String.intercalate ", " deps
      throw (s!"cannot rename column {table}.{old}: table is referenced by VIEW {names} " ++
        "(drop the view first; its stored SQL is not rewritten)")
    if old ≠ new ∧ new ∈ e.columns then throw s!"duplicate column name: {new}"
    return s.mapEntries fun n e =>
      { e with
        columns := if n = table then e.columns.map (renamed old new) else e.columns
        foreignKeys := e.foreignKeys.map (renameFkColumn table old new (n == table)) }

def alterOp (table : String) (s : Schema) : AlterOp → Except String Schema
  | .addColumn col =>
    match s.get table with
    | none => .error s!"table {table} does not exist"
    | some e =>
      if col ∈ e.columns then .error s!"duplicate column name: {col}"
      else .ok (s.put table { e with columns := e.columns ++ [col] })
  | .dropColumn cols => cols.foldlM (dropOneColumn ops table) s
  | .renameColumn old new => renameColumn s table old new

def checkAlter (table : String) : Except String Unit := do
  if Sql.isUserTable table || Sql.isSystemTable table then
    throw s!"cannot ALTER the internal table {table}"
  match s.get table with
  | none => throw s!"table {table} does not exist"
  | some e =>
    if e.isMatview then
      throw s!"cannot ALTER materialized view {table} (it is refreshed, not altered)"
    else if e.isView then throw s!"cannot ALTER view {table} (it is a view, not a table)"

/-- All operations are checked before the first is applied. -/
def alterTable (table : String) (alterOps : List AlterOp) : Except String Schema := do
  checkAlter s table
  alterOps.foldlM (alterOp ops table) s

/-- Foreign keys follow the name; views on the table make the statement fail. -/
def renameTable (table newName : String) : Except String Schema := do
  checkAlter s table
  if (s.get newName).isSome then throw s!"table {newName} already exists"
  if Sql.isSystemTable newName || Sql.isUserTable newName then
    throw s!"table name {newName} is reserved for the engine"
  if newName.startsWith "#" then throw "temp tables (#name/##name) are not supported"
  if isCompatView newName then
    throw s!"table name {newName} is reserved for the compatibility dictionary views"
  let deps := s.directViewDependents [table]
  if !deps.isEmpty then
    let names := String.intercalate ", " deps
    throw (s!"cannot rename table {table}: referenced by VIEW {names} " ++
      "(drop the view first; its stored SQL is not rewritten)")
  match s.get table with
  | none => throw s!"table {table} does not exist"
  | some e => return ((s.removeAll [table]).put newName e).mapEntries fun _ e =>
      { e with foreignKeys := e.foreignKeys.map fun fk =>
          { fk with refTable := renamed table newName fk.refTable } }

/-! ## One statement -/

def exec : Ddl → Except String Schema
  | .createTable name columns foreignKeys ifNotExists =>
    createTable s name columns foreignKeys ifNotExists
  | .createTableAs name q ifNotExists => createTableAs ops db s name q ifNotExists
  | .createView name q orReplace ifNotExists => createView ops db s name q orReplace ifNotExists
  | .createMatview name q orReplace ifNotExists =>
    createMatview ops db s name q orReplace ifNotExists
  | .createTrigger name table orReplace => createTrigger s name table orReplace
  | .dropTrigger names ifExists => dropTrigger s names ifExists
  | .dropView names ifExists cascade => dropView s names ifExists cascade
  | .dropTable names ifExists cascade => dropTable s names ifExists cascade
  | .alterTable table alterOps => alterTable ops s table alterOps
  | .renameTable table newName => renameTable s table newName
  | .createIndex table =>
    if (s.get table).isNone then .error s!"table {table} does not exist"
    else if s.isView table then .error s!"cannot CREATE INDEX on view {table}"
    else .ok s
  | .dropIndex _ => .ok s

end Exec

/-- A statement, and the rows there are when it is run. -/
abbrev Event := Ddl × (String → Rows)

/-- A statement that fails leaves the catalog as it is. -/
def step (ops : DdlOps) (s : Schema) (e : Event) : Schema :=
  match ops.refuses s e.1 e.2, exec ops e.2 s e.1 with
  | .ok _, .ok s' => s'
  | _, _ => s

def run (ops : DdlOps) (events : List Event) : Schema := events.foldl (step ops) {}

end Docsql.Catalog
