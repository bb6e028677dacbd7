import Docsql.Index.Dml
import Docsql.Lib.UndoJournal
import Docsql.Trigger.Statement
import Mathlib

/-!
# Sessions and requests

What a statement that changes rows works on: the tables with their trees, the
journal of the pager and the catalog entries that a statement can change.  The
expressions of a request are functions of the tables at the time they are
evaluated, because their subqueries read them.
-/

namespace Docsql.Dml

open Index (Table Work WorkM DocHeap ConflictTarget Policy Plan)
open Trigger (TriggerDef)

/-- Documents and expressions.  Encodings tell documents apart. -/
structure Env (Doc : Type) extends Index.Env Doc where
  fields : Doc → List String
  objectKey_injective : Function.Injective objectKey

variable {Doc H : Type}

/-- A field name with a dot in it. -/
def Env.dotted (env : Env Doc) (doc : Doc) : Bool :=
  (env.fields doc).any fun k => k.toList.contains '.'

abbrev Tables (H : Type) := String → Table H

/-! ## RETURNING -/

inductive ReturningItem (Doc : Type) where
  | wildcard
  | expr (name : String) (eval : Doc → Except String Value)
  | unsupported

inductive ExecOutcome where
  | affected (count : ℕ)
  | rows (columns : List String) (rows : List (List Value))

namespace ReturningItem

def isWildcard : ReturningItem Doc → Bool
  | wildcard => true
  | _ => false

def isUnsupported : ReturningItem Doc → Bool
  | unsupported => true
  | _ => false

def expr? : ReturningItem Doc → Option (String × (Doc → Except String Value))
  | expr name eval => some (name, eval)
  | _ => none

end ReturningItem

/-- The rows a statement returns and how many it affected. -/
structure Done (Doc : Type) where
  returned : List Doc
  count : ℕ

section Outcome

variable (env : Env Doc)

def unionOfFields (docs : List Doc) : List String :=
  (docs.flatMap env.fields).toFinset.sort (· ≤ ·)

/-- The wildcard columns come before all others. -/
def projectReturning (items : List (ReturningItem Doc)) (docs : List Doc) :
    Except String ExecOutcome := do
  if items.any ReturningItem.isUnsupported then .error "unsupported RETURNING item"
  else
    let exprs := items.filterMap ReturningItem.expr?
    let star := if items.any ReturningItem.isWildcard then unionOfFields env docs else []
    let rows ← docs.mapM fun doc => do
      let vals ← exprs.mapM fun e => e.2 doc
      .ok (star.map (fun col => (env.get doc col).getD .null) ++ vals)
    .ok (.rows (star ++ exprs.map Prod.fst) rows)

def outcome (returning : Option (List (ReturningItem Doc))) (done : Done Doc) :
    Except String ExecOutcome :=
  match returning with
  | some items => projectReturning env items done.returned
  | none => .ok (.affected done.count)

end Outcome

/-! ## Requests -/

structure InsertStmt (Doc H : Type) where
  /-- The new rows, with defaults filled in and constraints checked. -/
  rows : Tables H → Except String (List Doc)
  policy : Policy
  target : Option ConflictTarget
  /-- The update arm: its columns, WHERE and SET over the stored and the new row. -/
  assigned : List String
  selects : Tables H → Doc → Doc → Except String Bool
  merge : Tables H → Doc → Doc → Except String Doc
  /-- Foreign keys that refer to displaced rows. -/
  checkDisplaced : Tables H → List Doc → List Doc → Except String Unit
  checkFinal : Tables H → List (ℕ × Doc) → List (Doc × Doc) → Except String Unit
  returning : Option (List (ReturningItem Doc))

/-- `source` is the target table joined with the FROM or USING list: the position
of the target row, and the joined row. -/
structure UpdateStmt (Doc H : Type) where
  prepare : Tables H → Except String Unit
  plan : Tables H → Except String (Option Plan)
  source : Option (Tables H → Except String (List (ℕ × Doc)))
  selects : Tables H → Doc → Except String Bool
  assigned : List String
  values : Tables H → Doc → Except String (List (String × Value))
  /-- Foreign keys of a new row, with the rows of the statement beside it. -/
  checkForeign : Tables H → List Doc → Doc → Except String Unit
  /-- Foreign keys that refer to the rows changed. -/
  checkParents : Tables H → List (Doc × Doc) → Except String Unit
  returning : Option (List (ReturningItem Doc))

structure DeleteStmt (Doc H : Type) where
  prepare : Tables H → Except String Unit
  plan : Tables H → Except String (Option Plan)
  source : Option (Tables H → Except String (List (ℕ × Doc)))
  selects : Tables H → Doc → Except String Bool
  checkParents : Tables H → List Doc → Except String Unit
  returning : Option (List (ReturningItem Doc))

structure MergeStmt (Doc H : Type) where
  source : Tables H → Except String (List Doc)
  /-- ON over the target row and the source row. -/
  on : Doc → Doc → Except String Bool
  assigned : List String
  /-- WHEN MATCHED: the new image of the target row, its constraints checked. -/
  update : Option (Doc → Doc → Except String Doc)
  /-- WHEN NOT MATCHED: the row for a source row that is left, and the counter
  of generated ids after it. -/
  insert : Option (ℤ → Doc → Except String (Doc × ℤ))
  nextAutoinc : Tables H → Except String ℤ
  check : Tables H → List (ℕ × Doc × Doc) → List Doc → Except String Unit

inductive Request (Doc H : Type) where
  | insert (s : InsertStmt Doc H)
  | update (s : UpdateStmt Doc H)
  | delete (s : DeleteStmt Doc H)
  | merge (s : MergeStmt Doc H)

def Request.returning : Request Doc H → Option (List (ReturningItem Doc))
  | insert s => s.returning
  | update s => s.returning
  | delete s => s.returning
  | merge _ => none

/-! ## The catalog -/

inductive FkAction where
  | none
  | cascade
  | setNull
  | setDefault
deriving DecidableEq

structure ForeignKey where
  col : String
  refTable : String
  refCol : String
  onDelete : FkAction
  onUpdate : FkAction

def ForeignKey.hasAction (fk : ForeignKey) : Bool :=
  fk.onDelete ≠ .none || fk.onUpdate ≠ .none

/-- The part of the catalog that no statement on rows changes, in name order. -/
structure Catalog (Doc H : Type) where
  tables : List (String × List ForeignKey)
  triggers : List (TriggerDef Doc (Request Doc H))
  /-- NOT NULL and CHECK of a table. -/
  checkRow : String → Doc → Except String Unit
  /-- The DEFAULT of a column, refused where it is a clock or a random call. -/
  referentialDefault : String → String → Except String Value
  distinct : (tables.map Prod.fst).Nodup
  named : (triggers.map TriggerDef.name).Nodup

namespace Catalog

variable (c : Catalog Doc H)

def foreignKeys (table : String) : List ForeignKey := (c.tables.lookup table).getD []

/-- The same catalog as the closure of a table sees it. -/
def shape : Trigger.Catalog Doc (Request Doc H) where
  tables := c.tables.map fun t => (t.1, t.2.map fun fk => ⟨fk.refTable, fk.hasAction⟩)
  triggers := c.triggers
  distinct := by
    rw [List.map_map]
    exact c.distinct

def referentialClosureOf (origin : String) : List String := c.shape.referentialClosureOf origin

def referentialActionsReach (origin : String) : Bool := !(c.referentialClosureOf origin).isEmpty

def triggersExistFor (table : String) : Bool := c.triggers.any fun d => d.table = table

end Catalog

/-! ## What a statement has done -/

/-- A trigger that was run with these images. -/
structure Ran (Doc : Type) where
  trigger : String
  table : String
  before : Bool
  old : Option Doc
  new : Option Doc

/-- A row that a statement changed; an update names the columns it was made to. -/
inductive Change (Doc : Type) where
  | inserted (doc : Doc)
  | deleted (doc : Doc)
  | updated (old new : Doc) (cols : List String)

/-- The record of one statement, without those below it.  No decision reads it. -/
structure Record (Doc : Type) where
  ran : List (Ran Doc) := []
  changed : List (String × Change Doc) := []
  /-- Candidates of an INSERT that did not become rows. -/
  unplaced : List (String × Doc) := []

/-! ## Sessions -/

structure Session (Doc H : Type) where
  tables : Tables H
  /-- The sticky marker of a catalog entry: some document has a dotted field. -/
  dotted : String → Bool
  /-- The undo journal of the pager, while it records. -/
  undo : Option (List (String × Table H))
  /-- An explicit transaction is open. -/
  inTx : Bool
  referentialGuard : Option (List String)
  record : Record Doc

abbrev SessionM (Doc H : Type) := StateExcept (Session Doc H) String

open StateExcept (read update)

def note (f : Record Doc → Record Doc) : SessionM Doc H Unit :=
  update fun e => { e with record := f e.record }

def noteChanged (table : String) (changes : List (Change Doc)) : SessionM Doc H Unit :=
  note fun r => { r with changed := r.changed ++ changes.map fun ch => (table, ch) }

/-- A table as a statement leaves it: its pages are journaled, and the marker
is set where a document asks for it. -/
def commitTable (env : Env Doc) (table : String) (t : Table H) (docs : List Doc) :
    SessionM Doc H Unit :=
  update fun e => { e with
    tables := Function.update e.tables table t
    dotted := Function.update e.dotted table (e.dotted table || docs.any env.dotted)
    undo := e.undo.map fun j => UndoJournal.record e.tables j table }

/-! ## The statement guard -/

/-- Pages come back through the journal, the catalog from the snapshot. -/
def restoreTransaction (snap : String → Bool) (undo : List (String × Table H))
    (e : Session Doc H) : Session Doc H :=
  { e with tables := UndoJournal.replay undo e.tables, dotted := snap }

/-- `run_with_trigger_guard`, inside a transaction. -/
def guardInTx {α : Type} (run : SessionM Doc H α) : SessionM Doc H α := fun e =>
  let mark := (e.undo.getD []).length
  match run { e with undo := e.undo.map (UndoJournal.savepoint e.tables) } with
  | (.ok a, e') => (.ok a, e')
  | (.error msg, e') =>
    let tail := (e'.undo.getD []).drop mark
    (.error msg,
      restoreTransaction e.dotted tail { e' with undo := e'.undo.map fun j => j.take mark })

/-- `run_with_trigger_guard`, in autocommit mode. -/
def guardAutocommit {α : Type} (run : SessionM Doc H α) : SessionM Doc H α := fun e =>
  match run { e with undo := some [] } with
  | (.ok a, e') => (.ok a, { e' with undo := none })
  | (.error msg, e') =>
    (.error msg, restoreTransaction e.dotted (e'.undo.getD []) { e' with undo := none })

def runWithTriggerGuard {α : Type} (run : SessionM Doc H α) : SessionM Doc H α := fun e =>
  if e.inTx then guardInTx run e else guardAutocommit run e

end Docsql.Dml
