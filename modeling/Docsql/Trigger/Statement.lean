import Docsql.Lib.StateExcept

/-!
# Statements and row triggers

How a statement runs, the bodies of its triggers run inside it, and its
referential actions run after it: `trigger.rs`, the plan of `referential.rs` and
the executors of `insert.rs`, `dml.rs` and `merge.rs`.  What they compute from
rows is a parameter (`Rows`); what is modelled is who reads which table when,
who writes it, and what the guards compare.
-/

namespace Docsql.Trigger

/-- Contents of the tables. -/
abbrev Db (Doc : Type) := String → List Doc

inductive DmlKind where
  | insert
  | update
  | delete
  | merge
deriving DecidableEq, Repr

inductive TriggerFireEvent where
  | insert
  | delete
  | update (changed : Option (List String))
deriving DecidableEq, Repr

/-- A statement of a body before its `NEW.` and `OLD.` references are replaced. -/
structure BodyStmt (Doc Payload : Type) where
  kind : DmlKind
  target : String
  substNewOld : Option Doc → Option Doc → Except String Payload

inductive TriggerAction (Doc Payload : Type) where
  | raise (msg : String)
  | sql (stmt : BodyStmt Doc Payload)

structure TriggerDef (Doc Payload : Type) where
  name : String
  table : String
  before : Bool
  insert : Bool
  delete : Bool
  update : Bool
  updateOf : Option (List String)
  when : Option (Option Doc → Option Doc → Except String Bool)
  body : List (TriggerAction Doc Payload)

/-- The parts of a foreign key the closure reads. -/
structure ForeignKey where
  refTable : String
  hasAction : Bool

/-- Tables and triggers, each in name order. -/
structure Catalog (Doc Payload : Type) where
  tables : List (String × List ForeignKey)
  triggers : List (TriggerDef Doc Payload)
  distinct : (tables.map Prod.fst).Nodup

/-! ## Which tables a statement can reach through its referential actions -/

/-- The children of one table, as the breadth-first walk meets them. -/
def newChildren (tables : List (String × List ForeignKey)) (parent : String) (seen : List String) :
    List String :=
  (tables.filter fun t =>
    t.1 ∉ seen ∧ t.2.any fun fk => fk.refTable = parent ∧ fk.hasAction).map Prod.fst

/-- The queue loop; every table enters the queue once. -/
def closureLoop (tables : List (String × List ForeignKey)) :
    ℕ → List String → List String → List String
  | 0, _, order => order
  | _, [], order => order
  | fuel + 1, parent :: queue, order =>
    let children := newChildren tables parent order
    closureLoop tables fuel (queue ++ children) (order ++ children)

def Catalog.referentialClosureOf {Doc Payload : Type} (c : Catalog Doc Payload) (origin : String) :
    List String :=
  closureLoop c.tables (c.tables.length + 1) [origin] []

/-! ## Row computations -/

/-- What became of one row of an INSERT; `content` is the table as the statement
has staged it. -/
inductive Placed (Doc : Type) where
  | skipped
  | updated (old new : Doc) (content : List Doc)
  | inserted (content : List Doc)

structure UpdateRows (Doc : Type) where
  pairs : List (Doc × Doc)
  out : List Doc
  changedCols : List String

structure DeleteRows (Doc : Type) where
  removed : List Doc
  kept : List Doc

/-- The effect of a referential plan on one table. -/
structure ReferentialDelta (Doc : Type) where
  deletes : List Doc
  updates : List (Doc × Doc)
  final : List Doc

def ReferentialDelta.isEmpty {Doc : Type} (d : ReferentialDelta Doc) : Bool :=
  d.deletes.isEmpty && d.updates.isEmpty

/-- Everything the executors compute from rows and expressions. -/
structure Rows (Doc Payload : Type) where
  insertRows : Db Doc → String → Payload → Except String (List Doc)
  displaced : Db Doc → String → Payload → List Doc → Except String (List Doc)
  dropDisplaced : List Doc → List Doc → List Doc
  upsertCols : Payload → Option (List String)
  placeRow : Db Doc → String → Payload → List Doc → Doc → Except String (Placed Doc)
  checkInsert : Db Doc → String → Payload → List Doc → Except String Unit
  updateRows : Db Doc → String → Payload → Except String (Option (UpdateRows Doc))
  checkUpdate : Db Doc → String → UpdateRows Doc → Except String Unit
  deleteRows : Db Doc → String → Payload → Except String (Option (DeleteRows Doc))
  checkDelete : Db Doc → String → DeleteRows Doc → Except String Unit
  mergeRows : Db Doc → String → Payload → Except String (List Doc)
  planDeltas : Db Doc → String → List Doc → List (Doc × Doc) →
    Except String (String → ReferentialDelta Doc)
  changedCols : String → Doc → Doc → List String

/-! ## Running statements -/

/-- One table written: by whom it was in use, what the writer took it to hold,
what it held, and what it holds now. -/
structure Write (Doc : Type) where
  table : String
  inProgress : List String
  base : List Doc
  current : List Doc
  content : List Doc

structure Engine (Doc : Type) where
  db : Db Doc
  referentialGuard : Option (List String) := none
  writes : List (Write Doc) := []

abbrev EngineM (Doc : Type) := StateExcept (Engine Doc) String

section Exec

open StateExcept (read update throwIf fromExcept forEach)

variable {Doc Payload : Type}

/-- Run a statement inside the statements that are in progress on these tables. -/
abbrev Nested (Doc Payload : Type) :=
  List String → DmlKind → String → Payload → EngineM Doc Unit

def commit (inProgress : List String) (table : String) (base content : List Doc) :
    EngineM Doc Unit :=
  update fun e => { e with
    db := Function.update e.db table content
    writes := e.writes ++ [⟨table, inProgress, base, e.db table, content⟩] }

def TriggerDef.matchesEvent (d : TriggerDef Doc Payload) : TriggerFireEvent → Bool
  | .insert => d.insert
  | .delete => d.delete
  | .update changed => d.update &&
    match d.updateOf, changed with
    | some cols, some ch => ch.any fun col => cols.contains col
    | _, _ => true

variable (c : Catalog Doc Payload)

/-- The comparison a body statement has to pass. -/
def checkBodyTarget (target firingTable : String) : EngineM Doc Unit := do
  throwIf (target = firingTable) (s!"cannot modify table {target} from a trigger on {target} " ++
    s!"while a statement on {target} is in progress (split the write onto a second table)")
  let e ← read
  throwIf (target ∈ e.referentialGuard.getD []) (s!"cannot modify table {target} from a trigger " ++
    "while a referential-action statement is rewriting it (split the write onto a second table)")

def runAction (run : Nested Doc Payload) (inProgress : List String) (d : TriggerDef Doc Payload)
    (firingTable : String) (old new : Option Doc) : TriggerAction Doc Payload → EngineM Doc Unit
  | .raise msg => throw s!"RAISE in trigger {d.name}: {msg}"
  | .sql stmt => do
    checkBodyTarget stmt.target firingTable
    let payload ← fromExcept (stmt.substNewOld old new)
    run inProgress stmt.kind stmt.target payload

def runTriggerBodies (run : Nested Doc Payload) (inProgress : List String) (firingTable : String)
    (old new : Option Doc) : List (TriggerDef Doc Payload) → EngineM Doc Unit :=
  forEach fun d => do
    let pass ← fromExcept <| match d.when with
      | some w => w old new
      | none => .ok true
    if pass then forEach (runAction run inProgress d firingTable old new) d.body
    else return ()

/-- `nested` is `none` where the cascade is too deep. -/
def fireRowTriggers (nested : Option (Nested Doc Payload)) (inProgress : List String)
    (table : String) (before : Bool) (ev : TriggerFireEvent) (old new : Option Doc) :
    EngineM Doc Unit :=
  let matched := c.triggers.filter fun d =>
    d.table = table && d.before = before && d.matchesEvent ev
  if matched.isEmpty then return ()
  else
    match nested with
    | none => throw "trigger nesting too deep (>16); likely an infinite trigger cycle"
    | some run => runTriggerBodies run inProgress table old new matched

variable (rows : Rows Doc Payload) (nested : Option (Nested Doc Payload))

/-- The row loop of `exec_insert`. -/
def placeRows (inProgress : List String) (table : String) (p : Payload) :
    List Doc → List Doc → EngineM Doc (List Doc)
  | [], staged => return staged
  | doc :: docs, staged => do
    fireRowTriggers c nested inProgress table true .insert none (some doc)
    let e ← read
    let placed ← fromExcept (rows.placeRow e.db table p staged doc)
    match placed with
    | .skipped => placeRows inProgress table p docs staged
    | .updated old new content => do
      fireRowTriggers c nested inProgress table true (.update (rows.upsertCols p)) (some old)
        (some new)
      fireRowTriggers c nested inProgress table false (.update (rows.upsertCols p)) (some old)
        (some new)
      placeRows inProgress table p docs content
    | .inserted content => do
      fireRowTriggers c nested inProgress table false .insert none (some doc)
      placeRows inProgress table p docs content

def execInsert (inProgress : List String) (table : String) (p : Payload) : EngineM Doc Unit := do
  let e ← read
  let base := e.db table
  let newDocs ← fromExcept (rows.insertRows e.db table p)
  let displacedDocs ← fromExcept (rows.displaced e.db table p newDocs)
  let inside := table :: inProgress
  forEach (fun d => fireRowTriggers c nested inside table true .delete (some d) none) displacedDocs
  forEach (fun d => fireRowTriggers c nested inside table false .delete (some d) none) displacedDocs
  let staged ← placeRows c rows nested inside table p newDocs
    (rows.dropDisplaced base displacedDocs)
  let e ← read
  fromExcept (rows.checkInsert e.db table p staged)
  commit inProgress table base staged

/-! ### Referential plans -/

/-- The tables of a plan: the origin and the tables of its closure that change. -/
def planOrder (origin : String) (deltas : String → ReferentialDelta Doc) : List String :=
  (origin :: (c.referentialClosureOf origin).filter (· ≠ origin)).filter fun t =>
    t = origin ∨ ¬(deltas t).isEmpty

def fireDelta (inProgress : List String) (table : String) (before : Bool)
    (delta : ReferentialDelta Doc) : EngineM Doc Unit := do
  forEach (fun d => fireRowTriggers c nested inProgress table before .delete (some d) none)
    delta.deletes
  forEach (fun pair => fireRowTriggers c nested inProgress table before
    (.update (some (rows.changedCols table pair.1 pair.2))) (some pair.1) (some pair.2))
    delta.updates

/-- One table of the plan.  `pre` is the state the plan was computed from. -/
def applyTable (inProgress order : List String) (pre : Db Doc)
    (deltas : String → ReferentialDelta Doc) (table : String) : EngineM Doc Unit :=
  if (deltas table).isEmpty then return ()
  else do
    fireDelta c rows nested (order ++ inProgress) table true (deltas table)
    commit inProgress table (pre table) (deltas table).final
    fireDelta c rows nested (order ++ inProgress) table false (deltas table)

def applyReferentialPlan (inProgress order : List String) (pre : Db Doc)
    (deltas : String → ReferentialDelta Doc) : EngineM Doc Unit := fun e =>
  let (r, e') := forEach (applyTable c rows nested inProgress order pre deltas) order
    { e with referentialGuard := some order }
  (r, { e' with referentialGuard := none })

def execReferential (inProgress : List String) (table : String) (deletes : List Doc)
    (updates : List (Doc × Doc)) : EngineM Doc Unit := do
  let e ← read
  let deltas ← fromExcept (rows.planDeltas e.db table deletes updates)
  applyReferentialPlan c rows nested inProgress (planOrder c table deltas) e.db deltas

/-! ### UPDATE, DELETE and MERGE -/

def execUpdate (inProgress : List String) (table : String) (p : Payload) : EngineM Doc Unit := do
  let e ← read
  let found ← fromExcept (rows.updateRows e.db table p)
  match found with
  | none => return ()
  | some u =>
    if c.referentialClosureOf table ≠ [] then
      execReferential c rows nested inProgress table [] u.pairs
    else do
      fromExcept (rows.checkUpdate e.db table u)
      forEach (fun pair => fireRowTriggers c nested (table :: inProgress) table true
        (.update (some u.changedCols)) (some pair.1) (some pair.2)) u.pairs
      commit inProgress table (e.db table) u.out
      forEach (fun pair => fireRowTriggers c nested (table :: inProgress) table false
        (.update (some u.changedCols)) (some pair.1) (some pair.2)) u.pairs

def execDelete (inProgress : List String) (table : String) (p : Payload) : EngineM Doc Unit := do
  let e ← read
  let found ← fromExcept (rows.deleteRows e.db table p)
  match found with
  | none => return ()
  | some d =>
    if c.referentialClosureOf table ≠ [] then
      execReferential c rows nested inProgress table d.removed []
    else do
      fromExcept (rows.checkDelete e.db table d)
      forEach (fun doc => fireRowTriggers c nested (table :: inProgress) table true .delete
        (some doc) none) d.removed
      commit inProgress table (e.db table) d.kept
      forEach (fun doc => fireRowTriggers c nested (table :: inProgress) table false .delete
        (some doc) none) d.removed

/-- MERGE fires no row triggers and expands no referential actions. -/
def execMerge (inProgress : List String) (table : String) (p : Payload) : EngineM Doc Unit := do
  let e ← read
  let content ← fromExcept (rows.mergeRows e.db table p)
  commit inProgress table (e.db table) content

def execStmtInner : Nested Doc Payload := fun inProgress kind table p =>
  match kind with
  | .insert => execInsert c rows nested inProgress table p
  | .update => execUpdate c rows nested inProgress table p
  | .delete => execDelete c rows nested inProgress table p
  | .merge => execMerge rows inProgress table p

/-- A statement with room for that many levels of triggers below it. -/
def execStmt : ℕ → Nested Doc Payload
  | 0 => execStmtInner c rows none
  | room + 1 => execStmtInner c rows (some (execStmt room))

def maxTriggerDepth : ℕ := 16

/-- A statement of a client.  A failure puts the tables back; the writes that
were made stay on record. -/
def runStatement (e : Engine Doc) (kind : DmlKind) (table : String) (p : Payload) : Engine Doc :=
  match execStmt c rows maxTriggerDepth [] kind table p e with
  | (.ok (), e') => e'
  | (.error _, e') => { e' with db := e.db }

end Exec

end Docsql.Trigger
