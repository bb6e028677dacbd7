import Docsql.Index.Meta

/-!
# Statements that define a table

CREATE TABLE, CREATE INDEX, DROP INDEX and ALTER TABLE of `ddl.rs` and
`execute.rs`, as far as they touch the documents and trees of a table.  Checks
that only read come with the request; a statement that fails leaves the table as
it was.
-/

namespace Docsql.Index

structure Table (H : Type) where
  tableMeta : TableMeta
  heap : H
  roots : List (String × Tree)

variable {Doc H : Type}

variable (env : Env Doc) (heap : DocHeap Doc H)

/-- The documents of the table with their locators. -/
def Table.rows (t : Table H) : List (ℕ × Doc) := heap.live t.heap

def Table.docs (t : Table H) : List Doc := (t.rows heap).map Prod.snd

/-- All pages are written anew and all trees built again. -/
def rewriteTable (t : Table H) (docs : List Doc) : Except String (Table H) := do
  let (pairs, h) ← insertAll heap docs (heap.reset t.heap)
  let roots ← buildTrees env pairs ((t.roots.map Prod.fst).map (specOf env t.tableMeta))
  .ok { t with heap := h, roots := roots }

/-! ## Definitions -/

def createTable (h : H) (name : String) (columns : List String) (primaryKey : Option String)
    (unique : List String) : Except String (Table H) :=
  if primaryKey.any fun col => col ∉ columns then .error "PRIMARY KEY column does not exist"
  else if unique.any fun col => col ∉ columns then .error "UNIQUE column does not exist"
  else
    .ok {
      tableMeta := ⟨name, columns, primaryKey, unique, unique, []⟩
      heap := heap.reset h
      roots := (primaryKey.toList ++ unique).dedup.map fun col => (col, []) }

inductive IndexTerm where
  | column (col : String)
  | jsonExtract (col path : String)

/-- The column loop of CREATE INDEX. -/
def indexTerms (m : TableMeta) (iname : String) :
    List IndexTerm → List String → Option String → Except String (List String × Option String)
  | [], cols, path => .ok (cols, path)
  | .jsonExtract col p :: terms, cols, path =>
    if path.isSome ∨ 1 < cols.length then
      .error ("a JSON path index is single-column: one JSON_EXTRACT(col, '$.path') " ++
        "term per index")
    else if col ∉ m.columns then .error s!"column {col} does not exist"
    else indexTerms m iname terms (cols ++ [col]) (some p)
  | .column col :: terms, cols, path =>
    if col ∉ m.columns then .error s!"column {col} does not exist"
    else if col ∈ cols then .error s!"duplicate column name: {col} (in index {iname})"
    else indexTerms m iname terms (cols ++ [col]) path

structure CreateIndex where
  name : String
  terms : List IndexTerm
  unique : Bool
  pred : Option String
  /-- A refusal before the columns are looked at: an option that is not
  supported, a reserved name, a name another table uses. -/
  refused : Option String

def orRefuse : Option String → Except String Unit
  | some msg => .error msg
  | none => .ok ()

/-- The tree of a new index: one that is there for the same column, or a new one. -/
def indexRoots (t : Table H) (d : IndexDef) (pred : Option (Doc → Except String Bool)) :
    Except String (List (String × Tree)) :=
  match t.roots.lookup d.rootKey with
  | some _ =>
    if d.path = none ∧ d.pred = none ∧ t.tableMeta.indexColumnsOf d.rootKey = d.columns then
      .ok t.roots
    else .error (s!"index root key {d.rootKey} is already in use by another index or " ++
      "constraint; choose a different index name or column")
  | none => do
    let built ← buildTree env ⟨d.rootKey, d.columns, d.unique, d.path, pred⟩ (t.rows heap) []
    .ok (t.roots ++ [(d.rootKey, built)])

/-- A single-column UNIQUE INDEX becomes a constraint of the column. -/
def uniqueAfter (m : TableMeta) (d : IndexDef) : List String :=
  let col := d.columns.headD ""
  if d.unique = true ∧ d.columns.length ≤ 1 ∧ d.pred = none ∧ col ∉ m.unique then
    m.unique ++ [col]
  else m.unique

def parsed (pred : Option String) : Except String (Option (Doc → Except String Bool)) :=
  match pred with
  | none => .ok none
  | some text =>
    match env.parsePred text with
    | some p => .ok (some p)
    | none => .error "parse error"

/-- The definition a CREATE INDEX asks for, or why it cannot have it. -/
def newIndexDef (m : TableMeta) (idx : CreateIndex) : Except String IndexDef := do
  orRefuse idx.refused
  if m.indexDefs.any fun d => d.name = idx.name then .error s!"index {idx.name} already exists"
  else
    let (cols, path) ← indexTerms m idx.name idx.terms [] none
    if cols = [] then .error "CREATE INDEX requires at least one column"
    else if idx.unique = true ∧ path.isSome then
      .error "UNIQUE JSON path indexes are not supported (uniqueness enforcement is column-based)"
    else if path.isSome ∧ idx.pred.isSome then
      .error "a partial index cannot combine with a JSON path index"
    else .ok ⟨idx.name, cols, idx.unique, path, idx.pred⟩

/-- A constraint that is new has to hold for the documents there are. -/
def checkAdded (m : TableMeta) (d : IndexDef) (docs : List Doc) : Except String Unit :=
  if uniqueAfter m d = m.unique then .ok ()
  else checkUnique env { m with unique := uniqueAfter m d } docs

def createIndex (t : Table H) (idx : CreateIndex) : Except String (Table H) := do
  let pred ← parsed env idx.pred
  let d ← newIndexDef t.tableMeta idx
  checkAdded env t.tableMeta d (t.docs heap)
  let roots ← indexRoots env heap t d pred
  .ok { t with
    tableMeta := { t.tableMeta with
      unique := uniqueAfter t.tableMeta d
      indexDefs := t.tableMeta.indexDefs ++ [d] }
    roots := roots }

/-- Whether dropping a definition lifts the constraint of its column. -/
def liftsUnique (m : TableMeta) (d : IndexDef) : Bool :=
  let col := d.columns.headD ""
  d.unique && d.columns.length == 1 && !m.constraintUnique.contains col &&
    m.primaryKey ≠ some col &&
    !(m.indexDefs.filter (· ≠ d)).any fun d' => d'.unique && d'.columns == [col]

def dropIndex (t : Table H) (name : String) : Except String (Table H) :=
  match t.tableMeta.defNamed name with
  | none => .error s!"index {name} does not exist"
  | some d =>
    let byName := 1 < d.columns.length ∨ d.path.isSome ∨ d.pred.isSome
    .ok { t with
      tableMeta := { t.tableMeta with
        indexDefs := t.tableMeta.indexDefs.filter (· ≠ d)
        unique :=
          if liftsUnique t.tableMeta d then t.tableMeta.unique.filter (· ≠ d.columns.headD "")
          else t.tableMeta.unique }
      roots := if byName then t.roots.filter fun e => e.1 ≠ name else t.roots }

/-! ## ALTER TABLE -/

section Alter

variable (check : TableMeta → Doc → Except String Unit)

/-- ADD COLUMN; a DEFAULT fills the documents that are there. -/
def addColumn (t : Table H) (col : String) (fill : Option Value) : Except String (Table H) :=
  if col ∈ t.tableMeta.columns then .error s!"duplicate column name: {col}"
  else
    let t := { t with tableMeta := { t.tableMeta with columns := t.tableMeta.columns ++ [col] } }
    match fill with
    | none => .ok t
    | some v => do
      let filled := (t.docs heap).map fun d =>
        if (env.get d col).isSome then d else env.insert d col v
      filled.forM (check t.tableMeta)
      rewriteTable env heap t filled

/-- One name of DROP COLUMN: the column, its tree, and every index over it. -/
def dropColumn (t : Table H) (name : String) : Except String (Table H) :=
  if name ∉ t.tableMeta.columns then .error s!"column {name} does not exist"
  else if t.tableMeta.primaryKey = some name then .error "cannot drop a PRIMARY KEY column"
  else
    let dead := (t.tableMeta.indexDefs.filter fun d => d.columns.contains name).map IndexDef.name
    .ok { t with
      tableMeta := { t.tableMeta with
        columns := t.tableMeta.columns.filter (· ≠ name)
        unique := t.tableMeta.unique.filter (· ≠ name)
        constraintUnique := t.tableMeta.constraintUnique.filter (· ≠ name)
        indexDefs := t.tableMeta.indexDefs.filter fun d => d.name ∉ dead }
      roots := (t.roots.filter fun e => e.1 ≠ name).filter fun e => e.1 ∉ dead }

def dropColumnNames (t : Table H) : List String → Except String (Table H)
  | [] => .ok t
  | name :: names => do
    let t ← dropColumn t name
    dropColumnNames t names

/-- DROP COLUMN.  `refused`: a CHECK, view, foreign key or partial index names
the column. -/
def dropColumns (t : Table H) (names : List String) (refused : Option String) :
    Except String (Table H) := do
  orRefuse refused
  let t' ← dropColumnNames t names
  rewriteTable env heap t' ((t.docs heap).map fun d => names.foldl env.remove d)

def renamed (old new : String) (col : String) : String := if col = old then new else col

/-- The predicate text follows a rename only in indexes over other columns. -/
def renameDef (old new : String) (d : IndexDef) : IndexDef :=
  if old ∈ d.columns then { d with columns := d.columns.map (renamed old new) }
  else { d with pred := d.pred.map fun p => env.renameIdent p old new }

/-- Whether the tree filed under the column is the column's own. -/
def ownTree (m : TableMeta) (old : String) : Bool :=
  !m.indexDefs.any fun d => d.name = old ∧ (d.path.isSome ∨ 1 < d.columns.length)

def renameColumn (t : Table H) (old new : String) (refused : Option String) :
    Except String (Table H) := do
  orRefuse refused
  if old ∉ t.tableMeta.columns then .error s!"column {old} does not exist"
  else if old ≠ new ∧ new ∈ t.tableMeta.columns then .error s!"duplicate column name: {new}"
  else if old ≠ new ∧
      (new ∈ t.roots.map Prod.fst ∨ new ∈ t.tableMeta.indexDefs.map IndexDef.name) then
    .error s!"name {new} is already used by an index"
  else if old ≠ new ∧ (t.docs heap).any fun d => (env.get d new).isSome then
    .error (s!"cannot rename column {t.tableMeta.name}.{old} to {new}: " ++
      s!"{new} already exists as a data field")
  else
    let t' : Table H := { t with
      tableMeta := { t.tableMeta with
        columns := t.tableMeta.columns.map (renamed old new)
        primaryKey := t.tableMeta.primaryKey.map (renamed old new)
        unique := t.tableMeta.unique.map (renamed old new)
        constraintUnique := t.tableMeta.constraintUnique.map (renamed old new)
        indexDefs := t.tableMeta.indexDefs.map (renameDef env old new) }
      roots := if ownTree t.tableMeta old then t.roots.map fun e => (renamed old new e.1, e.2)
        else t.roots }
    rewriteTable env heap t' <| (t.docs heap).map fun d =>
      match env.get d old with
      | some v => env.insert (env.remove d old) new v
      | none => d

def renameTable (t : Table H) (name : String) : Except String (Table H) :=
  rewriteTable env heap { t with tableMeta := { t.tableMeta with name := name } } (t.docs heap)

end Alter

end Docsql.Index
