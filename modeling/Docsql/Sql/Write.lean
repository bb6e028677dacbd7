import Docsql.Encode
import Docsql.Lib.Steady
import Docsql.Sql.Exec

/-!
# Statements that write

INSERT, UPDATE, DELETE and MERGE up to the point where rows are changed: what is
substituted and loaded, in which scope, and which rows are meant.  Changing them (the
checks of constraints, referential actions, triggers, heap and trees) is an `Effect`,
of which only the tables it consults are known.
-/

namespace Docsql.Sql

/-! ## Statements -/

structure Assignment where
  /-- Nothing for a target that is no column. -/
  column : Option (List String)
  value : Expr

/-- What an INSERT does about a conflict. -/
inductive OnInsert where
  /-- The target as written; DO UPDATE has assignments and a condition. -/
  | onConflict (target : Option String) (update : Option (List Assignment × Option Expr))
  | duplicateKeyUpdate (assignments : List Assignment)

structure Insert where
  /-- Nothing for a target that is no table name. -/
  table : Option (List String)
  columns : List (List String) := []
  source : Option Query
  /-- REPLACE INTO and OR REPLACE. -/
  replace : Bool := false
  /-- OR IGNORE. -/
  ignore : Bool := false
  on : Option OnInsert := none
  output : Bool := false
  returning : Option String := none

structure Update where
  table : TableWithJoins
  assignments : List Assignment
  /-- FROM, before or after SET. -/
  sources : Option (List TableWithJoins) := none
  selection : Option Expr := none
  returning : Option String := none

structure Delete where
  tables : List TableWithJoins
  /-- Written with FROM. -/
  keyword : Bool := true
  usingList : Option (List TableWithJoins) := none
  selection : Option Expr := none
  returning : Option String := none

inductive MergeKind where
  | matched
  | notMatched
  | notMatchedByTarget
  | notMatchedBySource

inductive MergeAction where
  /-- With its own WHERE and DELETE WHERE, which are refused. -/
  | update (assignments : List Assignment) (predicates : Bool)
  /-- VALUES, or ROW. -/
  | insert (columns : List (List String)) (values : Option (List (List Expr))) (predicate : Bool)
  | delete

structure MergeClause where
  kind : MergeKind
  predicate : Option Expr := none
  action : MergeAction

structure Merge where
  table : TableFactor
  source : TableFactor
  on : Expr
  clauses : List MergeClause

inductive Write where
  | insert (i : Insert)
  | update (u : Update)
  | delete (d : Delete)
  | merge (m : Merge)

/-- The table a write changes, when it is one that is not refused outright. -/
def writtenTable : TableFactor → Option String
  | .table name _ => some (objName name)
  | _ => none

def Write.target : Write → Option String
  | .insert i => i.table.map objName
  | .update ⟨.mk relation _, _, _, _, _⟩ => writtenTable relation
  | .delete ⟨[.mk relation _], _, _, _, _⟩ => writtenTable relation
  | .delete _ => none
  | .merge m => writtenTable m.table

/-- The arm of DO UPDATE, whichever its spelling. -/
def OnInsert.update : OnInsert → Option (List Assignment × Option Expr)
  | .onConflict _ update => update
  | .duplicateKeyUpdate assignments => some (assignments, none)

def Insert.arm (i : Insert) : Option (List Assignment × Option Expr) := i.on.bind OnInsert.update

def Insert.doNothing (i : Insert) : Bool :=
  i.ignore || match i.on with
    | some (.onConflict _ none) => true
    | _ => false

/-! ## What is left open -/

inductive ExecOutcome where
  | affected (count : ℕ)
  | rows (r : QueryResult)

/-- What is computed without looking at a table. -/
structure WriteOps where
  /-- `eval_const` on the cells of VALUES. -/
  constRows : List ℕ → List Expr → Except String (List (List Value))
  refsRownum : Expr → Bool
  callsNewid : Expr → Bool
  proposedInSubquery : Expr → Bool
  /-- Whether `subst_upsert_proposed` looks into a rare shape. -/
  substituted : String → Bool
  isMatview : String → Bool
  referentialActionsReach : String → Bool
  /-- `probe_plan` and the rows it finds by an index. -/
  indexProbe : String → String → Option Expr → Rows → Except String (Option Rows)
  /-- `TableMeta::check`. -/
  checkDoc : String → Object → Except String Unit
  objectKey : Object → List UInt8
  /-- The alias that `load_table_factor` gives. -/
  sourceAlias : TableFactor → Option String

/-- The steps that change rows; `σ` is what an INSERT has staged so far. -/
inductive Effect (σ : Type) : Type → Type where
  /-- Documents with generated ids and defaults, each checked. -/
  | newDocs (i : Insert) (columns : List String) (rows : List (List Value)) : Effect σ (List Object)
  /-- The conflict target, and the rows that REPLACE displaces. -/
  | displace (i : Insert) (docs : List Object) : Effect σ (σ × List Object)
  | beforeInsert (doc : Object) : Effect σ Unit
  /-- The row a new one is in conflict with, if conflicts are looked for. -/
  | conflict (i : Insert) (s : σ) (doc : Object) : Effect σ (Option (ℕ × Object))
  | upsert (s : σ) (loc : ℕ) (existing merged : Object) : Effect σ σ
  | place (s : σ) (doc : Object) : Effect σ σ
  | finishInsert (i : Insert) (s : σ) : Effect σ ExecOutcome
  /-- Rows found by an index, changed in place. -/
  | updateFast (u : Update) (updates : List (ℕ × Object × Object)) : Effect σ ExecOutcome
  /-- Old and new images, and all rows with the changes made. -/
  | rewrite (u : Update) (changed : List (Object × Object)) (out : List Object) (count : ℕ) :
    Effect σ ExecOutcome
  | deleteFast (d : Delete) (targets : Rows) : Effect σ ExecOutcome
  | remove (d : Delete) (kept removed : List Object) : Effect σ ExecOutcome
  /-- Documents of WHEN NOT MATCHED are made one by one, each after the last is placed. -/
  | merge (m : Merge) (updates : List (ℕ × Object × Object))
    (inserts : List (Except String Object)) : Effect σ ExecOutcome

abbrev WriteCx := Rewrite String Rows String

/-- How rows are changed.  Besides the table written, the constraints, referential actions
and triggers of a table consult the tables `consults`. -/
structure Effects (σ : Type) where
  consults : String → Set String
  perform {α : Type} (t : String) (e : Effect σ α) : WriteCx α
  steady {S : Set String} {t : String} {α : Type} (e : Effect σ α) (ht : t ∈ S)
    (hconsults : consults t ⊆ S) : Rewrite.Steady S (perform t e)

/-! ## Rows and assignments -/

/-- No SELECT is around the expressions of a write. -/
def noSelect : Select := .mk [] [] none none [] none {}

/-- Columns written into a document. -/
def setFields (doc : Object) (fields : List (String × Value)) : Object :=
  fields.foldl (fun doc p => insertField p.1 p.2 doc) doc

/-- `target_doc_from_merged`. -/
def targetDocFromMerged (m : Object) (key : String) : Object :=
  m.foldl (fun doc p =>
    match p.1.dropPrefix? (key ++ ".") with
    | some col => insertField col.toString p.2 doc
    | none => doc) []

/-- `merge_join_row`: columns of the source also qualified, those of the target first. -/
def mergeJoinRow (t : Object) (tkey : String) (s : Object) (skey : String) : Object :=
  let row := s.foldl (fun row p =>
    let row := insertField (skey ++ "." ++ p.1) p.2 row
    if containsKey p.1 row then row else insertField p.1 p.2 row) t
  let row := t.foldl (fun row p => insertField (tkey ++ "." ++ p.1) p.2 row) row
  s.foldl (fun row p =>
    if containsKey (tkey ++ "." ++ p.1) row then row
    else insertField (tkey ++ "." ++ p.1) .null row) row

section Exec

variable (ops : RowOps) (wops : WriteOps) (cat : Catalog)

def tableDocs (t : String) : ReadCx Rows :=
  match cat.get t with
  | none => throw s!"table {t} does not exist"
  | some _ => Lookup.ask t

def isView (t : String) : Bool := ((cat.get t).bind TableMeta.view).isSome

/-- `ensure_not_view`. -/
def ensureNotView (kind t : String) : Except String Unit := do
  if isView cat t then throw s!"cannot {kind} view {t} (it is a view, not a table)"
  if wops.isMatview t then
    throw (s!"cannot {kind} materialized view {t} (it is refreshed, not written: " ++
      s!"REFRESH MATERIALIZED VIEW {t})")

def evalExpr (e : Expr) (doc : Object) : Except String Value := ops.eval noSelect e doc

/-- `matches_in`. -/
def matchesIn (n : ℕ) (d : Depth) (outer : List String) (selection : Option Expr)
    (doc : Object) : ReadCx Bool :=
  match selection with
  | none => pure true
  | some e => do
    let v ← evalRow ops cat n d noSelect outer doc e
    return isTrue v

def evalAssignment (doc : Object) (a : Assignment) : Except String (String × Value) :=
  match a.column with
  | none => throw "unsupported assignment target"
  | some c => do
    let v ← evalExpr ops a.value doc
    return (objName c, v)

/-- `eval_assignments_cx`: all subqueries are resolved before anything is evaluated. -/
def evalAssignments (n : ℕ) (d : Depth) (outer : List String) (assignments : List Assignment)
    (doc : Object) : ReadCx (List (String × Value)) := do
  let assignments ← assignments.mapM fun a => do
    let value ← substExprRow ops cat n d outer doc a.value
    return { a with value }
  Lookup.lift (assignments.mapM (evalAssignment ops doc))

/-- The assignments of an UPDATE once its uncorrelated subqueries are literals. -/
def substAssignments (n : ℕ) (d : Depth) (outer : List String) (assignments : List Assignment) :
    ReadCx (List Assignment) :=
  assignments.mapM fun a => do
    let value ← substExpr ops cat n d outer true a.value
    return { a with value }

/-! ## UPDATE -/

/-- The rows of a fast UPDATE with their new images, each checked. -/
def fastUpdates (n : ℕ) (d : Depth) (t : String) (outer : List String)
    (assignments : List Assignment) (selection : Option Expr) (rows : Rows) :
    ReadCx (List (ℕ × Object × Object)) :=
  rows.foldlM (fun updates row => do
    if ← matchesIn ops cat n d outer selection row.2 then
      let vals ← evalAssignments ops cat n d outer assignments row.2
      let doc := setFields row.2 vals
      Lookup.lift (wops.checkDoc t doc)
      return updates ++ [(row.1, row.2, doc)]
    else return updates) []

/-- Without FROM: old and new images, and all rows with the changes made. -/
def plainUpdates (n : ℕ) (d : Depth) (outer : List String) (assignments : List Assignment)
    (selection : Option Expr) (docs : List Object) :
    ReadCx (List (Object × Object) × List Object) :=
  docs.foldlM (fun acc doc => do
    if ← matchesIn ops cat n d outer selection doc then
      let vals ← evalAssignments ops cat n d outer assignments doc
      let new := setFields doc vals
      return (acc.1 ++ [(doc, new)], acc.2 ++ [new])
    else return (acc.1, acc.2 ++ [doc])) ([], [])

/-- With FROM: the first match of a target row gives its image, by the row's key. -/
def fromUpdates (n : ℕ) (d : Depth) (key : String) (outer : List String)
    (assignments : List Assignment) (selection : Option Expr) (merged : List Object) :
    ReadCx (List (List UInt8 × Object × Object)) :=
  merged.foldlM (fun updates m => do
    let doc := targetDocFromMerged m key
    let k := wops.objectKey doc
    if (List.lookup k updates).isSome then return updates
    else if ← matchesIn ops cat n d outer selection m then
      let vals ← evalAssignments ops cat n d outer assignments m
      return updates ++ [(k, doc, setFields doc vals)]
    else return updates) []

/-- A write reads its own table again in front of the tables of FROM or USING. -/
def targetFrom (name : List String) (opts : TableOpts) (extra : List TableWithJoins) :
    List TableWithJoins := .mk (.table name { aliasName := opts.aliasName }) [] :: extra

variable {σ : Type} (fx : Effects σ)

open Rewrite (look)

/-- The rows of a statement found by an index, unless referential actions or other tables
are involved. -/
def probeTarget (t key : String) (selection : Option Expr) (alone : Bool) :
    ReadCx (Option Rows) :=
  if alone && !wops.referentialActionsReach t && cat.tableExists t then do
    let rows ← Lookup.ask t
    Lookup.lift (wops.indexProbe t key selection rows)
  else pure none

/-- An UPDATE of a table, once it is known to be one. -/
def updateTable (n : ℕ) (d : Depth) (u : Update) (name : List String) (opts : TableOpts) :
    WriteCx ExecOutcome := do
  let t := objName name
  let key := opts.aliasName.getD t
  let outer := t :: key :: (u.sources.map fromListNames).getD []
  let assignments ← look (substAssignments ops cat n d outer u.assignments)
  let selection ← look (optM (substExpr ops cat n d outer true) u.selection)
  match ← look (probeTarget wops cat t key selection u.sources.isNone) with
  | some rows =>
    let updates ← look (fastUpdates ops wops cat n d t outer assignments selection rows)
    fx.perform t (.updateFast u updates)
  | none =>
    let rows ← look (tableDocs cat t)
    match u.sources with
    | none =>
      let r ← look (plainUpdates ops cat n d outer assignments selection (rows.map Prod.snd))
      fx.perform t (.rewrite u r.1 r.2 r.1.length)
    | some extra =>
      let merged ← look (loadFrom ops cat n d (targetFrom name opts extra) [])
      let updates ← look (fromUpdates ops wops cat n d key outer assignments selection merged)
      let image := fun row : ℕ × Object => List.lookup (wops.objectKey row.2) updates
      fx.perform t (.rewrite u (updates.map Prod.snd)
        (rows.map fun row => ((image row).map Prod.snd).getD row.2)
        (rows.filter fun row => (image row).isSome).length)

def execUpdate (n : ℕ) (d : Depth) (u : Update) : WriteCx ExecOutcome :=
  match u.table with
  | .mk (.table name opts) joins => do
    if !joins.isEmpty then throw "UPDATE ... JOIN is not supported (use UPDATE ... FROM)"
    let t := objName name
    if isView cat t then throw s!"cannot UPDATE view {t} (it is a view, not a table)"
    if wops.isMatview t then
      throw (s!"cannot UPDATE materialized view {t} " ++
        s!"(REFRESH MATERIALIZED VIEW {t} recomputes it)")
    if u.assignments.any (fun a => wops.refsRownum a.value) || u.selection.any wops.refsRownum then
      throw ("ROWNUM is not supported in UPDATE (use a subquery: " ++
        "WHERE id IN (SELECT ... WHERE ROWNUM <= n))")
    updateTable ops wops cat fx n d u name opts
  | _ => throw "only simple table names in UPDATE"

/-! ## DELETE -/

/-- The rows a condition is true of. -/
def matching {α : Type} (n : ℕ) (d : Depth) (outer : List String) (selection : Option Expr)
    (doc : α → Object) (rows : List α) : ReadCx (List (α × Bool)) :=
  rows.mapM fun row => do
    let hit ← matchesIn ops cat n d outer selection (doc row)
    return (row, hit)

/-- A DELETE from a table, once it is known to be one.  The table's own factor is loaded
again as it was written. -/
def deleteRows (n : ℕ) (d : Depth) (del : Delete) (name : List String) (opts : TableOpts) :
    WriteCx ExecOutcome := do
  let t := objName name
  let key := opts.aliasName.getD t
  let outer := t :: key :: (del.usingList.map fromListNames).getD []
  let selection ← look (optM (substExpr ops cat n d outer true) del.selection)
  match ← look (probeTarget wops cat t key selection del.usingList.isNone) with
  | some rows =>
    let hits ← look (matching ops cat n d outer selection Prod.snd rows)
    fx.perform t (.deleteFast del ((hits.filter Prod.snd).map Prod.fst))
  | none =>
    let rows ← look (tableDocs cat t)
    let docs := rows.map Prod.snd
    match del.usingList with
    | none =>
      let hits ← look (matching ops cat n d outer selection id docs)
      fx.perform t (.remove del ((hits.filter fun h => !h.2).map Prod.fst)
        ((hits.filter Prod.snd).map Prod.fst))
    | some extra =>
      let merged ← look (loadFrom ops cat n d (.mk (.table name opts) [] :: extra) [])
      let hits ← look (matching ops cat n d outer selection id merged)
      let keys := ((hits.filter Prod.snd).map Prod.fst).map fun m =>
        wops.objectKey (targetDocFromMerged m key)
      fx.perform t (.remove del (docs.filter fun doc => !keys.contains (wops.objectKey doc))
        (docs.filter fun doc => keys.contains (wops.objectKey doc)))

def execDelete (n : ℕ) (d : Depth) (del : Delete) : WriteCx ExecOutcome := do
  if !del.keyword then throw "unsupported DELETE form"
  match del.tables with
  | [.mk relation joins] =>
    if !joins.isEmpty then throw "DELETE ... JOIN is not supported (use DELETE ... USING)"
    match relation with
    | .table name opts =>
      let t := objName name
      if isView cat t then throw s!"cannot DELETE from view {t} (it is a view, not a table)"
      if wops.isMatview t then
        throw (s!"cannot DELETE from materialized view {t} " ++
          s!"(REFRESH MATERIALIZED VIEW {t} recomputes it)")
      if del.selection.any wops.refsRownum then
        throw ("ROWNUM is not supported in DELETE (use a subquery: " ++
          "WHERE id IN (SELECT ... WHERE ROWNUM <= n))")
      deleteRows ops wops cat fx n d del name opts
    | _ => throw "only simple table names in DELETE"
  | _ => throw "DELETE from exactly one table"

/-! ## INSERT -/

/-- The values proposed for a row in place of `EXCLUDED.col` and `VALUES(col)`; the bodies
of subqueries stay as they are. -/
def substUpsertProposed (proposed : Object) : Expr → Except String Expr
  | .atom a =>
    match a with
    | .compound qualifier rest =>
      if asciiLower qualifier = "excluded" ∧ rest ≠ [] then do
        let v := (List.lookup (rest.getLast?.getD "") proposed).getD .null
        ops.checkLiteral v
        return .lit v
      else return .atom a
    | _ => return .atom a
  | .node k kids => do
    let kids ← substAll proposed kids
    return .node k kids
  | .function f args filter withinGroup =>
    match args with
    | [.atom (.ident col)] =>
      if asciiLower f.name = "values" then do
        let v := (List.lookup col proposed).getD .null
        ops.checkLiteral v
        return .lit v
      else do
        let filter ← substOpt proposed filter
        return .function f [.atom (.ident col)] filter withinGroup
    | _ => do
      let args ← substAll proposed args
      let filter ← substOpt proposed filter
      return .function f args filter withinGroup
  | .trim e what characters => do
    let e ← substUpsertProposed proposed e
    let what ← substOpt proposed what
    let characters ← substAll proposed characters
    return .trim e what characters
  | .inSubquery e q negated => do
    let e ← substUpsertProposed proposed e
    return .inSubquery e q negated
  | .subquery q => return .subquery q
  | .exists q negated => return .exists q negated
  | .quantified any op left q => do
    let left ← substUpsertProposed proposed left
    return .quantified any op left q
  | .other text kids =>
    if wops.substituted text then do
      let kids ← substAll proposed kids
      return .other text kids
    else return .other text kids
where
  substAll (proposed : Object) : List Expr → Except String (List Expr)
    | [] => return []
    | e :: es => do
      let e ← substUpsertProposed proposed e
      let es ← substAll proposed es
      return e :: es
  substOpt (proposed : Object) : Option Expr → Except String (Option Expr)
    | none => return none
    | some e => do
      let e ← substUpsertProposed proposed e
      return some e

def substProposedAssignment (proposed : Object) (a : Assignment) : Except String Assignment := do
  let value ← substUpsertProposed ops wops proposed a.value
  return { a with value }

/-- The policies that exclude each other, and what an arm may not hold. -/
def checkPolicy (i : Insert) : Except String Unit := do
  if i.replace && i.doNothing then
    throw "OR REPLACE / REPLACE INTO cannot combine with ON CONFLICT DO NOTHING"
  match i.arm with
  | none => return ()
  | some (assignments, selection) =>
    let exprs := assignments.map Assignment.value ++ selection.toList
    if i.replace || i.doNothing then
      throw ("OR REPLACE / REPLACE INTO / OR IGNORE cannot combine with " ++
        "an upsert-UPDATE clause")
    if exprs.any wops.callsNewid then
      throw ("NEWID()/NEWSEQUENTIALID() is not supported in DO UPDATE SET/WHERE " ++
        "(replication replay would diverge)")
    if exprs.any wops.refsRownum then throw "ROWNUM is not supported in DO UPDATE SET/WHERE"
    if let some (.onConflict none _) := i.on then
      throw ("ON CONFLICT DO UPDATE requires a conflict target (PostgreSQL semantics) — " ++
        "name the unique key with ON CONFLICT (cols) / ON CONSTRAINT, or use the " ++
        "MySQL spelling ON DUPLICATE KEY UPDATE for any-key matching")
    if exprs.any wops.proposedInSubquery then
      throw "EXCLUDED / VALUES() inside a subquery of DO UPDATE SET/WHERE is not supported"

/-- The update of the row a new one is in conflict with: nothing when WHERE is not true. -/
def upsertImage (n : ℕ) (d : Depth) (t : String) (assignments : List Assignment)
    (selection : Option Expr) (proposed existing : Object) : ReadCx (Option Object) := do
  let selection ← Lookup.lift (substUpsertProposed.substOpt ops wops proposed selection)
  if ← matchesIn ops cat n d [t] selection existing then
    let assignments ← Lookup.lift (assignments.mapM (substProposedAssignment ops wops proposed))
    let vals ← evalAssignments ops cat n d [t] assignments existing
    let merged := setFields existing vals
    Lookup.lift (wops.checkDoc t merged)
    return some merged
  else return none

/-- One new row: it is placed, or the row in its way is updated or left. -/
def insertRow (n : ℕ) (d : Depth) (i : Insert) (t : String) (s : σ) (doc : Object) :
    WriteCx σ := do
  fx.perform t (.beforeInsert doc)
  match ← fx.perform t (.conflict i s doc) with
  | none => fx.perform t (.place s doc)
  | some (loc, existing) =>
    match i.arm with
    | none => return s
    | some (assignments, selection) =>
      match ← look (upsertImage ops wops cat n d t assignments selection doc existing) with
      | none => return s
      | some merged => fx.perform t (.upsert s loc existing merged)

/-- The rows of VALUES, which hold constants, or of a SELECT. -/
def insertRows (n : ℕ) (d : Depth) (columns : List String) (q : Query) :
    ReadCx (List (List Value)) :=
  match q with
  | .mk _ (.values widths cells) _ _ => do
    let rows ← Lookup.lift (wops.constRows widths cells)
    if rows.isEmpty then throw "INSERT has no rows"
    return rows
  | .mk _ (.select _) _ _ => do
    let r ← execQuery ops cat n d q
    let got := r.columns.length
    let want := columns.length
    if got ≠ want then throw s!"INSERT SELECT has {got} columns but {want} are expected"
    return r.rows
  | _ => throw "unsupported INSERT source"

def repeatedColumn (seen : List String) : List String → Option String
  | [] => none
  | c :: cs => if c ∈ seen then some c else repeatedColumn (c :: seen) cs

/-- The columns of an INSERT: those listed, or all that are declared. -/
def insertColumns (i : Insert) (declared : List String) : Except String (List String) :=
  if i.columns.isEmpty then .ok declared
  else
    match repeatedColumn [] (i.columns.map objName) with
    | some dup => .error s!"duplicate column name: {dup}"
    | none => .ok (i.columns.map objName)

/-- An INSERT into a table, once the checks of its target went through. -/
def insertInto (n : ℕ) (d : Depth) (i : Insert) (t : String) (columns : List String) (q : Query) :
    WriteCx ExecOutcome := do
  let rows ← look (insertRows ops wops cat n d columns q)
  let docs ← fx.perform t (.newDocs i columns rows)
  look (Lookup.lift (checkPolicy wops i))
  let r ← fx.perform t (.displace i docs)
  let s ← r.2.foldlM (insertRow ops wops cat fx n d i t) r.1
  fx.perform t (.finishInsert i s)

def execInsert (n : ℕ) (d : Depth) (i : Insert) : WriteCx ExecOutcome := do
  if i.output then throw "OUTPUT is not supported (use RETURNING)"
  match i.table with
  | none => throw "unsupported INSERT target"
  | some name =>
    let t := objName name
    match cat.get t with
    | none => throw s!"table {t} does not exist"
    | some tableMeta =>
      look (Lookup.lift (ensureNotView wops cat "INSERT into" t))
      let columns ← look (Lookup.lift (insertColumns i tableMeta.columns))
      match i.source with
      | none => throw "INSERT requires VALUES"
      | some q => insertInto ops wops cat fx n d i t columns q

/-! ## MERGE -/

/-- What a MERGE does, of which there is at most one arm of each kind. -/
structure MergeArms where
  update : Option (List Assignment) := none
  insert : Option (List String × List Expr) := none

/-- The columns of WHEN NOT MATCHED THEN INSERT. -/
def mergeColumns (declared : List String) (columns : List (List String)) (width : ℕ) :
    Except String (List String) := do
  let cols ← columns.foldlM (fun cols c => do
    let col := objName c
    if col ∉ declared then throw s!"column {col} does not exist"
    if col ∈ cols then throw s!"duplicate column name: {col}"
    return cols ++ [col]) []
  if cols.isEmpty then
    let count := declared.length
    if width ≠ count then
      throw (s!"MERGE INSERT has {width} values but the table has {count} columns; " ++
        "use an explicit column list")
    return declared
  else return cols

/-- `NOT MATCHED BY TARGET` is taken for MATCHED. -/
def mergeArm (declared : List String) (arms : MergeArms) (c : MergeClause) :
    Except String MergeArms := do
  if c.predicate.isSome then throw "MERGE WHEN … AND <predicate> is not supported"
  match c.kind with
  | .notMatchedBySource => throw "WHEN … BY SOURCE is not supported"
  | .matched | .notMatchedByTarget =>
    if arms.update.isSome then throw "duplicate WHEN MATCHED clause"
    match c.action with
    | .update assignments predicates =>
      if predicates then throw "MERGE UPDATE WHERE/DELETE WHERE is not supported"
      return { arms with update := some assignments }
    | _ => throw ("WHEN MATCHED supports only UPDATE " ++
        "(DELETE/other actions are not supported)")
  | .notMatched =>
    if arms.insert.isSome then throw "duplicate WHEN NOT MATCHED clause"
    match c.action with
    | .insert columns values predicate =>
      if predicate then throw "MERGE INSERT predicate is not supported"
      match values with
      | none => throw "MERGE INSERT ROW is not supported"
      | some [row] =>
        let cols ← mergeColumns declared columns row.length
        return { arms with insert := some (cols, row) }
      | some _ => throw "MERGE INSERT VALUES must have exactly one row"
    | _ => throw "WHEN NOT MATCHED THEN UPDATE is not supported"

/-- The name the columns of the source are qualified with. -/
def mergeSourceKey : TableFactor → String
  | .table name opts => opts.aliasName.getD (objName name)
  | factor => ((wops.sourceAlias factor).filter (· ≠ "")).getD "source"

/-- The pairs ON is true of, target rows first. -/
def mergePairs (m : Merge) (t tkey skey : String) (updates : Bool) (targets : Rows)
    (sources : List Object) : Except String (List ((ℕ × Object) × ℕ)) :=
  targets.foldlM (fun pairs row => do
    let hits ← sources.zipIdx.foldlM (fun hits s => do
      let v ← evalExpr ops m.on (mergeJoinRow row.2 tkey s.1 skey)
      if isTrue v then
        if updates && !hits.isEmpty then
          throw (s!"MERGE cannot update the same row of {t} twice " ++
            "(multiple source rows matched)")
        return hits ++ [(row, s.2)]
      else return hits) []
    return pairs ++ hits) []

def mergeUpdates (t tkey skey : String) (assignments : List Assignment) (sources : List Object)
    (pairs : List ((ℕ × Object) × ℕ)) : Except String (List (ℕ × Object × Object)) :=
  pairs.mapM fun p => do
    let row := mergeJoinRow p.1.2 tkey (sources.getD p.2 []) skey
    let vals ← assignments.mapM fun a => match a.column with
      | none => throw "unsupported MERGE assignment target"
      | some c => do
        let v ← evalExpr ops a.value row
        return (objName c, v)
    let new := setFields p.1.2 vals
    wops.checkDoc t new
    return (p.1.1, p.1.2, new)

/-- The rows of the source that no target row matched, as new documents. -/
def mergeInserts (columns : List String) (values : List Expr) (sources : List Object)
    (consumed : List ℕ) : List (Except String Object) :=
  (sources.zipIdx.filter fun s => s.2 ∉ consumed).map fun s => do
    let vals ← (columns.zip values).mapM fun p => do
      let v ← evalExpr ops p.2 s.1
      return (p.1, v)
    return setFields [] vals

def mergeRownum (m : Merge) (arms : MergeArms) : Bool :=
  wops.refsRownum m.on || arms.update.any (fun as => as.any fun a => wops.refsRownum a.value) ||
    arms.insert.any (fun p => p.2.any wops.refsRownum)

/-- A MERGE into a table with its arms.  Conditions and values are evaluated as they are:
a subquery in them fails. -/
def mergeInto (n : ℕ) (d : Depth) (m : Merge) (t tkey : String) (arms : MergeArms) :
    WriteCx ExecOutcome := do
  let sources ← look (loadTableFactor ops cat n d m.source [])
  let skey := mergeSourceKey wops m.source
  if skey = tkey then
    throw s!"MERGE source and target aliases must differ (both are '{skey}')"
  let targets ← look (tableDocs cat t)
  if mergeRownum wops m arms then throw "ROWNUM is not supported in MERGE ON / WHEN arms"
  let pairs ← look (Lookup.lift (mergePairs ops m t tkey skey arms.update.isSome targets sources))
  let updates ← look (Lookup.lift (mergeUpdates ops wops t tkey skey (arms.update.getD []) sources
    (if arms.update.isSome then pairs else [])))
  let inserts := match arms.insert with
    | none => []
    | some (columns, values) => mergeInserts ops columns values sources (pairs.map Prod.snd)
  fx.perform t (.merge m updates inserts)

def execMerge (n : ℕ) (d : Depth) (m : Merge) : WriteCx ExecOutcome :=
  match m.table with
  | .table name opts =>
    let t := objName name
    match cat.get t with
    | none => throw s!"table {t} does not exist"
    | some tableMeta => do
      look (Lookup.lift (ensureNotView wops cat "MERGE into" t))
      let arms ← look (Lookup.lift (m.clauses.foldlM (mergeArm tableMeta.columns) {}))
      mergeInto ops wops cat fx n d m t (opts.aliasName.getD t) arms
  | _ => throw "MERGE target must be a simple table"

def execWrite (n : ℕ) (d : Depth) : Write → WriteCx ExecOutcome
  | .insert i => execInsert ops wops cat fx n d i
  | .update u => execUpdate ops wops cat fx n d u
  | .delete del => execDelete ops wops cat fx n d del
  | .merge m => execMerge ops wops cat fx n d m

end Exec

end Docsql.Sql
