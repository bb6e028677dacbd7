import Docsql.Dml.Session
import Docsql.Dml.Referential

/-!
# Firing row triggers

`fire_row_triggers` and `run_trigger_bodies` over sessions.  A body statement
keeps a record of its own.
-/

namespace Docsql.Dml

open StateExcept (read update throwIf fromExcept forEach)
open Trigger (TriggerDef TriggerAction TriggerFireEvent)

variable {Doc H : Type}

/-- Run a statement inside another one. -/
abbrev Nested (Doc H : Type) := String → Request Doc H → SessionM Doc H Unit

/-- The record of a statement is not that of the statements below it. -/
def apart (run : SessionM Doc H Unit) : SessionM Doc H Unit := fun e =>
  let (r, e') := run { e with record := {} }
  (r, { e' with record := e.record })

/-- The comparisons a body statement has to pass. -/
def checkBodyTarget (target firingTable : String) : SessionM Doc H Unit := do
  throwIf (target = firingTable) (s!"cannot modify table {target} from a trigger on {target} " ++
    s!"while a statement on {target} is in progress (split the write onto a second table)")
  let e ← read
  throwIf (target ∈ e.referentialGuard.getD []) (s!"cannot modify table {target} from a trigger " ++
    "while a referential-action statement is rewriting it (split the write onto a second table)")

def runAction (run : Nested Doc H) (d : TriggerDef Doc (Request Doc H)) (firingTable : String)
    (old new : Option Doc) : TriggerAction Doc (Request Doc H) → SessionM Doc H Unit
  | .raise msg => throw s!"RAISE in trigger {d.name}: {msg}"
  | .sql stmt => do
    checkBodyTarget stmt.target firingTable
    let request ← fromExcept (stmt.substNewOld old new)
    apart (run stmt.target request)

def runTrigger (run : Nested Doc H) (table : String) (before : Bool) (old new : Option Doc)
    (d : TriggerDef Doc (Request Doc H)) : SessionM Doc H Unit := do
  note fun r => { r with ran := r.ran ++ [⟨d.name, table, before, old, new⟩] }
  let pass ← fromExcept <| match d.when with
    | some w => w old new
    | none => .ok true
  if pass then forEach (runAction run d table old new) d.body
  else return ()

variable (c : Catalog Doc H)

def matchedTriggers (table : String) (before : Bool) (ev : TriggerFireEvent) :
    List (TriggerDef Doc (Request Doc H)) :=
  c.triggers.filter fun d => d.table = table && d.before = before && d.matchesEvent ev

/-- `nested` is `none` where the cascade is too deep. -/
def fireRowTriggers (nested : Option (Nested Doc H)) (table : String) (before : Bool)
    (ev : TriggerFireEvent) (old new : Option Doc) : SessionM Doc H Unit :=
  let matched := matchedTriggers c table before ev
  if matched.isEmpty then return ()
  else
    match nested with
    | none => throw "trigger nesting too deep (>16); likely an infinite trigger cycle"
    | some run => forEach (runTrigger run table before old new) matched

end Docsql.Dml

/-!
# Executing a statement

`exec_insert`, `exec_update`, `exec_delete` and `exec_merge` with the triggers
they fire and the rows they return.  The pager transaction of a statement is the
`Work` it passes along: where the statement fails, it is dropped.
-/

namespace Docsql.Dml

open StateExcept (read fromExcept forEach)
open Heap (unpackLoc)
open Trigger (TriggerFireEvent)
open Index (Table Work WorkM DocHeap InsertReq UpdateReq Plan affectedDocs applyUpdates conflictFor
  docsAt indexRow legacyCheck liftHeap matching pageDocs planInsert planUpdates
  probeRows reindexInsert reindexRemove reindexRepoint removeDocs resolveConflict rewriteTable)

variable {Doc H : Type} (env : Env Doc) (heap : DocHeap Doc H) (c : Catalog Doc H)
variable (nested : Option (Nested Doc H))

/-- A step of the pager transaction. -/
def stage {α : Type} (w : Work H) (m : WorkM H α) : Except String (α × Work H) :=
  match m w with
  | (.ok a, w') => .ok (a, w')
  | (.error msg, _) => .error msg

def workOf (t : Table H) : Work H := ⟨t.heap, t.roots⟩

def withWork (t : Table H) (w : Work H) : Table H := { t with heap := w.heap, roots := w.roots }

/-- The check of constraints without trees, where the statement changes a row. -/
def checkLegacy (t : Table H) (w : Work H) (unchanged : Bool) : Except String Unit :=
  if unchanged then .ok () else legacyCheck env.toEnv t ((heap.live w.heap).map Prod.snd)

/-- The same event for many rows. -/
def fireAll (table : String) (before : Bool) {α : Type}
    (images : α → TriggerFireEvent × Option Doc × Option Doc) : List α → SessionM Doc H Unit :=
  forEach fun a =>
    let (ev, old, new) := images a
    fireRowTriggers c nested table before ev old new

def deleteImages (doc : Doc) : TriggerFireEvent × Option Doc × Option Doc :=
  (.delete, some doc, none)

def updateImages (cols : List String) (p : Doc × Doc) :
    TriggerFireEvent × Option Doc × Option Doc :=
  (.update (some cols), some p.1, some p.2)

/-! ## INSERT -/

section Insert

def InsertStmt.req (s : InsertStmt Doc H) (tables : Tables H) (docs : List Doc) :
    InsertReq Doc where
  docs := docs
  policy := s.policy
  target := s.target
  selects := s.selects tables
  merge := s.merge tables
  checkDisplaced := fun displaced => s.checkDisplaced tables displaced docs
  checkFinal := s.checkFinal tables

/-- The update arm: the new locator of the row, its old and its new image. -/
def upsertRow (t : Table H) (req : InsertReq Doc) (loc : ℕ) (doc : Doc) :
    WorkM H (Option (ℕ × Doc × Doc)) := do
  let before ← pageDocs heap (unpackLoc loc).1
  match before.lookup loc with
  | none => throw s!"upsert: conflicting row vanished mid-statement (locator {loc})"
  | some existing => do
    let pass ← fromExcept (req.selects existing doc)
    if !pass then return none
    else do
      let merged ← fromExcept (req.merge existing doc)
      let specs := t.specs env.toEnv
      reindexRemove env.toEnv specs existing loc
      let out ← liftHeap (heap.replace loc merged)
      forEach (fun m => reindexRepoint env.toEnv specs before m.1 m.2)
        (out.moved.filter fun m => m.1 ≠ loc)
      reindexInsert env.toEnv specs merged out.placed
      return some (out.placed, existing, merged)

def placeRow (t : Table H) (doc : Doc) : WorkM H ℕ := do
  let loc ← liftHeap (heap.insert doc)
  indexRow env.toEnv t doc loc
  return loc

/-- The state of the row loop. -/
structure Staged (Doc H : Type) where
  work : Work H
  placed : List (ℕ × Doc) := []
  updated : List (ℕ × Doc × Doc) := []
  /-- Where a relocated row was first seen. -/
  originOf : List (ℕ × ℕ) := []
  returned : List Doc := []

def Staged.upserted (st : Staged Doc H) (loc placed : ℕ) (old new : Doc) : Staged Doc H :=
  let origin := (st.originOf.lookup loc).getD loc
  let originOf := if placed = loc then st.originOf else (placed, origin) :: st.originOf
  { st with
    originOf := originOf
    updated := st.updated ++ [((originOf.lookup loc).getD loc, old, new)]
    returned := st.returned ++ [new] }

/-- A row touched more than once counts with its first and its last image. -/
def collapse (updated : List (ℕ × Doc × Doc)) : List (ℕ × Doc × Doc) :=
  let locs := updated.map Prod.fst
  if locs.Nodup then updated
  else (locs.toFinset.sort (· ≤ ·)).filterMap fun loc => do
    let first ← updated.find? fun u => u.1 = loc
    let last ← updated.reverse.find? fun u => u.1 = loc
    some (loc, first.2.1, last.2.2)

variable (table : String) (t : Table H) (s : InsertStmt Doc H)

/-- The rows REPLACE displaces: removed like any deleted row. -/
def displaceRows (newDocs : List Doc) (locs : List ℕ) (w : Work H) : SessionM Doc H (Work H) :=
  if locs = [] then return w
  else do
    let locs := locs.toFinset.sort (· ≤ ·)
    let (before, w) ← fromExcept (stage w (affectedDocs heap locs))
    let targets := docsAt before locs
    let e ← read
    fromExcept (s.checkDisplaced e.tables (targets.map Prod.snd) newDocs)
    fireAll c nested table true deleteImages (targets.map Prod.snd)
    let (_, w) ← fromExcept
      (stage w (removeDocs env.toEnv heap (t.specs env.toEnv) targets before locs))
    noteChanged table (targets.map fun e => .deleted e.2)
    fireAll c nested table false deleteImages (targets.map Prod.snd)
    return w

/-- One candidate of the row loop. -/
def insertRow (newDocs : List Doc) (st : Staged Doc H) (doc : Doc) :
    SessionM Doc H (Staged Doc H) := do
  fireRowTriggers c nested table true .insert none (some doc)
  let e ← read
  let req := s.req e.tables newDocs
  let (conflict, w) ← fromExcept (stage st.work (conflictFor env.toEnv t req doc))
  match conflict with
  | some loc =>
    note fun r => { r with unplaced := r.unplaced ++ [(table, doc)] }
    if s.policy = .doNothing then return { st with work := w }
    else do
      let (pair, w) ← fromExcept (stage w (upsertRow env heap t req loc doc))
      match pair with
      | none => return { st with work := w }
      | some (placed, old, new) => do
        noteChanged table [.updated old new s.assigned]
        fireRowTriggers c nested table true (.update (some s.assigned)) (some old) (some new)
        fireRowTriggers c nested table false (.update (some s.assigned)) (some old) (some new)
        return { st with work := w }.upserted loc placed old new
  | none => do
    let (loc, w) ← fromExcept (stage w (placeRow env heap t doc))
    noteChanged table [.inserted doc]
    fireRowTriggers c nested table false .insert none (some doc)
    return { st with
      work := w
      placed := st.placed ++ [(loc, doc)]
      returned := st.returned ++ [doc] }

def insertRows (newDocs : List Doc) : List Doc → Staged Doc H → SessionM Doc H (Staged Doc H)
  | [], st => return st
  | doc :: docs, st => do
    let st ← insertRow env heap c nested table t s newDocs st doc
    insertRows newDocs docs st

def checkTarget : Except String Unit :=
  match s.target with
  | none => .ok ()
  | some target => (resolveConflict t target).map fun _ => ()

def execInsert : SessionM Doc H (Done Doc) := do
  let e ← read
  let t := e.tables table
  let docs ← fromExcept (s.rows e.tables)
  fromExcept (checkTarget t s)
  let ((newDocs, locs), w) ← fromExcept
    (stage (workOf t) (planInsert env.toEnv heap t (s.req e.tables docs)))
  let w ← displaceRows env heap c nested table t s newDocs locs w
  let st ← insertRows env heap c nested table t s newDocs newDocs { work := w }
  let updated := collapse st.updated
  let e ← read
  fromExcept (s.checkFinal e.tables st.placed (updated.map Prod.snd))
  fromExcept (checkLegacy env heap t st.work (st.placed.isEmpty && updated.isEmpty))
  commitTable env table (withWork t st.work)
    (st.placed.map Prod.snd ++ updated.map fun u => u.2.2)
  return ⟨st.returned, st.placed.length + updated.length⟩

end Insert

/-! ## Referential actions -/

section Referential

/-- The columns of an update whose values differ. -/
def changedCols (columns : List String) (old new : Doc) : List String :=
  columns.filter fun col =>
    match env.get old col, env.get new col with
    | some a, some b => !sameValue a b
    | none, none => false
    | _, _ => true

variable (origin : String) (assigned : List String) (base : List (Doc × Doc))

/-- What a plan does to the rows of a table.  A row the statement itself
updates is updated in the columns assigned too. -/
def deltaChanges (columns : List String) (table : String) (d : ReferentialDelta Doc)
    (pre : List Doc) : List (Change Doc) :=
  pre.filterMap fun doc => (d.fate env doc).map fun
    | none => .deleted doc
    | some new =>
      let own := table = origin ∧ env.objectKey doc ∈ base.map fun p => env.objectKey p.1
      .updated doc new ((if own then assigned else []) ++ changedCols env columns doc new)

def fireDelta (columns : List String) (table : String) (before : Bool)
    (d : ReferentialDelta Doc) : SessionM Doc H Unit := do
  fireAll c nested table before deleteImages d.deletes
  fireAll c nested table before (fun p => updateImages (changedCols env columns p.1 p.2) p)
    d.updates

def docsOf (tables : Tables H) : String → List Doc := fun t => (tables t).docs heap

/-- One table of the plan; `tables` is the state the plan was computed from. -/
def applyTable (tables : Tables H) (deltas : Deltas Doc) (table : String) : SessionM Doc H Unit :=
  let d := (deltas table).getD {}
  if d.isEmpty then return ()
  else do
    let pre := docsOf heap tables table
    let final := d.finalDocs env pre
    let columns := (tables table).tableMeta.columns
    let e ← read
    let t := e.tables table
    fireDelta env c nested columns table true d
    let t' ← fromExcept (rewriteTable env.toEnv heap t final)
    noteChanged table (deltaChanges env origin assigned base columns table d pre)
    commitTable env table t' final
    fireDelta env c nested columns table false d

def applyReferentialPlan (tables : Tables H) (order : List String) (deltas : Deltas Doc) :
    SessionM Doc H Unit := fun e =>
  let (r, e') := forEach (applyTable env heap c nested origin assigned base tables deltas) order
    { e with referentialGuard := some order }
  (r, { e' with referentialGuard := none })

/-- `exec_delete_referential` and `exec_update_referential`. -/
def execReferential (deletes : List Doc) : SessionM Doc H (ReferentialDelta Doc) := do
  let e ← read
  let (order, deltas) ← fromExcept
    (planReferentialActions env c (docsOf heap e.tables) e.tables origin deletes base)
  applyReferentialPlan env heap c nested origin assigned base e.tables order deltas
  return (deltas origin).getD {}

end Referential

/-! ## UPDATE -/

section Update

/-- The rows of a table, those that change with their new images. -/
structure Images (Doc : Type) where
  /-- Old and new images as the triggers and the checks get them. -/
  pairs : List (Doc × Doc)
  marks : List (Doc × Option Doc)

namespace Images

variable (im : Images Doc)

def out : List Doc := im.marks.map fun m => m.2.getD m.1

def changed : List (Doc × Doc) := im.marks.filterMap fun m => m.2.map fun new => (m.1, new)

end Images

variable (table : String) (t : Table H) (s : UpdateStmt Doc H)

def assignAll (doc : Doc) (vals : List (String × Value)) : Doc :=
  vals.foldl (fun d v => env.insert d v.1 v.2) doc

def UpdateStmt.req (tables : Tables H) : UpdateReq Doc where
  plan := none
  selects := s.selects tables
  assign := fun doc => do
    let vals ← s.values tables doc
    let new := assignAll env doc vals
    c.checkRow table new
    .ok new
  check := fun _ => .ok ()

def plainMarks (tables : Tables H) : List Doc → Except String (List (Doc × Option Doc))
  | [] => .ok []
  | doc :: docs => do
    let pass ← s.selects tables doc
    if pass then
      let vals ← s.values tables doc
      let rest ← plainMarks tables docs
      .ok ((doc, some (assignAll env doc vals)) :: rest)
    else
      let rest ← plainMarks tables docs
      .ok ((doc, none) :: rest)

/-- The target rows of joined rows. -/
def withTargets (docs : List Doc) (rows : List (ℕ × Doc)) : List (Doc × Doc) :=
  rows.filterMap fun r => docs[r.1]?.map fun doc => (doc, r.2)

/-- The first joined row that qualifies gives the image of its target row. -/
def joinedUpdates (tables : Tables H) :
    List (Doc × Doc) → List (List UInt8 × Doc × Doc) → Except String (List (List UInt8 × Doc × Doc))
  | [], updates => .ok updates
  | (target, row) :: rest, updates =>
    let key := env.objectKey target
    if key ∈ updates.map Prod.fst then joinedUpdates tables rest updates
    else do
      let pass ← s.selects tables row
      if pass then
        let vals ← s.values tables row
        joinedUpdates tables rest (updates ++ [(key, target, assignAll env target vals)])
      else joinedUpdates tables rest updates

def imagesOf (tables : Tables H) (docs : List Doc) : Except String (Images Doc) :=
  match s.source with
  | none => do
    let marks ← plainMarks env s tables docs
    .ok ⟨marks.filterMap fun m => m.2.map fun new => (m.1, new), marks⟩
  | some source => do
    let rows ← source tables
    let updates ← joinedUpdates env s tables (withTargets docs rows) []
    .ok ⟨updates.map Prod.snd,
      docs.map fun doc => (doc, (updates.lookup (env.objectKey doc)).map Prod.snd)⟩

/-- `exec_update_fast`. -/
def execUpdateFast (plan : Plan) : SessionM Doc H (Done Doc) := do
  let e ← read
  let t := e.tables table
  let updates ← fromExcept (planUpdates (s.req env c table e.tables) (probeRows heap t plan))
  if updates.isEmpty then return ⟨[], 0⟩
  else do
    let pairs := updates.map Prod.snd
    let news := pairs.map Prod.snd
    fromExcept (news.forM (s.checkForeign e.tables news))
    fromExcept (s.checkParents e.tables pairs)
    fireAll c nested table true (updateImages s.assigned) pairs
    let (_, w) ← fromExcept
      (stage (workOf t) (applyUpdates env.toEnv heap (t.specs env.toEnv) updates))
    fromExcept (checkLegacy env heap t w false)
    noteChanged table (pairs.map fun p => .updated p.1 p.2 s.assigned)
    commitTable env table (withWork t w) news
    fireAll c nested table false (updateImages s.assigned) pairs
    return ⟨news, news.length⟩

def execUpdateGeneric : SessionM Doc H (Done Doc) := do
  let e ← read
  let t := e.tables table
  let im ← fromExcept (imagesOf env s e.tables (t.docs heap))
  if c.referentialActionsReach table then do
    let d ← execReferential env heap c nested table s.assigned im.pairs []
    return ⟨d.updates.map Prod.snd, d.updates.length⟩
  else do
    fromExcept (im.out.forM fun doc => do
      c.checkRow table doc
      s.checkForeign e.tables im.out doc)
    fromExcept (Index.checkUnique env.toEnv t.tableMeta im.out)
    fromExcept (s.checkParents e.tables im.pairs)
    fireAll c nested table true (updateImages s.assigned) im.pairs
    let t' ← fromExcept (rewriteTable env.toEnv heap t im.out)
    noteChanged table (im.changed.map fun p => .updated p.1 p.2 s.assigned)
    commitTable env table t' im.out
    fireAll c nested table false (updateImages s.assigned) im.pairs
    return ⟨im.pairs.map Prod.snd, im.changed.length⟩

/-- The fast path is for a statement of one table that an index can answer. -/
def updatePlan (tables : Tables H) : Except String (Option Plan) :=
  if s.source.isNone && !c.referentialActionsReach table then s.plan tables else .ok none

def execUpdate : SessionM Doc H (Done Doc) := do
  let e ← read
  fromExcept (s.prepare e.tables)
  let plan ← fromExcept (updatePlan c table s e.tables)
  match plan with
  | some plan => execUpdateFast env heap c nested table s plan
  | none => execUpdateGeneric env heap c nested table s

end Update

/-! ## DELETE -/

section Delete

variable (table : String) (t : Table H) (s : DeleteStmt Doc H)

/-- The target rows of the joined rows that qualify, by their encodings. -/
def joinedKeys (tables : Tables H) : List (Doc × Doc) → Except String (List (List UInt8))
  | [] => .ok []
  | (target, row) :: rest => do
    let pass ← s.selects tables row
    let keys ← joinedKeys tables rest
    .ok (if pass then env.objectKey target :: keys else keys)

/-- The rows with whether they are to be removed. -/
def removalMarks (tables : Tables H) (docs : List Doc) : Except String (List (Doc × Bool)) :=
  match s.source with
  | none => docs.mapM fun doc => do
    let pass ← s.selects tables doc
    .ok (doc, pass)
  | some source => do
    let rows ← source tables
    let keys ← joinedKeys env s tables (withTargets docs rows)
    .ok (docs.map fun doc => (doc, decide (env.objectKey doc ∈ keys)))

/-- `exec_delete_fast`. -/
def execDeleteFast (plan : Plan) : SessionM Doc H (Done Doc) := do
  let e ← read
  let t := e.tables table
  let targets ← fromExcept (matching (s.selects e.tables) Prod.snd (probeRows heap t plan))
  if targets.isEmpty then return ⟨[], 0⟩
  else do
    let removed := targets.map Prod.snd
    let locs := targets.map Prod.fst
    fromExcept (s.checkParents e.tables removed)
    fireAll c nested table true deleteImages removed
    let (before, w) ← fromExcept (stage (workOf t) (affectedDocs heap locs))
    let (_, w) ← fromExcept
      (stage w (removeDocs env.toEnv heap (t.specs env.toEnv) targets before locs))
    noteChanged table (removed.map .deleted)
    commitTable env table (withWork t w) []
    fireAll c nested table false deleteImages removed
    return ⟨removed, removed.length⟩

def execDeleteGeneric : SessionM Doc H (Done Doc) := do
  let e ← read
  let t := e.tables table
  let marks ← fromExcept (removalMarks env s e.tables (t.docs heap))
  let removed := (marks.filter fun m => m.2).map Prod.fst
  let kept := (marks.filter fun m => !m.2).map Prod.fst
  if c.referentialActionsReach table then do
    let d ← execReferential env heap c nested table [] [] removed
    return ⟨removed, d.deletes.length⟩
  else do
    fromExcept (s.checkParents e.tables removed)
    fireAll c nested table true deleteImages removed
    let t' ← fromExcept (rewriteTable env.toEnv heap t kept)
    noteChanged table (removed.map .deleted)
    commitTable env table t' []
    fireAll c nested table false deleteImages removed
    return ⟨removed, removed.length⟩

def deletePlan (tables : Tables H) : Except String (Option Plan) :=
  if s.source.isNone && !c.referentialActionsReach table then s.plan tables else .ok none

def execDelete : SessionM Doc H (Done Doc) := do
  let e ← read
  fromExcept (s.prepare e.tables)
  let plan ← fromExcept (deletePlan c table s e.tables)
  match plan with
  | some plan => execDeleteFast env heap c nested table s plan
  | none => execDeleteGeneric env heap c nested table s

end Delete

/-! ## MERGE -/

section Merge

variable (table : String) (s : MergeStmt Doc H)

/-- The source rows a target row matches. -/
def mergeHits (target : Doc) : List (Doc × ℕ) → List (Doc × ℕ) → Except String (List (Doc × ℕ))
  | [], found => .ok found
  | row :: rows, found => do
    let pass ← s.on target row.1
    if !pass then mergeHits target rows found
    else if s.update.isSome && !found.isEmpty then
      .error (s!"MERGE cannot update the same row of {table} twice " ++
        "(multiple source rows matched)")
    else mergeHits target rows (found ++ [row])

/-- Each matched target row with its source row. -/
def mergePairs (source : List (Doc × ℕ)) :
    List (ℕ × Doc) → Except String (List (ℕ × Doc × (Doc × ℕ)))
  | [] => .ok []
  | (loc, target) :: rest => do
    let found ← mergeHits table s target source []
    let more ← mergePairs source rest
    .ok (found.map (fun row => (loc, target, row)) ++ more)

/-- The WHEN MATCHED arm. -/
def mergeUpdates (pairs : List (ℕ × Doc × (Doc × ℕ))) :
    Except String (List (ℕ × Doc × Doc)) :=
  match s.update with
  | none => .ok []
  | some image => pairs.mapM fun p => do
    let new ← image p.2.1 p.2.2.1
    .ok (p.1, p.2.1, new)

/-- The WHEN NOT MATCHED arm. -/
def mergeInserts (t : Table H) (build : ℤ → Doc → Except String (Doc × ℤ)) :
    List Doc → ℤ → WorkM H (List Doc)
  | [], _ => return []
  | row :: rows, next => do
    let (doc, next) ← fromExcept (build next row)
    let loc ← liftHeap (heap.insert doc)
    reindexInsert env.toEnv (t.specs env.toEnv) doc loc
    let more ← mergeInserts t build rows next
    return doc :: more

/-- MERGE fires no row triggers and expands no referential actions. -/
def execMerge : SessionM Doc H (Done Doc) := do
  let e ← read
  let t := e.tables table
  let rows ← fromExcept (s.source e.tables)
  let source := rows.zipIdx
  let pairs ← fromExcept (mergePairs table s source (t.rows heap))
  let updates ← fromExcept (mergeUpdates s pairs)
  let (_, w) ← fromExcept
    (stage (workOf t) (applyUpdates env.toEnv heap (t.specs env.toEnv) updates))
  let next ← fromExcept (s.nextAutoinc e.tables)
  let rest := source.filter fun row => row.2 ∉ pairs.map fun p => p.2.2.2
  let (inserts, w) ← fromExcept <| match s.insert with
    | none => .ok ([], w)
    | some build => stage w (mergeInserts env heap t build (rest.map Prod.fst) next)
  fromExcept (checkLegacy env heap t w (updates.isEmpty && inserts.isEmpty))
  fromExcept (s.check e.tables updates inserts)
  noteChanged table (updates.map fun u => .updated u.2.1 u.2.2 s.assigned)
  noteChanged table (inserts.map .inserted)
  commitTable env table (withWork t w) (inserts ++ updates.map fun u => u.2.2)
  return ⟨[], updates.length + inserts.length⟩

end Merge

/-! ## Statements -/

/-- A statement up to its RETURNING list. -/
def execBody (table : String) : Request Doc H → SessionM Doc H (Done Doc)
  | .insert s => execInsert env heap c nested table s
  | .update s => execUpdate env heap c nested table s
  | .delete s => execDelete env heap c nested table s
  | .merge s => execMerge env heap table s

def execStmtInner (table : String) (request : Request Doc H) : SessionM Doc H ExecOutcome := do
  let done ← execBody env heap c nested table request
  fromExcept (outcome env request.returning done)

/-- Statements in trigger bodies, with room for that many levels of triggers. -/
def nestedStmt : ℕ → Option (Nested Doc H)
  | 0 => none
  | room + 1 => some fun table request => do
    let _ ← execStmtInner env heap c (nestedStmt room) table request
    return ()

def maxTriggerDepth : ℕ := 16

/-- The statement guard is opened. -/
def guarded (table : String) : Bool := c.triggersExistFor table || c.referentialActionsReach table

/-- `exec_stmt` for the statement of a client. -/
def execStmt (table : String) (request : Request Doc H) : SessionM Doc H ExecOutcome :=
  let run := execStmtInner env heap c (nestedStmt env heap c maxTriggerDepth) table request
  if guarded c table then runWithTriggerGuard run else run

end Docsql.Dml
