import Docsql.Index.Ddl

/-!
# Statements that change documents

INSERT with its conflict policies (`insert.rs`), UPDATE and DELETE on the fast
and the generic path (`dml.rs`) and MERGE (`merge.rs`).  Conditions, assignments
and the checks that only read come with the request.
-/

namespace Docsql.Index

open StateExcept (read fromExcept forEach throwIf)
open Heap (applyMoves unpackLoc)

variable {Doc H : Type}

/-- Commit what a statement has done. -/
def Table.commit {α : Type} (t : Table H) (m : WorkM H α) : Except String (Table H) :=
  match m ⟨t.heap, t.roots⟩ with
  | (.ok _, w) => .ok { t with heap := w.heap, roots := w.roots }
  | (.error e, _) => .error e

variable (env : Env Doc) (heap : DocHeap Doc H)

/-! ## Unique keys a statement looks at -/

/-- The unique trees of a table in the order they are asked. -/
structure Uniques (Doc : Type) where
  indexed : List String
  composite : List (IdxSpec Doc)
  partials : List (IdxSpec Doc)

def Table.specs (t : Table H) : List (IdxSpec Doc) :=
  idxSpecs env t.tableMeta (t.roots.map Prod.fst)

def Table.uniques (t : Table H) : Uniques Doc where
  indexed := t.tableMeta.constraintCols.filter (· ∈ t.roots.map Prod.fst)
  composite := (t.specs env).filter fun s => s.unique && 1 < s.cols.length
  partials := (t.specs env).filter fun s => s.unique && s.pred.isSome

def Uniques.isEmpty (u : Uniques Doc) : Bool :=
  u.indexed.isEmpty && u.composite.isEmpty && u.partials.isEmpty

/-- The keys of the document in the partial trees it qualifies for. -/
def partialKeys (doc : Doc) : List (IdxSpec Doc) → Except String (List (String × Value))
  | [] => .ok []
  | spec :: specs => do
    let pass ← qualifies doc spec
    let rest ← partialKeys doc specs
    match indexKeyOfSpec env doc spec with
    | some key => .ok (if pass then (spec.rootKey, key) :: rest else rest)
    | none => .ok rest

/-- The keys of the document in the other unique trees. -/
def fullKeys (u : Uniques Doc) (doc : Doc) : List (String × Value) :=
  (u.indexed.filterMap fun col => (nonNull (env.get doc col)).map fun v => (col, v)) ++
    u.composite.filterMap fun spec =>
      (indexKeyOfSpec env doc spec).map fun v => (spec.rootKey, v)

def uniqueKeys (u : Uniques Doc) (doc : Doc) : Except String (List (String × Value)) := do
  let inPartial ← partialKeys env doc u.partials
  .ok (fullKeys env u doc ++ inPartial)

/-! ## REPLACE -/

/-- The same keys by their encodings, as the batch filter compares them. -/
def batchKeys (u : Uniques Doc) (doc : Doc) : Except String (List (String × List UInt8)) := do
  let keys ← uniqueKeys env u doc
  .ok (keys.filterMap fun e => (encode env.codec e.2).toOption.map fun bytes => (e.1, bytes))

/-- The documents of a batch that no later one replaces. -/
def keepLast (u : Uniques Doc) : List Doc → Except String (List Doc)
  | [] => .ok []
  | doc :: docs => do
    let keys ← batchKeys env u doc
    let later ← docs.mapM (batchKeys env u)
    let kept ← keepLast u docs
    .ok (if keys.any fun k => later.any fun ks => k ∈ ks then kept else doc :: kept)

/-- The first locators under these keys, tree by tree. -/
def lookupKeys (keys : List (String × Value)) : WorkM H (List ℕ) := do
  let w ← read
  return keys.filterMap fun e => (w.roots.lookup e.1).bind fun t => treeGet t e.2

/-- The stored documents in the way of a batch. -/
def displacedBy (u : Uniques Doc) : List Doc → WorkM H (List ℕ)
  | [] => return []
  | doc :: docs => do
    let keys ← fromExcept (uniqueKeys env u doc)
    let hits ← lookupKeys keys
    let rest ← displacedBy u docs
    return hits ++ rest

/-- The encodings of all constraint columns, where none is NULL or missing. -/
def legacyKey (m : TableMeta) (doc : Doc) : Option (List (List UInt8)) :=
  m.constraintCols.mapM fun col =>
    (nonNull (env.get doc col)).bind fun v => (encode env.codec v).toOption

/-- `legacyKey` twice in a batch: the later document stays. -/
def legacyKeepLast (m : TableMeta) : List Doc → List Doc
  | [] => []
  | doc :: docs =>
    let kept := legacyKeepLast m docs
    match legacyKey env m doc with
    | none => doc :: kept
    | some k => if docs.any fun d => legacyKey env m d = some k then kept else doc :: kept

/-- What REPLACE inserts and which documents it removes for it. -/
def planReplace (t : Table H) (docs : List Doc) : WorkM H (List Doc × List ℕ) :=
  let u := t.uniques env
  if !u.isEmpty then do
    let kept ← fromExcept (if 1 < docs.length then keepLast env u docs else .ok docs)
    let locs ← displacedBy env u kept
    return (kept, locs)
  else if t.tableMeta.constraintCols ≠ [] ∧ docs ≠ [] then
    -- constraint columns of an old file that have no trees
    let kept := legacyKeepLast env t.tableMeta docs
    let locs := ((t.rows heap).filter fun e => (legacyKey env t.tableMeta e.2).any fun k =>
      kept.any fun d => legacyKey env t.tableMeta d = some k).map Prod.fst
    return (kept, locs)
  else return (docs, [])

/-- The documents under the locators, in their order. -/
def docsAt (before : List (ℕ × Doc)) (locs : List ℕ) : List (ℕ × Doc) :=
  locs.filterMap fun loc => (before.lookup loc).map fun d => (loc, d)

/-- Documents and their entries are removed, the entries of those that moved follow. -/
def removeDocs (specs : List (IdxSpec Doc)) (targets before : List (ℕ × Doc)) (locs : List ℕ) :
    WorkM H Unit := do
  let moves ← liftHeap (heap.removeMany locs)
  forEach (fun e => reindexRemove env specs e.2 e.1) targets
  forEach (fun m => reindexRepoint env specs before m.1 m.2) moves

def displace (t : Table H) (locs : List ℕ) (check : List Doc → Except String Unit) :
    WorkM H Unit :=
  if locs = [] then return ()
  else do
    let locs := locs.toFinset.sort (· ≤ ·)
    let before ← affectedDocs heap locs
    let targets := docsAt before locs
    fromExcept (check (targets.map Prod.snd))
    removeDocs env heap (t.specs env) targets before locs

/-! ## INSERT -/

inductive ConflictTarget where
  | columns (cols : List String)
  | autoindex (i : ℕ)
  | constraint (name : String)

/-- The tree an ON CONFLICT target names. -/
def resolveConflict (t : Table H) : ConflictTarget → Except String String
  | .columns cols =>
    match cols.filter fun col => cols = [col] ∧ col ∈ t.tableMeta.constraintCols ∧
      col ∈ t.roots.map Prod.fst with
    | col :: _ => .ok col
    | [] =>
      match t.tableMeta.indexDefs.find? fun d => d.pred.isNone && d.unique &&
        d.columns.length == cols.length && cols.all fun col => d.columns.contains col with
      | some d => .ok (if d.columns.length = 1 then d.columns.headD "" else d.name)
      | none => .error "there is no unique constraint matching the ON CONFLICT target"
  | .autoindex i =>
    match (t.tableMeta.primaryKey.toList ++ t.tableMeta.constraintUnique).dedup[i - 1]? with
    | some col => if 1 ≤ i then .ok col else .error "constraint does not exist"
    | none => .error "constraint does not exist"
  | .constraint name =>
    match t.tableMeta.defNamed name with
    | none => .error s!"constraint {name} does not exist"
    | some d =>
      if !d.unique then .error s!"constraint {name} is not unique"
      else .ok (if d.columns.length = 1 then d.columns.headD "" else d.name)

inductive Policy where
  | plain
  | replace
  | doNothing
  | doUpdate
deriving DecidableEq

structure InsertReq (Doc : Type) where
  docs : List Doc
  policy : Policy
  target : Option ConflictTarget
  /-- WHERE of the update arm: stored row, new row. -/
  selects : Doc → Doc → Except String Bool
  /-- SET of the update arm, with the constraints of the row checked. -/
  merge : Doc → Doc → Except String Doc
  checkDisplaced : List Doc → Except String Unit
  checkFinal : List (ℕ × Doc) → List (Doc × Doc) → Except String Unit

/-- The first conflict in a partial tree; predicates behind it are not evaluated. -/
def probePartials (doc : Doc) : List (IdxSpec Doc) → WorkM H (Option ℕ)
  | [] => return none
  | spec :: specs => do
    let keys ← fromExcept (partialKeys env doc [spec])
    let hits ← lookupKeys keys
    match hits with
    | loc :: _ => return some loc
    | [] => probePartials doc specs

/-- The stored row a new row conflicts with. -/
def conflictLoc (t : Table H) (target : Option ConflictTarget) (doc : Doc) :
    WorkM H (Option ℕ) :=
  match target with
  | none => do
    let hits ← lookupKeys (fullKeys env (t.uniques env) doc)
    match hits with
    | loc :: _ => return some loc
    | [] => probePartials env doc (t.uniques env).partials
  | some target => do
    let root ← fromExcept (resolveConflict t target)
    match indexKeyOf env doc (t.tableMeta.indexColumnsOf root) with
    | none => return none
    | some key => do
      let tree ← treeOf root
      return treeGet tree key

/-- A row is put in the place of another and its entries with it. -/
def replaceRow (specs : List (IdxSpec Doc)) (loc : ℕ) (doc : Doc) (skip : List ℕ) :
    WorkM H (List (ℕ × ℕ)) := do
  let before ← pageDocs heap (unpackLoc loc).1
  let out ← liftHeap (heap.replace loc doc)
  let moved := out.moved.filter fun m => m.1 ≠ loc ∧ m.1 ∉ skip
  forEach (fun m => reindexRepoint env specs before m.1 m.2) moved
  reindexInsert env specs doc out.placed
  return out.moved

/-- The update arm of an upsert. -/
def upsertRow (t : Table H) (req : InsertReq Doc) (loc : ℕ) (doc : Doc) :
    WorkM H (Option (Doc × Doc)) := do
  let before ← pageDocs heap (unpackLoc loc).1
  match before.lookup loc with
  | none => throw s!"upsert: conflicting row vanished mid-statement (locator {loc})"
  | some existing => do
    let pass ← fromExcept (req.selects existing doc)
    if !pass then return none
    else do
      let merged ← fromExcept (req.merge existing doc)
      reindexRemove env (t.specs env) existing loc
      let _ ← replaceRow env heap (t.specs env) loc merged []
      return some (existing, merged)

/-- The entries of a new row: constraint columns first, then all other trees. -/
def indexRow (t : Table H) (doc : Doc) (loc : ℕ) : WorkM H Unit := do
  let indexed := (t.uniques env).indexed
  forEach (fun col => match nonNull (env.get doc col) with
    | none => return ()
    | some v => addEntry env col v loc true) indexed
  reindexInsert env ((t.specs env).filter fun s => s.rootKey ∉ indexed) doc loc

structure Placed (Doc : Type) where
  placed : List (ℕ × Doc) := []
  updated : List (Doc × Doc) := []

/-- Only DO NOTHING and DO UPDATE look for conflicts ahead. -/
def conflictFor (t : Table H) (req : InsertReq Doc) (doc : Doc) : WorkM H (Option ℕ) :=
  if req.policy = .doNothing ∨ req.policy = .doUpdate then conflictLoc env t req.target doc
  else return none

def insertRows (t : Table H) (req : InsertReq Doc) :
    List Doc → Placed Doc → WorkM H (Placed Doc)
  | [], out => return out
  | doc :: docs, out => do
    let conflict ← conflictFor env t req doc
    match conflict with
    | some loc =>
      if req.policy = .doNothing then insertRows t req docs out
      else do
        let pair ← upsertRow env heap t req loc doc
        insertRows t req docs { out with updated := out.updated ++ pair.toList }
    | none => do
      let loc ← liftHeap (heap.insert doc)
      indexRow env t doc loc
      insertRows t req docs { out with placed := out.placed ++ [(loc, doc)] }

/-- Constraint columns without a tree are checked over the whole table. -/
def legacyCheck (t : Table H) (docs : List Doc) : Except String Unit :=
  if t.tableMeta.constraintCols.all fun col => col ∈ t.roots.map Prod.fst then .ok ()
  else checkUnique env t.tableMeta docs

def planInsert (t : Table H) (req : InsertReq Doc) : WorkM H (List Doc × List ℕ) :=
  if req.policy = .replace then planReplace env heap t req.docs else return (req.docs, [])

def execInsert (t : Table H) (req : InsertReq Doc) : Except String (Table H) :=
  t.commit (do
    let plan ← planInsert env heap t req
    displace env heap t plan.2 req.checkDisplaced
    let out ← insertRows env heap t req plan.1 {}
    fromExcept (req.checkFinal out.placed out.updated)
    let w ← read
    fromExcept (legacyCheck env t ((heap.live w.heap).map Prod.snd)))

/-! ## UPDATE, DELETE and MERGE -/

/-- A tree and the keys an index probe takes from it. -/
abbrev Plan := String × (Value → Bool)

/-- The rows an index probe finds, in the order of their locators. -/
def probeRows (t : Table H) (plan : Plan) : List (ℕ × Doc) :=
  let tree := (t.roots.lookup plan.1).getD []
  let locs := ((tree.filter fun e => plan.2 e.1).map Prod.snd).mergeSort
  docsAt (t.rows heap) locs

structure UpdateReq (Doc : Type) where
  plan : Option Plan
  selects : Doc → Except String Bool
  /-- The new image, with the constraints of the row checked. -/
  assign : Doc → Except String Doc
  check : List Doc → Except String Unit

/-- The rows that match, with their new images. -/
def planUpdates (req : UpdateReq Doc) :
    List (ℕ × Doc) → Except String (List (ℕ × Doc × Doc))
  | [] => .ok []
  | (loc, doc) :: rest => do
    let pass ← req.selects doc
    if pass then
      let new ← req.assign doc
      let more ← planUpdates req rest
      .ok ((loc, doc, new) :: more)
    else planUpdates req rest

/-- Pass 2 of an update: later rows follow the moves of earlier ones. -/
def applyImages (specs : List (IdxSpec Doc)) : List (ℕ × Doc) → WorkM H Unit
  | [] => return ()
  | (loc, new) :: rest => do
    let moves ← replaceRow env heap specs loc new (rest.map Prod.fst)
    applyImages specs (rest.map fun e => (applyMoves moves e.1, e.2))
termination_by updates => updates.length
decreasing_by simp

/-- All old entries go before the first new image lands. -/
def applyUpdates (specs : List (IdxSpec Doc)) (updates : List (ℕ × Doc × Doc)) :
    WorkM H Unit := do
  forEach (fun u => reindexRemove env specs u.2.1 u.1) updates
  applyImages env heap specs (updates.map fun u => (u.1, u.2.2))

def execUpdateFast (t : Table H) (req : UpdateReq Doc) (plan : Plan) :
    Except String (Table H) := do
  let updates ← planUpdates req (probeRows heap t plan)
  if updates = [] then .ok t
  else
    req.check (updates.map fun u => u.2.2)
    t.commit (do
      applyUpdates env heap (t.specs env) updates
      let w ← read
      fromExcept (legacyCheck env t ((heap.live w.heap).map Prod.snd)))

/-- The generic path: every document, the changed ones in their new image. -/
def updatedDocs (req : UpdateReq Doc) : List Doc → Except String (List Doc)
  | [] => .ok []
  | doc :: docs => do
    let pass ← req.selects doc
    let new ← if pass then req.assign doc else .ok doc
    let rest ← updatedDocs req docs
    .ok (new :: rest)

def execUpdateGeneric (t : Table H) (req : UpdateReq Doc) : Except String (Table H) := do
  let out ← updatedDocs req (t.docs heap)
  req.check out
  checkUnique env t.tableMeta out
  rewriteTable env heap t out

def execUpdate (t : Table H) (req : UpdateReq Doc) : Except String (Table H) :=
  match req.plan with
  | some plan => execUpdateFast env heap t req plan
  | none => execUpdateGeneric env heap t req

structure DeleteReq (Doc : Type) where
  plan : Option Plan
  selects : Doc → Except String Bool
  check : List Doc → Except String Unit

def matching (selects : Doc → Except String Bool) {α : Type} (docOf : α → Doc) :
    List α → Except String (List α)
  | [] => .ok []
  | a :: rest => do
    let pass ← selects (docOf a)
    let more ← matching selects docOf rest
    .ok (if pass then a :: more else more)

def execDeleteFast (t : Table H) (req : DeleteReq Doc) (plan : Plan) :
    Except String (Table H) := do
  let targets ← matching req.selects Prod.snd (probeRows heap t plan)
  if targets = [] then .ok t
  else
    req.check (targets.map Prod.snd)
    t.commit (do
      let before ← affectedDocs heap (targets.map Prod.fst)
      removeDocs env heap (t.specs env) targets before (targets.map Prod.fst))

def execDeleteGeneric (t : Table H) (req : DeleteReq Doc) : Except String (Table H) := do
  let kept ← matching (fun doc => do
    let pass ← req.selects doc
    .ok !pass) id (t.docs heap)
  req.check kept
  rewriteTable env heap t kept

def execDelete (t : Table H) (req : DeleteReq Doc) : Except String (Table H) :=
  match req.plan with
  | some plan => execDeleteFast env heap t req plan
  | none => execDeleteGeneric env heap t req

structure MergeReq (Doc : Type) where
  /-- The new image of a row that a source row matches. -/
  update : UpdateReq Doc
  /-- The rows of the sources that match none. -/
  inserts : List Doc
  check : List (ℕ × Doc × Doc) → Except String Unit

def mergeInserts (t : Table H) : List Doc → WorkM H Unit :=
  forEach fun doc => do
    let loc ← liftHeap (heap.insert doc)
    reindexInsert env (t.specs env) doc loc

def execMerge (t : Table H) (req : MergeReq Doc) : Except String (Table H) := do
  let updates ← planUpdates req.update (t.rows heap)
  t.commit (do
    applyUpdates env heap (t.specs env) updates
    mergeInserts env heap t req.inserts
    let w ← read
    fromExcept (legacyCheck env t ((heap.live w.heap).map Prod.snd))
    fromExcept (req.check updates))

end Docsql.Index
