import Docsql.Encode
import Docsql.ValueOrder
import Docsql.Lib.StateExcept
import Docsql.Heap.Rewrite

/-!
# Definitions of indexes

The part of a table's catalog entry that says which trees it has and what their
keys are: `TableMeta` and `IndexDef` of `types.rs`, `IdxSpec` and the key
extraction of `probe.rs`.  Trees of constraints and of single-column indexes are
filed under the column, all others under the name of the index.
-/

namespace Docsql.Index

structure IndexDef where
  name : String
  columns : List String
  unique : Bool
  path : Option String
  pred : Option String
deriving DecidableEq

/-- The fields the trees depend on. -/
structure TableMeta where
  name : String
  columns : List String
  primaryKey : Option String
  unique : List String
  constraintUnique : List String
  indexDefs : List IndexDef
deriving DecidableEq

/-- Documents, expressions and limits as the engine has them. -/
structure Env (Doc : Type) where
  codec : DecimalCodec
  get : Doc → String → Option Value
  insert : Doc → String → Value → Doc
  remove : Doc → String → Doc
  objectKey : Doc → List UInt8
  /-- `json_path_key`: column, then path. -/
  jsonPathKey : Doc → String → String → Option Value
  /-- `parse_expr_text`, then whether `eval_expr` gives TRUE. -/
  parsePred : String → Option (Doc → Except String Bool)
  /-- `rename_ident_in_text`: text, old name, new name. -/
  renameIdent : String → String → String → String
  /-- Why a tree does not take a key: its size, or page ids running out. -/
  refuses : List (Value × ℕ) → Value → Option String

variable {Doc : Type}

/-- The map key under which the tree of a definition is filed. -/
def IndexDef.rootKey (d : IndexDef) : String :=
  if d.path.isSome ∨ 1 < d.columns.length ∨ d.pred.isSome then d.name
  else d.columns.headD ""

namespace TableMeta

variable (m : TableMeta)

/-- A column as the messages of constraints name it. -/
def qual (col : String) : String := if m.name = "" then col else m.name ++ "." ++ col

/-- The columns with a PRIMARY KEY or UNIQUE constraint. -/
def constraintCols : List String := m.primaryKey.toList ++ m.unique

def defNamed (name : String) : Option IndexDef := m.indexDefs.find? fun d => d.name = name

/-- The columns of the tree under this key, as far as the names tell. -/
def indexColumnsOf (rootKey : String) : List String :=
  match m.defNamed rootKey with
  | some d => d.columns
  | none =>
    if rootKey ∈ m.columns ∨ m.primaryKey = some rootKey ∨ rootKey ∈ m.unique then [rootKey]
    else []

def rootKeyUnique (rootKey : String) : Bool :=
  if m.primaryKey = some rootKey ∨ rootKey ∈ m.unique then true
  else m.indexDefs.any fun d => d.name = rootKey ∧ d.unique

end TableMeta

/-! ## Keys of documents -/

structure IdxSpec (Doc : Type) where
  rootKey : String
  cols : List String
  unique : Bool
  path : Option String
  pred : Option (Doc → Except String Bool)

def nonNull : Option Value → Option Value
  | some .null => none
  | v => v

variable (env : Env Doc)

/-- `None` where a key column is missing or NULL. -/
def indexKeyOf (doc : Doc) : List String → Option Value
  | [] => none
  | [col] => nonNull (env.get doc col)
  | cols => (cols.mapM fun col => nonNull (env.get doc col)).map Value.array

def indexKeyOfSpec (doc : Doc) (spec : IdxSpec Doc) : Option Value :=
  match spec.path with
  | some p => env.jsonPathKey doc (spec.cols.headD "") p
  | none => indexKeyOf env doc spec.cols

/-- A document without a predicate to pass qualifies. -/
def qualifies (doc : Doc) (spec : IdxSpec Doc) : Except String Bool :=
  match spec.pred with
  | some p => p doc
  | none => .ok true

/-- What the engine takes the tree under this key to be. -/
def specOf (m : TableMeta) (rootKey : String) : IdxSpec Doc where
  rootKey := rootKey
  cols := m.indexColumnsOf rootKey
  unique := m.rootKeyUnique rootKey
  path := (m.defNamed rootKey).bind IndexDef.path
  pred := ((m.defNamed rootKey).bind IndexDef.pred).bind env.parsePred

/-- Trees without a column list are left alone. -/
def idxSpecs (m : TableMeta) (rootKeys : List String) : List (IdxSpec Doc) :=
  (rootKeys.filter fun k => m.indexColumnsOf k ≠ []).map (specOf env m)

/-! ## Uniqueness of a whole set of documents -/

/-- The encodings of a column, NULL and missing values apart. -/
def columnKeys (col : String) : List Doc → Except String (List (List UInt8))
  | [] => .ok []
  | doc :: docs => do
    let rest ← columnKeys col docs
    match nonNull (env.get doc col) with
    | none => .ok rest
    | some v =>
      match encode env.codec v with
      | .ok bytes => .ok (bytes :: rest)
      | .error _ => .error "encode"

/-- Duplicates are looked for among the encodings. -/
def checkUnique (m : TableMeta) (docs : List Doc) : Except String Unit :=
  m.constraintCols.forM fun col => do
    let keys ← columnKeys env col docs
    if keys.Nodup then .ok () else .error ("UNIQUE constraint failed: " ++ m.qual col)

end Docsql.Index

/-!
# Documents and trees of a table

The heap a statement works on is given by its calls and by what they do to the
documents and their locators; a tree is the list of its entries.  The functions
that keep the two together are those of `probe.rs` and `build_trees`.
-/

namespace Docsql.Index

open StateExcept (read update fromExcept forEach)
open Heap (applyMoves ReplaceOutcome unpackLoc)

/-- Entries with their locators after a call that reports moves. -/
def carry {α : Type} (gone : List ℕ) (moves : List (ℕ × ℕ)) (live : List (ℕ × α)) :
    List (ℕ × α) :=
  (live.filter fun e => e.1 ∉ gone).map fun e => (applyMoves moves e.1, e.2)

/-- Moves that can be followed one by one: each starts at another locator, none
ends where a later one starts, and nothing that is gone moves. -/
structure Orderly (gone : List ℕ) (moves : List (ℕ × ℕ)) : Prop where
  starts : (moves.map Prod.fst).Nodup
  apart : moves.Pairwise fun a b => a.2 ≠ b.1
  kept : ∀ m ∈ moves, m.1 ∉ gone

/-- A document heap: its calls, and the documents it holds under their locators. -/
structure DocHeap (Doc H : Type) where
  live : H → List (ℕ × Doc)
  insert : Doc → H → Except String (ℕ × H)
  replace : ℕ → Doc → H → Except String (ReplaceOutcome × H)
  removeMany : List ℕ → H → Except String (List (ℕ × ℕ) × H)
  /-- All pages released. -/
  reset : H → H
  distinct : ∀ h, ((live h).map Prod.fst).Nodup
  insert_live : ∀ {doc h loc h'}, insert doc h = .ok (loc, h') →
    (live h').Perm ((loc, doc) :: live h)
  replace_live : ∀ {loc doc h out h'}, loc ∈ (live h).map Prod.fst →
    replace loc doc h = .ok (out, h') →
    (live h').Perm ((out.placed, doc) :: carry [loc] out.moved (live h)) ∧
      Orderly [loc] out.moved
  removeMany_live : ∀ {locs h moves h'}, (∀ loc ∈ locs, loc ∈ (live h).map Prod.fst) →
    removeMany locs h = .ok (moves, h') →
    (live h').Perm (carry locs moves (live h)) ∧ Orderly locs moves
  reset_live : ∀ h, live (reset h) = []

abbrev Tree := List (Value × ℕ)

/-- What a statement changes before it commits. -/
structure Work (H : Type) where
  heap : H
  roots : List (String × Tree)

abbrev WorkM (H : Type) := StateExcept (Work H) String

variable {Doc H : Type} (env : Env Doc)

/-! ## Trees -/

def sameKey (key : Value) (e : Value × ℕ) : Bool := cmpValues e.1 key == .eq

def sameEntry (key : Value) (loc : ℕ) (e : Value × ℕ) : Bool := sameKey key e && e.2 == loc

/-- `BTree::insert`, its errors through `index_err`. -/
def treeInsert (rootKey : String) (key : Value) (loc : ℕ) (unique : Bool) (t : Tree) :
    Except String Tree :=
  if unique = true ∧ t.any (sameKey key) = true then
    .error ("UNIQUE constraint failed: " ++ rootKey)
  else
    match env.refuses t key with
    | some msg => .error ("index error on " ++ rootKey ++ ": " ++ msg)
    | none => .ok (t ++ [(key, loc)])

def treeGet (t : Tree) (key : Value) : Option ℕ := (t.find? (sameKey key)).map Prod.snd

/-- Whether there was such an entry, and the tree without it. -/
def treeDeleteEntry (key : Value) (loc : ℕ) (t : Tree) : Bool × Tree :=
  (t.any (sameEntry key loc), t.eraseP (sameEntry key loc))

def treeOf (rootKey : String) : WorkM H Tree := do
  let w ← read
  match w.roots.lookup rootKey with
  | some t => return t
  | none => throw ("no tree " ++ rootKey)

def putTree (rootKey : String) (t : Tree) (roots : List (String × Tree)) :
    List (String × Tree) :=
  roots.map fun e => (e.1, if e.1 = rootKey then t else e.2)

def setTree (rootKey : String) (t : Tree) : WorkM H Unit :=
  update fun w => { w with roots := putTree rootKey t w.roots }

/-- An entry of the tree under this key. -/
def addEntry (rootKey : String) (key : Value) (loc : ℕ) (unique : Bool) : WorkM H Unit := do
  let t ← treeOf rootKey
  let t ← fromExcept (treeInsert env rootKey key loc unique t)
  setTree rootKey t

/-! ## Keeping the trees up to date -/

section Reindex

variable (specs : List (IdxSpec Doc))

/-- The entry follows its document; one that was not there is not added. -/
def repointTree (doc : Doc) (oldLoc newLoc : ℕ) (spec : IdxSpec Doc) : WorkM H Unit :=
  match indexKeyOfSpec env doc spec with
  | none => return ()
  | some key => do
    let t ← treeOf spec.rootKey
    let (removed, t) := treeDeleteEntry key oldLoc t
    if removed then do
      let t ← fromExcept (treeInsert env spec.rootKey key newLoc spec.unique t)
      setTree spec.rootKey t
    else setTree spec.rootKey t

def reindexRepoint (before : List (ℕ × Doc)) (oldLoc newLoc : ℕ) : WorkM H Unit :=
  match before.lookup oldLoc with
  | none => throw "index fixup: moved document not found"
  | some doc => forEach (repointTree env doc oldLoc newLoc) specs

def unindexTree (doc : Doc) (loc : ℕ) (spec : IdxSpec Doc) : WorkM H Unit :=
  match indexKeyOfSpec env doc spec with
  | none => return ()
  | some key => do
    let t ← treeOf spec.rootKey
    setTree spec.rootKey (treeDeleteEntry key loc t).2

def reindexRemove (doc : Doc) (loc : ℕ) : WorkM H Unit :=
  forEach (unindexTree env doc loc) specs

/-- A document that fails the predicate of a partial index stays out of it. -/
def indexTree (doc : Doc) (loc : ℕ) (spec : IdxSpec Doc) : WorkM H Unit := do
  let pass ← fromExcept (qualifies doc spec)
  if pass then
    match indexKeyOfSpec env doc spec with
    | none => return ()
    | some key => addEntry env spec.rootKey key loc spec.unique
  else return ()

def reindexInsert (doc : Doc) (loc : ℕ) : WorkM H Unit :=
  forEach (indexTree env doc loc) specs

end Reindex

/-! ## Building trees -/

def buildTree (spec : IdxSpec Doc) : List (ℕ × Doc) → Tree → Except String Tree
  | [], t => .ok t
  | (loc, doc) :: rest, t => do
    let pass ← qualifies doc spec
    if pass then
      match indexKeyOfSpec env doc spec with
      | none => buildTree spec rest t
      | some key => do
        let t ← treeInsert env spec.rootKey key loc spec.unique t
        buildTree spec rest t
    else buildTree spec rest t

def buildTrees (pairs : List (ℕ × Doc)) :
    List (IdxSpec Doc) → Except String (List (String × Tree))
  | [] => .ok []
  | spec :: specs => do
    let t ← buildTree env spec pairs []
    let rest ← buildTrees pairs specs
    .ok ((spec.rootKey, t) :: rest)

/-! ## Heap calls -/

section Calls

variable (heap : DocHeap Doc H)

def liftHeap {α : Type} (call : H → Except String (α × H)) : WorkM H α := fun w =>
  match call w.heap with
  | .ok (a, h) => (.ok a, { w with heap := h })
  | .error e => (.error e, w)

/-- The documents of one page. -/
def pageDocs (page : ℕ) : WorkM H (List (ℕ × Doc)) := do
  let w ← read
  return (heap.live w.heap).filter fun e => (unpackLoc e.1).1 = page

/-- The documents of the pages these locators are on. -/
def affectedDocs (locs : List ℕ) : WorkM H (List (ℕ × Doc)) := do
  let w ← read
  return (heap.live w.heap).filter fun e =>
    (unpackLoc e.1).1 ∈ locs.map fun loc => (unpackLoc loc).1

def insertAll : List Doc → H → Except String (List (ℕ × Doc) × H)
  | [], h => .ok ([], h)
  | doc :: docs, h => do
    let (loc, h) ← heap.insert doc h
    let (pairs, h) ← insertAll docs h
    .ok ((loc, doc) :: pairs, h)

end Calls

end Docsql.Index
