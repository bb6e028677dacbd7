import Mathlib.Tactic

/-!
# The replication buffer of an open transaction

Writes inside a transaction are buffered and go to the journal and the peers at
COMMIT.  The buffer follows the savepoints of the engine with a stack of marks
of its own (`TxPending` and `execute_sql_inner` of `lib.rs`, `savepoint`,
`release_savepoint` and `rollback_to_savepoint` of `catalog.rs`).  Stacks are
listed newest entry first.
-/

namespace Docsql.Cluster

/-- The stack from the newest entry of this name on. -/
def fromNewest {α : Type} (name : String) (stack : List (String × α)) : List (String × α) :=
  stack.dropWhile fun e => e.1 ≠ name

/-! ## The engine -/

structure Engine (S : Type) where
  db : S
  txSnapshot : Option S
  savepoints : List (String × S)

/-- Input or output errors: none, in the work of the statement, or in the final
sync of the log. -/
inductive Fault where
  | none
  | work
  | sync
deriving DecidableEq

inductive Request where
  | begin
  | commit
  | rollback (savepoint : Option String)
  | savepoint (name : String)
  | release (name : String)
  | write (sql : String)

namespace Engine

variable {S : Type}

def maxSavepoints : ℕ := 64

def beginTx (e : Engine S) : Except String Unit × Engine S :=
  match e.txSnapshot with
  | some _ => (.error "transaction already in progress", e)
  | none => (.ok (), { e with txSnapshot := some e.db })

/-- The transaction stays open where the log could not be synced. -/
def commit (fault : Fault) (e : Engine S) : Except String Unit × Engine S :=
  match e.txSnapshot with
  | none => (.error "no transaction in progress", e)
  | some _ =>
    if fault = .none then (.ok (), { e with txSnapshot := none, savepoints := [] })
    else (.error "sync failed", e)

def rollbackTx (fault : Fault) (e : Engine S) : Except String Unit × Engine S :=
  match e.txSnapshot with
  | none => (.error "no transaction in progress", e)
  | some snap =>
    match fault with
    | .work => (.error "restore failed", e)
    | .sync => (.error "sync failed", ⟨snap, none, []⟩)
    | .none => (.ok (), ⟨snap, none, []⟩)

def savepoint (name : String) (fault : Fault) (e : Engine S) : Except String Unit × Engine S :=
  if e.txSnapshot.isNone then (.error "SAVEPOINT requires an active transaction", e)
  else if maxSavepoints ≤ e.savepoints.length then
    (.error "too many savepoints (max 64); release or roll back some first", e)
  else if fault ≠ .none then (.error "baseline images failed", e)
  else (.ok (), { e with savepoints := (name, e.db) :: e.savepoints })

def releaseSavepoint (name : String) (e : Engine S) : Except String Unit × Engine S :=
  match fromNewest name e.savepoints with
  | [] => (.error s!"savepoint {name} does not exist", e)
  | _ :: older => (.ok (), { e with savepoints := older })

/-- The stack is cut before the pages are restored. -/
def rollbackToSavepoint (name : String) (fault : Fault) (e : Engine S) :
    Except String Unit × Engine S :=
  match fromNewest name e.savepoints with
  | [] => (.error s!"savepoint {name} does not exist", e)
  | (_, snap) :: older =>
    if fault = .none then (.ok (), { e with db := snap, savepoints := older })
    else (.error "restore failed", { e with savepoints := older })

/-- A write gives the text to forward where it fills in values, and changes
nothing if it fails. -/
def write (exec : String → S → Except String (Option String × S)) (sql : String) (e : Engine S) :
    Except String (Option String) × Engine S :=
  match exec sql e.db with
  | .ok (resolved, db) => (.ok resolved, { e with db := db })
  | .error msg => (.error msg, e)

def execute (exec : String → S → Except String (Option String × S)) (req : Request)
    (fault : Fault) (e : Engine S) : Except String (Option String) × Engine S :=
  let control (r : Except String Unit × Engine S) := (r.1.map fun _ => (none : Option String), r.2)
  match req with
  | .begin => control e.beginTx
  | .commit => control (e.commit fault)
  | .rollback none => control (e.rollbackTx fault)
  | .rollback (some name) => control (e.rollbackToSavepoint name fault)
  | .savepoint name => control (e.savepoint name fault)
  | .release name => control (e.releaseSavepoint name)
  | .write sql => e.write exec sql

end Engine

/-! ## The buffer -/

structure TxPending where
  writes : List String := []
  marks : List (String × ℕ) := []
  bytes : ℕ := 0

namespace TxPending

variable (p : TxPending)

def maxWrites : ℕ := 200000

def maxBytes : ℕ := 64 * 1024 * 1024

def checkRoom (len : ℕ) : Bool := p.writes.length < maxWrites ∧ p.bytes + len ≤ maxBytes

def push (sql : String) : TxPending :=
  { p with writes := p.writes ++ [sql], bytes := p.bytes + sql.utf8ByteSize }

def mark (name : String) : TxPending := { p with marks := (name, p.writes.length) :: p.marks }

def rollbackTo (name : String) : TxPending :=
  match fromNewest name p.marks with
  | [] => p
  | (_, len) :: older =>
    let writes := p.writes.take len
    ⟨writes, older, (writes.map String.utf8ByteSize).sum⟩

/-- The mark itself stays on the stack. -/
def release (name : String) : TxPending :=
  match fromNewest name p.marks with
  | [] => p
  | marks => { p with marks := marks }

def takeWrites : List String × TxPending := (p.writes, {})

end TxPending

/-! ## The connection that owns the transaction -/

/-- `forwarded`: what went to the journal and the peers. -/
structure Server (S : Type) where
  engine : Engine S
  pending : TxPending := {}
  owner : Bool := false
  forwarded : List String := []

namespace Server

variable {S : Type}

/-- The end of a transaction, where the engine has closed it. -/
def settle (req : Request) (ok : Bool) (s : Server S) : Server S :=
  match req with
  | .commit =>
    if s.engine.txSnapshot.isSome then s
    else if ok then
      let drained := s.pending.takeWrites
      { s with owner := false, pending := drained.2, forwarded := s.forwarded ++ drained.1 }
    else { s with owner := false, pending := {} }
  | .rollback none =>
    if s.engine.txSnapshot.isSome then s else { s with owner := false, pending := {} }
  | _ => s

/-- The bookkeeping of a statement that succeeded. -/
def record (req : Request) (resolved : Option String) (s : Server S) : Server S :=
  match req with
  | .begin => { s with owner := true }
  | .commit => s
  | .rollback none => s
  | .rollback (some name) => { s with pending := s.pending.rollbackTo name }
  | .savepoint name => { s with pending := s.pending.mark name }
  | .release name => { s with pending := s.pending.release name }
  | .write sql =>
    let forward := resolved.getD sql
    if s.engine.txSnapshot.isSome then { s with pending := s.pending.push forward }
    else { s with forwarded := s.forwarded ++ [forward] }

/-- The buffer has no room for this write. -/
def refuses (s : Server S) : Request → Bool
  | .write sql => s.owner && !s.pending.checkRoom sql.utf8ByteSize
  | _ => false

def handle (exec : String → S → Except String (Option String × S)) (s : Server S)
    (r : Request × Fault) : Server S :=
  if s.refuses r.1 then s
  else
    let out := s.engine.execute exec r.1 r.2
    let s := settle r.1 out.1.isOk { s with engine := out.2 }
    match out.1 with
    | .ok resolved => s.record r.1 resolved
    | .error _ => s

def run (exec : String → S → Except String (Option String × S)) (db : S)
    (requests : List (Request × Fault)) : Server S :=
  requests.foldl (handle exec) { engine := ⟨db, none, []⟩ }

end Server

end Docsql.Cluster
