import Mathlib.Logic.Function.Basic

/-!
# Statements of many connections on one engine

The engine has one transaction at a time, and its statements change the shared
tables at once.  A connection runs a statement as a sequence of sections, each
under one lock: `write_order`, the owner of the transaction, or the engine.
Any other connection may take its next section in between.
-/

namespace Docsql.Isolation

/-- What statements do with the tables. -/
structure Engine (D R Q W : Type) where
  query : Q → D → R
  write : W → D → D × R

structure Database (D : Type) where
  tables : D
  /-- What `ROLLBACK` restores. -/
  txSnapshot : Option D

def Database.inTransaction {D : Type} (db : Database D) : Bool := db.txSnapshot.isSome

inductive Stmt (Q W : Type)
  | read (q : Q)
  | write (w : W)
  | replicated (w : W)
  | begin
  | commit
  | rollback

variable {C D R Q W : Type}

namespace Stmt

/-- The `conn` argument: none for replicated statements. -/
def conn (c : C) : Stmt Q W → Option C
  | replicated _ => none
  | _ => some c

def ordered : Stmt Q W → Bool
  | read _ => false
  | _ => true

/-- Transaction control that only the owner may use. -/
def control : Stmt Q W → Bool
  | commit | rollback => true
  | _ => false

end Stmt

/-- What a connection does next. -/
inductive Phase (Q W : Type)
  | idle
  | received (s : Stmt Q W)
  | eligible (q : Q)
  | arrived (s : Stmt Q W)
  | looping (s : Stmt Q W)
  | polling (s : Stmt Q W)
  | sampled (s : Stmt Q W) (inTx : Bool)
  | cleared (s : Stmt Q W)
  | executed (s : Stmt Q W) (ok inTx : Bool)
  | finishing (next : Option (Stmt Q W))
  | closing
  | closingOrdered
  | closingOwned
  | closingReleased
  | closingDone
  | closed

/-- The phases of a connection that holds `write_order`. -/
def Phase.ordered : Phase Q W → Bool
  | polling s | sampled s _ | cleared s => s.ordered
  | executed .. | finishing _ => true
  | closingOrdered | closingOwned | closingReleased | closingDone => true
  | _ => false

inductive Event (C D R Q W : Type)
  | read (c : C) (q : Q) (reply : R)
  | wrote (conn : Option C) (w : W) (reply : R)
  | began (c : C)
  | committed (c : C)
  | rolledBack (c : C)
  /-- A `ROLLBACK` that failed in its undo replay. -/
  | torn (c : C) (tables : D)

structure Server (C D R Q W : Type) where
  db : Database D
  txOwner : Option C
  writeOrder : Option C
  phase : C → Phase Q W
  history : List (Event C D R Q W)

/-- What a section meets besides the locks. -/
structure Outside (D : Type) where
  /-- The text is one plain read that the user may run. -/
  eligible : Bool
  /-- The deadline has not passed. -/
  inTime : Bool
  /-- The log is made durable. -/
  synced : Bool
  /-- The tables an undo replay leaves when it fails. -/
  torn : Option D

inductive Step (C D Q W : Type)
  | receive (c : C) (s : Stmt Q W)
  /-- An error before the statement runs: a denial, a fence, a full buffer. -/
  | refuse (c : C)
  | disconnect (c : C)
  /-- The connection takes its next section. -/
  | advance (c : C) (o : Outside D)

variable [DecidableEq C]

namespace Server

variable (E : Engine D R Q W) (σ : Server C D R Q W) (c : C)

def enter (p : Phase Q W) : Server C D R Q W := { σ with phase := Function.update σ.phase c p }

def log (e : Event C D R Q W) : Server C D R Q W := { σ with history := σ.history ++ [e] }

def classifyReadEligible (o : Outside D) : Stmt Q W → Server C D R Q W
  | .read q =>
    if σ.txOwner.isSome then σ.enter c (.arrived (.read q))
    else if o.eligible then σ.enter c (.eligible q)
    else σ.enter c (.arrived (.read q))
  | s => σ.enter c (.arrived s)

/-- The view is taken under the engine's read lock, and the query runs over it. -/
def executeReadSql (q : Q) : Server C D R Q W :=
  (σ.log (.read c q (E.query q σ.db.tables))).enter c .idle

def foreignControl (s : Stmt Q W) : Server C D R Q W :=
  if s.control && σ.txOwner.any (fun owner => owner ≠ c) then σ.enter c .idle
  else σ.enter c (.looping s)

/-- A read of the owner runs at once; other reads wait and check, and the rest takes
`write_order` first. -/
def queue (s : Stmt Q W) : Server C D R Q W :=
  if s.ordered then
    match σ.writeOrder with
    | none => { σ with writeOrder := some c }.enter c (.polling s)
    | some _ => σ
  else if σ.txOwner = some c then σ.enter c (.cleared s)
  else σ.enter c (.polling s)

/-- A replicated write waits for any transaction to end. -/
def busy (inTx : Bool) : Stmt Q W → Bool
  | .replicated _ => inTx
  | s => inTx && decide (σ.txOwner ≠ s.conn c)

def compare (o : Outside D) (s : Stmt Q W) (inTx : Bool) : Server C D R Q W :=
  if σ.busy c inTx s then
    if s.ordered then σ.enter c (.finishing (if o.inTime then some s else none))
    else σ.enter c .idle
  else σ.enter c (.cleared s)

/-- The section under the engine's write lock. -/
def execute (o : Outside D) : Stmt Q W → Server C D R Q W
  | .read q =>
    if σ.db.inTransaction && decide (σ.txOwner ≠ some c) then σ.enter c .idle
    else (σ.log (.read c q (E.query q σ.db.tables))).enter c .idle
  | .write w =>
    ({ σ with db := { σ.db with tables := (E.write w σ.db.tables).1 } }.log
      (.wrote (some c) w (E.write w σ.db.tables).2)).enter c
        (.executed (.write w) true σ.db.inTransaction)
  | .replicated w =>
    ({ σ with db := { σ.db with tables := (E.write w σ.db.tables).1 } }.log
      (.wrote none w (E.write w σ.db.tables).2)).enter c
        (.executed (.replicated w) true σ.db.inTransaction)
  | .begin =>
    if σ.db.inTransaction then σ.enter c (.executed .begin false true)
    else ({ σ with db := ⟨σ.db.tables, some σ.db.tables⟩ }.log (.began c)).enter c
      (.executed .begin true true)
  | .commit =>
    if σ.db.inTransaction then
      -- The log is synced before the transaction is torn down.
      if o.synced then
        ({ σ with db := ⟨σ.db.tables, none⟩ }.log (.committed c)).enter c
          (.executed .commit true false)
      else σ.enter c (.executed .commit false true)
    else σ.enter c (.executed .commit false false)
  | .rollback =>
    match σ.db.txSnapshot, o.torn with
    | none, _ => σ.enter c (.executed .rollback false false)
    | some d, none =>
      ({ σ with db := ⟨d, none⟩ }.log (.rolledBack c)).enter c (.executed .rollback true false)
    | some d, some tables =>
      ({ σ with db := ⟨tables, some d⟩ }.log (.torn c tables)).enter c
        (.executed .rollback false true)

/-- The section that records the owner. -/
def bookkeep (o : Outside D) (s : Stmt Q W) (ok inTx : Bool) : Server C D R Q W :=
  match s with
  | .begin =>
    if ok then { σ with txOwner := some c }.enter c (.finishing none)
    else if decide (σ.txOwner ≠ some c) && o.inTime then σ.enter c (.finishing (some .begin))
    else σ.enter c (.finishing none)
  | .commit | .rollback =>
    if inTx then σ.enter c (.finishing none)
    else { σ with txOwner := none }.enter c (.finishing none)
  | _ => σ.enter c (.finishing none)

def finish (next : Option (Stmt Q W)) : Server C D R Q W :=
  { σ with writeOrder := none }.enter c (next.elim .idle .looping)

def closeOrder : Server C D R Q W :=
  match σ.writeOrder with
  | none => { σ with writeOrder := some c }.enter c .closingOrdered
  | some _ => σ

def closeCheck : Server C D R Q W :=
  if σ.txOwner = some c then σ.enter c .closingOwned else σ.enter c .closingDone

def closeRelease : Server C D R Q W := { σ with txOwner := none }.enter c .closingReleased

/-- `rollback_or_abort`: the process does not outlive a rollback that fails. -/
def closeRollback : Server C D R Q W :=
  match σ.db.txSnapshot with
  | none => σ.enter c .closingDone
  | some d => ({ σ with db := ⟨d, none⟩ }.log (.rolledBack c)).enter c .closingDone

def closeFinish : Server C D R Q W := { σ with writeOrder := none }.enter c .closed

def advance (o : Outside D) : Server C D R Q W :=
  match σ.phase c with
  | .received s => σ.classifyReadEligible c o s
  | .eligible q => σ.executeReadSql E c q
  | .arrived s => σ.foreignControl c s
  | .looping s => σ.queue c s
  | .polling s => σ.enter c (.sampled s σ.db.inTransaction)
  | .sampled s inTx => σ.compare c o s inTx
  | .cleared s => σ.execute E c o s
  | .executed s ok inTx => σ.bookkeep c o s ok inTx
  | .finishing next => σ.finish c next
  | .closing => σ.closeOrder c
  | .closingOrdered => σ.closeCheck c
  | .closingOwned => σ.closeRelease c
  | .closingReleased => σ.closeRollback c
  | .closingDone => σ.closeFinish c
  | .idle | .closed => σ

end Server

def step (E : Engine D R Q W) (σ : Server C D R Q W) : Step C D Q W → Server C D R Q W
  | .receive c s =>
    match σ.phase c with
    | .idle => σ.enter c (.received s)
    | _ => σ
  | .refuse c =>
    match σ.phase c with
    | .received _ | .eligible _ | .arrived _ => σ.enter c .idle
    | _ => σ
  | .disconnect c =>
    match σ.phase c with
    | .idle => σ.enter c .closing
    | _ => σ
  | .advance c o => σ.advance E c o

def Server.init (tables : D) : Server C D R Q W :=
  ⟨⟨tables, none⟩, none, none, fun _ => .idle, []⟩

def run (E : Engine D R Q W) (tables : D) (steps : List (Step C D Q W)) : Server C D R Q W :=
  steps.foldl (step E) (.init tables)

end Docsql.Isolation

/-!
# One transaction at a time, seen by its owner only

What the engine is for: a transaction has an image of its own, the committed
tables are everybody else's, and what is written outside the transaction is
committed at once.
-/

namespace Docsql.Isolation

variable {C D R Q W : Type}

structure Ideal (C D : Type) where
  committed : D
  /-- The owner of the open transaction and its image. -/
  own : Option (C × D)

namespace Ideal

def owner (i : Ideal C D) : Option C := i.own.map Prod.fst

def tables (i : Ideal C D) : D := i.own.elim i.committed Prod.snd

/-- The engine that holds the image and can restore the committed tables. -/
def database (i : Ideal C D) : Database D := ⟨i.tables, i.own.map fun _ => i.committed⟩

variable [DecidableEq C]

def seenBy (i : Ideal C D) (conn : Option C) : D :=
  match i.own with
  | some (c, d) => if conn = some c then d else i.committed
  | none => i.committed

def write (i : Ideal C D) (conn : Option C) (f : D → D) : Ideal C D :=
  match i.own with
  | some (c, d) =>
    if conn = some c then ⟨i.committed, some (c, f d)⟩ else ⟨f i.committed, some (c, d)⟩
  | none => ⟨f i.committed, none⟩

def apply (E : Engine D R Q W) (i : Ideal C D) : Event C D R Q W → Ideal C D
  | .read .. => i
  | .wrote conn w _ => i.write conn fun d => (E.write w d).1
  | .began c => ⟨i.committed, some (c, i.committed)⟩
  | .committed _ => ⟨i.tables, none⟩
  | .rolledBack _ => ⟨i.committed, none⟩
  | .torn c d => ⟨i.committed, some (c, d)⟩

/-- The event is one of the ideal engine, and its reply the one given there. -/
def Allows (E : Engine D R Q W) (i : Ideal C D) : Event C D R Q W → Prop
  | .read c q reply => reply = E.query q (i.seenBy (some c))
  | .wrote conn w reply => reply = (E.write w (i.seenBy conn)).2
  | .began _ => i.owner = none
  | .committed c | .rolledBack c | .torn c _ => i.owner = some c

end Ideal

variable [DecidableEq C]

/-- The ideal engine after a history. -/
def replay (E : Engine D R Q W) (tables : D) (history : List (Event C D R Q W)) : Ideal C D :=
  history.foldl (Ideal.apply E) ⟨tables, none⟩

namespace Ideal

variable {E : Engine D R Q W} {i : Ideal C D} {c : C} {conn : Option C}

omit [DecidableEq C] in
theorem inTransaction_database : i.database.inTransaction = i.owner.isSome := by
  simp [database, Database.inTransaction, owner]

omit [DecidableEq C] in
theorem owner_eq_none : i.owner = none ↔ i.own = none := Option.map_eq_none_iff

omit [DecidableEq C] in
theorem owner_eq_some : i.owner = some c ↔ ∃ d, i.own = some (c, d) := by
  simp [owner]

theorem seenBy_of_owner (h : i.owner = none ∨ i.owner = conn) : i.seenBy conn = i.tables := by
  obtain ⟨committed, own⟩ := i
  cases own with
  | none => rfl
  | some p =>
    rcases h with h | h
    · cases h
    · exact if_pos h.symm

/-- Everybody but the owner sees the committed tables. -/
theorem seenBy_of_ne (h : i.owner ≠ conn) : i.seenBy conn = i.committed := by
  obtain ⟨committed, own⟩ := i
  cases own with
  | none => rfl
  | some p => exact if_neg fun heq => h heq.symm

theorem write_of_owner (f : D → D) (h : i.owner = none ∨ i.owner = conn) :
    (i.write conn f).owner = i.owner ∧
      (i.write conn f).database = { i.database with tables := f i.database.tables } := by
  obtain ⟨committed, own⟩ := i
  cases own with
  | none => exact ⟨rfl, rfl⟩
  | some p =>
    rcases h with h | h
    · cases h
    · have hconn : conn = some p.1 := h.symm
      simp [write, hconn, owner, database, tables]

/-- Only its own statements and its end change what a transaction is given back. -/
theorem write_of_ne (f : D → D) (h : i.owner ≠ conn) :
    (i.write conn f).committed = f i.committed := by
  obtain ⟨committed, own⟩ := i
  cases own with
  | none => rfl
  | some p =>
    have hconn : ¬conn = some p.1 := fun heq => h heq.symm
    simp [write, hconn]

end Ideal

theorem replay_snoc (E : Engine D R Q W) (tables : D) (history : List (Event C D R Q W))
    (e : Event C D R Q W) :
    replay E tables (history ++ [e]) = (replay E tables history).apply E e :=
  List.foldl_append

end Docsql.Isolation
