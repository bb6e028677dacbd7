import Docsql.Dml.Execute
import Docsql.EncodeRoundTrip
import Docsql.Index.ListHeap

/-!
# Tables of numbers

The smallest database a statement can be run on: a document is one number, a
table has the column of that number and no constraints.
-/

namespace Docsql.Dml

open Index (Table ListHeap listHeap Policy)
open Trigger (TriggerDef TriggerAction)

def numberEnv : Env ℕ where
  codec := rustDecimal
  get doc col := if col = "n" then some (.int (Int64.ofNat doc)) else none
  insert doc col v :=
    match v with
    | .int i => if col = "n" then i.toNatClampNeg else doc
    | _ => doc
  remove doc _ := doc
  objectKey doc := List.replicate doc 0
  jsonPathKey _ _ _ := none
  parsePred _ := none
  renameIdent text _ _ := text
  refuses _ _ := none
  fields _ := ["n"]
  objectKey_injective a b h := by simpa using congrArg List.length h

abbrev NumberSession := Session ℕ (ListHeap ℕ)

def numberTable (name : String) : Table (ListHeap ℕ) where
  tableMeta := ⟨name, ["n"], none, [], [], []⟩
  heap := ⟨[], List.nodup_nil⟩
  roots := []

/-- All tables are empty, and no transaction is open. -/
def emptySession : NumberSession where
  tables := numberTable
  dotted _ := false
  undo := none
  inTx := false
  referentialGuard := none
  record := {}

def numberCatalog (triggers : List (TriggerDef ℕ (Request ℕ (ListHeap ℕ))))
    (named : (triggers.map TriggerDef.name).Nodup) : Catalog ℕ (ListHeap ℕ) where
  tables := []
  triggers := triggers
  checkRow _ _ := .ok ()
  referentialDefault _ _ := .ok .null
  distinct := List.nodup_nil
  named := named

/-- `INSERT INTO t VALUES (n), ... RETURNING ...`. -/
def insertNumbers (ns : List ℕ) (returning : Option (List (ReturningItem ℕ))) :
    Request ℕ (ListHeap ℕ) :=
  .insert {
    rows := fun _ => .ok ns
    policy := .plain
    target := none
    assigned := []
    selects := fun _ _ _ => .ok true
    merge := fun _ old _ => .ok old
    checkDisplaced := fun _ _ _ => .ok ()
    checkFinal := fun _ _ _ => .ok ()
    returning := returning }

/-- A trigger for every event of a table, with an empty body. -/
def watching (name table : String) (before : Bool) : TriggerDef ℕ (Request ℕ (ListHeap ℕ)) where
  name := name
  table := table
  before := before
  insert := true
  delete := true
  update := true
  updateOf := none
  when := none
  body := []

end Docsql.Dml
