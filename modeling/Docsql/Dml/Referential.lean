import Docsql.Dml.Session

/-!
# Referential plans

The plan of `referential.rs`: the rows an UPDATE or DELETE changes in its own
table, and those that the actions of foreign keys change after it, table by
table.  Rows are told apart by their encodings.
-/

namespace Docsql.Dml

variable {Doc H : Type} (env : Env Doc)

def sameValue (a b : Value) : Bool := cmpValues a b == .eq

/-! ## The effect on one table -/

/-- Rows to delete, and rows to update with their new images. -/
structure ReferentialDelta (Doc : Type) where
  deletes : List Doc := []
  updates : List (Doc × Doc) := []

namespace ReferentialDelta

variable (d : ReferentialDelta Doc)

def isEmpty : Bool := d.deletes.isEmpty && d.updates.isEmpty

def deleteKeys : List (List UInt8) := d.deletes.map env.objectKey

def updateKeys : List (List UInt8) := d.updates.map fun p => env.objectKey p.1

/-- A row to delete is no longer one to update. -/
def stageDelete (doc : Doc) : ReferentialDelta Doc :=
  if env.objectKey doc ∈ d.deleteKeys env then d
  else
    { deletes := d.deletes ++ [doc]
      updates := d.updates.filter fun p => env.objectKey p.1 ≠ env.objectKey doc }

/-- The first update of a row goes on to write this column. -/
def composeFirst (key : List UInt8) (col : String) (val : Value) :
    List (Doc × Doc) → List (Doc × Doc)
  | [] => []
  | p :: ps =>
    if env.objectKey p.1 = key then (p.1, env.insert p.2 col val) :: ps
    else p :: composeFirst key col val ps

/-- The update of a row that has one already is composed with it.  The result
says whether anything changed. -/
def stageUpdate (doc : Doc) (col : String) (val : Value) :
    Except String (ReferentialDelta Doc × Bool) :=
  if env.objectKey doc ∈ d.deleteKeys env then .ok (d, false)
  else
    match d.updates.find? fun p => env.objectKey p.1 == env.objectKey doc with
    | some pair =>
      let cur := (env.get pair.2 col).getD .null
      let originally := (env.get pair.1 col).getD .null
      if sameValue cur val then .ok (d, false)
      else if !sameValue cur originally then
        .error (s!"conflicting referential actions on column {col}: the statement and a " ++
          "cascaded action both assign it")
      else
        .ok ({ d with updates := composeFirst env (env.objectKey doc) col val d.updates }, true)
    | none => .ok ({ d with updates := d.updates ++ [(doc, env.insert doc col val)] }, true)

/-- What becomes of a row: nothing, a new image, or it is deleted. -/
def fate (doc : Doc) : Option (Option Doc) :=
  if env.objectKey doc ∈ d.deleteKeys env then some none
  else (d.updates.find? fun p => env.objectKey p.1 == env.objectKey doc).map fun p => some p.2

def finalDocs (pre : List Doc) : List Doc :=
  pre.filterMap fun doc => (d.fate env doc).getD (some doc)

end ReferentialDelta

/-! ## Events of a parent table -/

/-- Values of the referenced column that go with the deleted rows. -/
def lostValues (refCol : String) (final : List Doc) : List Doc → List Value → List Value
  | [], lost => lost
  | doc :: docs, lost =>
    match Index.nonNull (env.get doc refCol) with
    | none => lostValues refCol final docs lost
    | some v =>
      let survives := final.any fun f => (env.get f refCol).any fun fv => sameValue fv v
      if survives || lost.any (fun l => sameValue l v) then lostValues refCol final docs lost
      else lostValues refCol final docs (lost ++ [v])

/-- Old and new value of the referenced column in the updated rows. -/
def valueMap (parent refCol : String) :
    List (Doc × Doc) → List (Value × Value) → Except String (List (Value × Value))
  | [], map => .ok map
  | (old, new) :: pairs, map =>
    match Index.nonNull (env.get old refCol), env.get new refCol with
    | some ov, some nv =>
      if sameValue ov nv then valueMap parent refCol pairs map
      else
        match map.find? fun m => sameValue m.1 ov with
        | some m =>
          if sameValue m.2 nv then valueMap parent refCol pairs map
          else
            .error ("cannot cascade FOREIGN KEY update: parent key value in " ++
              s!"{parent}.{refCol} changes to multiple values in one statement")
        | none => valueMap parent refCol pairs (map ++ [(ov, nv)])
    | _, _ => valueMap parent refCol pairs map

/-! ## Actions on a child table -/

/-- The rows of a child with a value that refers to one of these. -/
def hits (col : String) (refers : Value → Bool) (docs : List Doc) : List Doc :=
  docs.filter fun doc => (Index.nonNull (env.get doc col)).any refers

def restrictMessage (child parent : String) (fk : ForeignKey) : String :=
  s!"FOREIGN KEY constraint failed: {child}.{fk.col} references {parent}.{fk.refCol}; " ++
    "delete/update the child rows first"

/-- Updates are tried in order until one changes something. -/
def stageFirst (col : String) (val : Doc → Value) :
    List Doc → ReferentialDelta Doc → Except String (ReferentialDelta Doc × Bool)
  | [], d => .ok (d, false)
  | doc :: docs, d => do
    let (d', changed) ← d.stageUpdate env doc col (val doc)
    if changed then .ok (d', true) else stageFirst col val docs d'

section Actions

variable (c : Catalog Doc H) (child parent : String) (fk : ForeignKey) (pre : List Doc)

/-- What SET NULL and SET DEFAULT write. -/
def actionValue : FkAction → Except String Value
  | .setDefault => c.referentialDefault child fk.col
  | _ => .ok .null

def restrict (refers : Value → Bool) (d : ReferentialDelta Doc) :
    Except String (ReferentialDelta Doc × Bool) :=
  if (hits env fk.col refers (d.finalDocs env pre)).isEmpty then .ok (d, false)
  else .error (restrictMessage child parent fk)

def onDeleteAction (lost : List Value) (d : ReferentialDelta Doc) :
    Except String (ReferentialDelta Doc × Bool) :=
  let refers := fun v => lost.any fun l => sameValue v l
  match fk.onDelete with
  | .none => restrict env child parent fk pre refers d
  | .cascade =>
    match (hits env fk.col refers pre).find? fun doc =>
        env.objectKey doc ∉ d.deleteKeys env with
    | some doc => .ok (d.stageDelete env doc, true)
    | none => .ok (d, false)
  | action => do
    let val ← actionValue c child fk action
    stageFirst env fk.col (fun _ => val) (hits env fk.col refers pre) d

def onUpdateAction (lostOld : List (Value × Value)) (d : ReferentialDelta Doc) :
    Except String (ReferentialDelta Doc × Bool) :=
  let newOf := fun v => lostOld.find? fun m => sameValue v m.1
  let refers := fun v => (newOf v).isSome
  match fk.onUpdate with
  | .none => restrict env child parent fk pre refers d
  | .cascade =>
    let val := fun doc => (((env.get doc fk.col).bind newOf).map Prod.snd).getD .null
    stageFirst env fk.col val (hits env fk.col refers pre) d
  | action => do
    let val ← actionValue c child fk action
    stageFirst env fk.col (fun _ => val) (hits env fk.col refers pre) d

end Actions

/-! ## The plan -/

abbrev Deltas (Doc : Type) := String → Option (ReferentialDelta Doc)

section Plan

variable (c : Catalog Doc H) (pre : String → List Doc)

/-- Deletes come first. -/
def onLost (parent child : String) (fk : ForeignKey) (lost : List Value)
    (d : ReferentialDelta Doc) : Except String (ReferentialDelta Doc × Bool) :=
  if lost.isEmpty then .ok (d, false) else onDeleteAction env c child parent fk (pre child) lost d

/-- One foreign key of a child, once its parent has changed. -/
def actOn (parent child : String) (fk : ForeignKey) (deltas : Deltas Doc) :
    Except String (Deltas Doc × Bool) := do
  let d := (deltas parent).getD {}
  let final := d.finalDocs env (pre parent)
  let lost := lostValues env fk.refCol final d.deletes []
  let map ← valueMap env parent fk.refCol d.updates []
  if lost.isEmpty && map.isEmpty then .ok (deltas, false)
  else
    let childDelta := (deltas child).getD {}
    let (childDelta, changed) ← onLost env c pre parent child fk lost childDelta
    if changed || map.isEmpty then .ok (Function.update deltas child (some childDelta), changed)
    else
      let survives := fun v => final.any fun f =>
        (env.get f fk.refCol).any fun fv => sameValue fv v
      let lostOld := map.filter fun m => !survives m.1
      let (childDelta, changed) ←
        onUpdateAction env c child parent fk (pre child) lostOld childDelta
      .ok (Function.update deltas child (some childDelta), changed)

/-- The tables that have a delta. -/
def affected (deltas : Deltas Doc) : List String :=
  (c.tables.map Prod.fst).filter fun t => (deltas t).isSome

/-- The foreign keys a pass looks at, in its order. -/
def references (parents : List String) : List (String × String × ForeignKey) :=
  parents.flatMap fun parent => c.tables.flatMap fun t =>
    (t.2.filter fun fk => fk.refTable = parent).map fun fk => (parent, t.1, fk)

/-- A pass ends with the first change. -/
def pass : List (String × String × ForeignKey) → Deltas Doc → Except String (Deltas Doc × Bool)
  | [], deltas => .ok (deltas, false)
  | (parent, child, fk) :: rest, deltas => do
    let (deltas, changed) ← actOn env c pre parent child fk deltas
    if changed then .ok (deltas, true) else pass rest deltas

def passes : ℕ → Deltas Doc → Except String (Deltas Doc)
  | 0, _ => .error "referential cascade did not converge (over 32 passes)"
  | left + 1, deltas => do
    let (deltas, changed) ← pass env c pre (references c (affected c deltas)) deltas
    if changed then passes left deltas else .ok deltas

def maxFkActionPasses : ℕ := 32

/-- The parents of an updated row have to exist in the final state. -/
def checkParentsOf (deltas : Deltas Doc) (table : String) (new : Doc) : Except String Unit :=
  (c.foreignKeys table).forM fun fk =>
    match Index.nonNull (env.get new fk.col) with
    | none => .ok ()
    | some v =>
      let final := ((deltas fk.refTable).getD {}).finalDocs env (pre fk.refTable)
      if final.any fun p => (env.get p fk.refCol).any fun pv => sameValue pv v then .ok ()
      else
        .error (s!"FOREIGN KEY constraint failed: {table}.{fk.col} references " ++
          s!"{fk.refTable}.{fk.refCol}")

/-- The validations over the staged plan. -/
def checkDelta (tables : Tables H) (deltas : Deltas Doc) (table : String) : Except String Unit := do
  let d := (deltas table).getD {}
  if d.updates.isEmpty then .ok ()
  else
    d.updates.forM fun p => do
      c.checkRow table p.2
      checkParentsOf env c pre deltas table p.2
    Index.checkUnique env.toEnv (tables table).tableMeta (d.finalDocs env (pre table))

/-- The tables to apply: the origin, then those of its closure that change. -/
def planOrder (origin : String) (deltas : Deltas Doc) : List String :=
  (origin :: (c.referentialClosureOf origin).filter (· ≠ origin)).filter fun t =>
    match deltas t with
    | some d => !d.isEmpty
    | none => t = origin

/-- The delta of the statement itself. -/
def baseDelta (deletes : List Doc) (updates : List (Doc × Doc)) : ReferentialDelta Doc :=
  let d := deletes.foldl (fun (d : ReferentialDelta Doc) doc => d.stageDelete env doc) {}
  { d with updates := d.updates ++ updates }

/-- `plan_referential_actions`. -/
def planReferentialActions (tables : Tables H) (origin : String) (deletes : List Doc)
    (updates : List (Doc × Doc)) : Except String (List String × Deltas Doc) := do
  let base := Function.update (fun _ => none) origin (some (baseDelta env deletes updates))
  let deltas ← passes env c pre maxFkActionPasses base
  (affected c deltas).forM (checkDelta env c pre tables deltas)
  .ok (planOrder c origin deltas, deltas)

end Plan

end Docsql.Dml
