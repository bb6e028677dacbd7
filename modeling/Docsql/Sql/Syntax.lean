import Docsql.Value

/-!
# Queries

The part of the parser's syntax tree that a SELECT is made of.  Clauses that
neither the executor nor the walkers of `targets.rs` look for tables in are kept
as they were written.
-/

namespace Docsql.Sql

/-- Expressions without parts. -/
inductive Atom where
  | value (v : Value)
  | ident (name : String)
  | compound (qualifier : String) (rest : List String)
  | typed (text : String)

/-- The composite expressions every traversal treats alike. -/
inductive Kind where
  | isNull
  | isNotNull
  | nested
  | cast (type : String)
  | unary (op : String)
  | binary (op : String)
  | between (negated : Bool)
  | like (op : String)
  | inList (negated : Bool)
  /-- An operand, the conditions each with its result, a last result. -/
  | case (operand : Bool) (last : Bool)
  | substring

/-- A function call, less its arguments: the window is not traversed. -/
structure Call where
  name : String
  window : Option String := none

inductive JoinOp where
  | inner
  | left
  | right
  | full
  | cross
  | apply (outer : Bool)
  | other (text : String)

/-- What may stand behind the name of a table. -/
structure TableOpts where
  aliasName : Option String := none
  /-- Arguments: the name is one of a table function. -/
  args : Option String := none
  hints : List String := []

/-- LIMIT, FETCH and the clauses of a query that are refused. -/
structure Tail where
  limit : Option String := none
  fetch : Option String := none
  clauses : List String := []

/-- The names of the output columns, and the clauses without expressions. -/
structure SelectShape where
  items : List String := []
  clauses : List String := []

mutual

inductive Expr where
  | atom (a : Atom)
  | node (k : Kind) (kids : List Expr)
  | function (f : Call) (args : List Expr) (filter : Option Expr) (withinGroup : List Expr)
  | trim (e : Expr) (what : Option Expr) (characters : List Expr)
  | inSubquery (e : Expr) (q : Query) (negated : Bool)
  | subquery (q : Query)
  | exists (q : Query) (negated : Bool)
  /-- ANY and ALL. -/
  | quantified (any : Bool) (op : String) (left : Expr) (q : Query)
  | other (text : String) (kids : List Expr)

inductive Query where
  | mk (ctes : List Cte) (body : SetExpr) (orderBy : List Expr) (tail : Tail)

inductive Cte where
  | mk (name : String) (columns : List String) (query : Query)

inductive SetExpr where
  | select (s : Select)
  | query (q : Query)
  | setOp (op quantifier : String) (left right : SetExpr)
  | values (widths : List ℕ) (cells : List Expr)
  | other (text : String)

/-- `projection` holds the expressions of the items that have one. -/
inductive Select where
  | mk (sources : List TableWithJoins) (projection : List Expr) (selection : Option Expr)
      (qualify : Option Expr) (groupBy : List Expr) (having : Option Expr) (shape : SelectShape)

inductive TableWithJoins where
  | mk (relation : TableFactor) (joins : List Join)

inductive Join where
  | mk (relation : TableFactor) (op : JoinOp) (on : Option Expr)

inductive TableFactor where
  | table (name : List String) (opts : TableOpts)
  | derived (q : Query) (aliasName : Option String) (columns : List String)
  | nestedJoin (relation : TableFactor) (joins : List Join)
  /-- PIVOT and UNPIVOT. -/
  | pivot (table : TableFactor) (text : String)
  | other (text : String)

end

/-- A literal. -/
def Expr.lit (v : Value) : Expr := .atom (.value v)

/-- The last part of a table name. -/
def objName (name : List String) : String := name.getLast?.getD ""

/-- A table name with all its parts. -/
def qualified (name : List String) : String := String.intercalate "." name

/-- Rows by column. -/
abbrev Object := List (String × Value)

structure QueryResult where
  columns : List String
  rows : List (List Value)

/-! ## The catalog -/

/-- A stored view is its query, or why its text is none. -/
structure TableMeta where
  columns : List String
  view : Option (Except String Query) := none

abbrev Catalog := List (String × TableMeta)

namespace Catalog

def get (cat : Catalog) (name : String) : Option TableMeta := List.lookup name cat

def tableExists (cat : Catalog) (name : String) : Bool := (cat.get name).isSome

end Catalog

/-! ## Names of the outer scope -/

/-- The names and aliases of a table in FROM. -/
def factorNames : TableFactor → List String
  | .table name opts => objName name :: opts.aliasName.toList
  | _ => []

def fromListNames (sources : List TableWithJoins) : List String :=
  sources.flatMap fun t => match t with
    | .mk relation joins => factorNames relation ++ joins.flatMap fun j => match j with
      | .mk relation _ _ => factorNames relation

/-- The names a SELECT body adds to the scope around it. -/
def bodyScope (shadow : List String) : SetExpr → List String
  | .select (.mk sources _ _ _ _ _ _) => fromListNames sources ++ shadow
  | _ => shadow

/-! ## Binding the references of an outer row

`subst_outer_refs_expr` and its companions: references to `outer` become literals,
unless a scope in between has the name. -/

section Bind

-- `f shadow a` is what an atom becomes below the names of `shadow`.
variable (f : List String → Atom → Atom)

mutual

def bindExpr (shadow : List String) : Expr → Expr
  | .atom a => .atom (f shadow a)
  | .node k kids => .node k (bindExprs shadow kids)
  | .function c args filter within =>
    .function c (bindExprs shadow args) (bindOpt shadow filter) within
  | .trim e what characters =>
    .trim (bindExpr shadow e) (bindOpt shadow what) (bindExprs shadow characters)
  | .inSubquery e q negated => .inSubquery (bindExpr shadow e) (bindQuery shadow q) negated
  | .subquery q => .subquery (bindQuery shadow q)
  | .exists q negated => .exists (bindQuery shadow q) negated
  | .quantified any op left q => .quantified any op (bindExpr shadow left) (bindQuery shadow q)
  | .other text kids => .other text (bindExprs shadow kids)

def bindExprs (shadow : List String) : List Expr → List Expr
  | [] => []
  | e :: es => bindExpr shadow e :: bindExprs shadow es

def bindOpt (shadow : List String) : Option Expr → Option Expr
  | none => none
  | some e => some (bindExpr shadow e)

/-- ORDER BY resolves in the scope of the body. -/
def bindQuery (shadow : List String) : Query → Query
  | .mk ctes body orderBy tail =>
    .mk (bindCtes shadow ctes) (bindBody shadow body) (bindExprs (bodyScope shadow body) orderBy)
      tail

/-- A body sees the CTEs before it. -/
def bindCtes (shadow : List String) : List Cte → List Cte
  | [] => []
  | .mk name columns q :: ctes =>
    .mk name columns (bindQuery shadow q) :: bindCtes (name :: shadow) ctes

def bindBody (shadow : List String) : SetExpr → SetExpr
  | .select s => .select (bindSelect shadow s)
  | .query q => .query (bindQuery shadow q)
  | .setOp op quantifier left right =>
    .setOp op quantifier (bindBody shadow left) (bindBody shadow right)
  | .values widths cells => .values widths (bindExprs shadow cells)
  | .other text => .other text

/-- Neither the tables of FROM nor QUALIFY are looked into. -/
def bindSelect (shadow : List String) : Select → Select
  | .mk sources projection selection qualify groupBy having shape =>
    let own := fromListNames sources ++ shadow
    .mk (bindSources own sources) (bindExprs own projection) (bindOpt own selection) qualify
      (bindExprs own groupBy) (bindOpt own having) shape

def bindSources (own : List String) : List TableWithJoins → List TableWithJoins
  | [] => []
  | .mk relation joins :: rest => .mk relation (bindJoins own joins) :: bindSources own rest

def bindJoins (own : List String) : List Join → List Join
  | [] => []
  | .mk relation op on :: rest => .mk relation op (bindOpt own on) :: bindJoins own rest

end

end Bind

end Docsql.Sql

/-!
# The tables a statement names

The walkers of `targets.rs`.  A walk pushes names until it meets a shape it does
not know; what it pushed by then is still there.
-/

namespace Docsql.Sql

/-- The names pushed so far, and whether the walk went through. -/
structure Walk where
  names : List String
  ok : Bool

namespace Walk

def done : Walk := ⟨[], true⟩

def deny : Walk := ⟨[], false⟩

def push (name : String) : Walk := ⟨[name], true⟩

/-- The `?` after a walk. -/
def andThen (a b : Walk) : Walk := if a.ok then ⟨a.names ++ b.names, b.ok⟩ else a

/-- Names collected apart, of which those not in `shadow` are kept. -/
def unshadowed (shadow : List String) (w : Walk) : Walk :=
  if shadow = [] then w
  else if w.ok then ⟨w.names.filter (· ∉ shadow), true⟩
  else deny

theorem andThen_ok {a b : Walk} : (a.andThen b).ok = (a.ok && b.ok) := by
  unfold andThen
  cases h : a.ok with
  | true => rfl
  | false => exact h

theorem andThen_names {a b : Walk} (h : a.ok = true) : (a.andThen b).names = a.names ++ b.names := by
  rw [andThen, if_pos h]

theorem andThen_assoc {a b c : Walk} : (a.andThen b).andThen c = a.andThen (b.andThen c) := by
  unfold andThen
  by_cases ha : a.ok = true
  · by_cases hb : b.ok = true <;> simp [ha, hb]
  · simp [ha]

theorem unshadowed_ok {shadow : List String} {w : Walk} : (w.unshadowed shadow).ok = w.ok := by
  unfold unshadowed
  split
  · rfl
  · cases h : w.ok <;> simp [deny]

theorem mem_unshadowed {shadow : List String} {w : Walk} {t : String} (h : w.ok = true) :
    t ∈ (w.unshadowed shadow).names ↔ t ∈ w.names ∧ t ∉ shadow := by
  unfold unshadowed
  split
  · rename_i hnil
    rw [hnil]
    simp
  · simp

end Walk

section Walkers

/-- Names with parts keep their qualified form. -/
def walkName (name : List String) : Walk :=
  .push (if name.length > 1 then qualified name else objName name)

-- Whether a name is one of a table or a view.
variable (objects : String → Bool)

mutual

def walkExpr : Expr → Walk
  | .atom _ => .done
  | .node _ kids => walkExprs kids
  | .function _ args filter withinGroup =>
    ((walkExprs args).andThen (walkOpt filter)).andThen (walkExprs withinGroup)
  | .trim e what _ => (walkExpr e).andThen (walkOpt what)
  | .inSubquery e q _ => (walkExpr e).andThen (walkQueryShadowed [] q)
  | .subquery q => walkQueryShadowed [] q
  | .exists q _ => walkQueryShadowed [] q
  -- ANY, ALL and the rare shapes are denied.
  | .quantified _ _ _ _ => .deny
  | .other _ _ => .deny

def walkExprs : List Expr → Walk
  | [] => .done
  | e :: es => (walkExpr e).andThen (walkExprs es)

def walkOpt : Option Expr → Walk
  | none => .done
  | some e => walkExpr e

/-- A CTE shadows tables of its name, except that its own body reads a table of
that name. -/
def walkQueryShadowed (outer : List String) : Query → Walk
  | .mk ctes body orderBy _ =>
    (walkCtes outer ctes).andThen
      (((walkSetExpr body).andThen (walkExprs orderBy)).unshadowed (cteShadow outer ctes))

def walkCtes (shadow : List String) : List Cte → Walk
  | [] => .done
  | .mk name _ q :: ctes =>
    let own := if objects name then shadow else shadow ++ [name]
    (walkQueryShadowed own q).andThen (walkCtes (own ++ [name]) ctes)

/-- The shadow after the CTEs. -/
def cteShadow (shadow : List String) : List Cte → List String
  | [] => shadow
  | .mk name _ _ :: ctes =>
    let own := if objects name then shadow else shadow ++ [name]
    cteShadow (own ++ [name]) ctes

def walkSetExpr : SetExpr → Walk
  | .select s => walkSelect s
  | .query q => walkQueryShadowed [] q
  | .setOp _ _ left right => (walkSetExpr left).andThen (walkSetExpr right)
  | .values _ cells => walkExprs cells
  | .other _ => .done

/-- QUALIFY is not looked at. -/
def walkSelect : Select → Walk
  | .mk sources projection selection _ groupBy having _ =>
    ((((walkSources sources).andThen (walkExprs projection)).andThen
      (walkOpt selection)).andThen (walkExprs groupBy)).andThen (walkOpt having)

def walkSources : List TableWithJoins → Walk
  | [] => .done
  | .mk relation joins :: rest =>
    ((walkFactor relation).andThen (walkJoins joins)).andThen (walkSources rest)

def walkJoins : List Join → Walk
  | [] => .done
  | .mk relation _ on :: rest =>
    ((walkFactor relation).andThen (walkOpt on)).andThen (walkJoins rest)

def walkFactor : TableFactor → Walk
  | .table name _ => walkName name
  | .derived q _ _ => walkQueryShadowed [] q
  | .nestedJoin relation joins => (walkFactor relation).andThen (walkRelations joins)
  | .pivot _ _ => .deny
  | .other _ => .deny

def walkRelations : List Join → Walk
  | [] => .done
  | .mk relation _ _ :: rest => (walkFactor relation).andThen (walkRelations rest)

end

def walkQuery (q : Query) : Walk := walkQueryShadowed objects [] q

/-- The tables a query reads, or nothing when a shape in it is not known. -/
def stmtReadTargets (q : Query) : Option (List String) :=
  let w := walkQuery objects q
  if w.ok then some (w.names.dedup.mergeSort fun a b => (cmpStr a b).isLE) else none

end Walkers

/-- ASCII letters in lower case. -/
def asciiLower (s : String) : String := s.map Char.toLower

/-- A CTE refers to itself.  Taking every name for an object keeps the names of inner
WITHs in the walk; a walk that is denied counts as far as it went. -/
def cteReferences (q : Query) (name : String) : Bool :=
  (walkQuery (fun _ => true) q).names.any fun r => asciiLower r == asciiLower name

/-- The tables the body of a view names. -/
def viewBaseTables (cat : Catalog) (name : String) : Option (List String) :=
  match (cat.get name).bind TableMeta.view with
  | some (.ok q) =>
    if (walkQuery cat.tableExists q).ok then some (walkQuery cat.tableExists q).names else none
  | _ => none

end Docsql.Sql
