import Docsql.Lib.Lookup
import Docsql.Sql.Syntax

/-!
# The executor of queries

`exec_query` and what it calls: which tables are looked up, in which scope, and
with which rows at hand.  What is computed from rows alone (joins, grouping,
windows, order, the evaluation of an expression without subqueries) is `RowOps`.
Every nested call takes one unit of `fuel`.
-/

namespace Docsql.Sql

/-- Materialized CTEs, the latest first. -/
abbrev Ctes := List (String × List Object)

/-- A table's documents with their locators. -/
abbrev Rows := List (ℕ × Object)

abbrev ReadCx := Lookup String Rows String

/-- Rows found without a scan. -/
inductive FastRows where
  /-- `SELECT COUNT(*)` from the heap slots. -/
  | counted (r : QueryResult)
  /-- Filtered, ordered and cut to the window. -/
  | windowed (rows : List Object)
  /-- Candidates of an index, still to be filtered. -/
  | probed (rows : List Object)

/-- A recursive CTE on its way: all rows and those of the last round. -/
structure Recursion where
  all : List Object
  working : List Object
  seen : List (List UInt8)

/-- What is computed without looking at a table. -/
structure RowOps where
  eval : Select → Expr → Object → Except String Value
  outerRowValue : Object → String → List String → Value
  checkLiteral : Value → Except String Unit
  mentionsOuter : Query → List String → Bool
  collectCorrelated : Catalog → Query → Option String
  rewriteTop : Tail → SelectShape → Except String (Tail × SelectShape)
  checkQuery : Query → Except String Unit
  checkSelect : Select → Except String Unit
  checkTable : TableOpts → Except String Unit
  checkPlan : Query → Select → Except String Unit
  virtualView : Catalog → String → Except String (List Object)
  tableFunction : List String → TableOpts → Except String (List Object)
  pivot : String → List Object → Except String (List Object)
  derivedDocs : List String → QueryResult → Except String (List Object)
  qualifyBase : List TableWithJoins → List Object → List Object
  joinRows : Catalog → Ctes → List TableWithJoins → TableFactor → List Object → List Object →
    JoinOp → Option Expr → Except String (List Object)
  applyFunction : List Object → TableFactor → Bool → Except String (List Object)
  fastRows : Query → Select → Rows → Except String (Option FastRows)
  numberRows : Select → List Object → List Object
  isAggregate : Select → Bool
  fromless : Query → Select → Except String QueryResult
  grouped : Query → Select → List Object → Except String QueryResult
  windows : Catalog → Select → List Object → Except String (List Object)
  qualified : Select → Expr → List (Except String Value) → Object → Bool
  columns : Catalog → Select → List Object → List String
  assemble : Select → List String → Object → List Value → List Value
  distinct : Select → List (Object × List Value) → Except String (List (Object × List Value))
  isOutputKey : List String → Expr → Bool
  orderLimit : Query → List String → List (List Value) → List (Option (List Value)) →
    Except String (List (List Value))
  combine : Query → QueryResult → QueryResult → Except String QueryResult
  valuesRows : Query → Except String QueryResult
  seed : String → List String → QueryResult → Except String Recursion
  absorb : String → List String → Recursion → QueryResult → Except String Recursion

def maxViewExpansionDepth : ℕ := 16

def maxCorrelatedDepth : ℕ := 8

/-- Views and correlated evaluations that have been entered. -/
structure Depth where
  views : ℕ := 0
  correlated : ℕ := 0

def virtualNames : List String :=
  ["sysobjects", "sqlite_master", "sqlite_temporal_master", "information_schema.tables",
    "information_schema.columns", "all_tables", "user_tables", "all_tab_columns",
    "user_tab_columns", "all_indexes", "user_indexes"]

/-- Names that are answered from the catalog, or refused. -/
def isVirtual (name : String) : Bool :=
  (asciiLower name).startsWith "sys." || asciiLower name ∈ virtualNames

def isDual (name : String) : Bool := asciiLower name = "dual"

/-- The only table of a plain FROM, when its rows are its own. -/
def soleTable (cat : Catalog) (ctes : Ctes) : List TableWithJoins → Option String
  | [.mk (.table name opts) []] =>
    let tname := objName name
    if opts.args = none ∧ opts.hints = [] ∧ isVirtual tname = false ∧ isDual tname = false ∧
        isVirtual (qualified name) = false ∧ (List.lookup tname ctes).isNone ∧
        ((cat.get tname).map TableMeta.view).any Option.isNone then some tname
    else none
  | _ => none

/-- The outcome of a computation, its failure included. -/
def attempt {α : Type} (m : ReadCx α) : ReadCx (Except String α) := fun db => .ok (m db)

def optM {α β : Type} (f : α → ReadCx β) : Option α → ReadCx (Option β)
  | none => pure none
  | some a => some <$> f a

def outOfFuel : String := "stack overflow"

def isTrue : Value → Bool
  | .bool b => b
  | _ => false

section Exec

variable (ops : RowOps) (cat : Catalog)

/-- `single_col_rows`. -/
def singleColRows (r : QueryResult) : Except String Unit :=
  if r.columns.length = 1 then .ok () else .error "subquery must return one column"

/-- The value of a scalar subquery. -/
def scalar (r : QueryResult) : Except String Value := do
  singleColRows r
  if r.rows.length > 1 then throw "scalar subquery returned more than one row"
  let v := (r.rows.head?.bind List.head?).getD .null
  ops.checkLiteral v
  return v

/-- The values of a subquery in a list. -/
def column (r : QueryResult) : Except String (List Value) := do
  singleColRows r
  let vs := r.rows.map fun row => row.head?.getD .null
  vs.forM ops.checkLiteral
  return vs

/-- Expressions joined by one operator. -/
def chain (op : String) : List Expr → Expr
  | [] => .lit .null
  | e :: es => es.foldl (fun acc e => .node (.binary op) [acc, e]) e

/-- `c = TRUE` and `c = FALSE` are safe for a NULL. -/
def eqBool (b : Bool) (c : Expr) : Expr := .node (.binary "=") [c, .lit (.bool b)]

/-- `x op ANY|ALL` over the values, as a CASE over comparisons. -/
def quantifiedChain (any : Bool) (op : String) (left : Expr) (vs : List Value) : Expr :=
  let cmps := vs.map fun v => Expr.node (.binary op) [left, .lit v]
  if vs.isEmpty then .lit (.bool !any)
  else .node (.case false true) [chain "OR" (cmps.map (eqBool any)), .lit (.bool any),
    chain "AND" (cmps.map (eqBool !any)), .lit (.bool !any), .lit .null]

/-- What a reference to the outer row becomes. -/
def outerRef (outer : List String) (doc : Object) (shadow : List String) : Atom → Atom
  | .compound qualifier rest =>
    if qualifier ∉ shadow ∧ qualifier ∈ outer then
      .value (ops.outerRowValue doc qualifier rest)
    else .compound qualifier rest
  | a => a

def bindOuter (outer : List String) (doc : Object) (q : Query) : Query :=
  bindQuery (outerRef ops outer doc) [] q

def rejectCorrelated : String :=
  "correlated subqueries are not supported here (supported: WHERE / SELECT projection / " ++
    "ORDER BY / UPDATE·DELETE predicates and SET)"

/-- The rounds of a recursive CTE. -/
def recursiveRounds (quantifier : String) (columns : List String)
    (arm : List Object → ReadCx QueryResult) : ℕ → Recursion → ReadCx (List Object)
  | 0, s => if s.working = [] then pure s.all else throw "recursive CTE did not converge"
  | k + 1, s =>
    if s.working = [] then pure s.all
    else do
      let r ← arm s.working
      let s ← Lookup.lift (ops.absorb quantifier columns s r)
      recursiveRounds quantifier columns arm k s

def maxIterations : ℕ := 100

/-- The rows WHERE is true of. -/
def whereRows (eval : Object → Expr → ReadCx Value) (selection : Option Expr)
    (rows : List Object) : ReadCx (List Object) :=
  match selection with
  | none => pure rows
  | some e => do
    let kept ← rows.mapM fun doc => do
      let v ← eval doc e
      return (doc, isTrue v)
    return (kept.filter Prod.snd).map Prod.fst

/-- The rows QUALIFY is true of.  An alias in it stands for the projected value; a
failure counts as false. -/
def qualifyRows (sel : Select) (eval : Object → Expr → ReadCx Value)
    (resolve : Object → Expr → ReadCx Expr) (rows : List Object) : ReadCx (List Object) :=
  match sel with
  | .mk _ _ _ none _ _ _ => pure rows
  | .mk _ projection _ (some qualify) _ _ _ => do
    let kept ← rows.mapM fun doc => do
      let projected ← projection.mapM fun e => attempt (eval doc e)
      let e ← attempt (resolve doc qualify)
      return (doc, e.toOption.any fun e => ops.qualified sel e projected doc)
    return (kept.filter Prod.snd).map Prod.fst

/-- The paths that skip the scan of a sole table. -/
def tryFast (scope : Ctes) (sources : List TableWithJoins) (query : Query) (sel : Select) :
    ReadCx (Option FastRows) :=
  match soleTable cat scope sources with
  | some t => do
    let rows ← Lookup.ask t
    Lookup.lift (ops.fastRows query sel rows)
  | none => pure none

mutual

/-- `subst_expr_scoped`: subqueries without references to `outer` become literals. -/
def substExpr : ℕ → Depth → List String → Bool → Expr → ReadCx Expr
  | 0, _, _, _, _ => throw outOfFuel
  | n + 1, d, outer, rowcorr, e =>
    match e with
    | .atom a => pure (.atom a)
    | .node k kids => do
      let kids ← kids.mapM (substExpr n d outer rowcorr)
      return .node k kids
    | .function f args filter withinGroup => do
      let args ← args.mapM (substExpr n d outer rowcorr)
      let filter ← optM (substExpr n d outer rowcorr) filter
      return .function f args filter withinGroup
    | .trim e what characters => do
      let e ← substExpr n d outer rowcorr e
      let what ← optM (substExpr n d outer rowcorr) what
      let characters ← characters.mapM (substExpr n d outer rowcorr)
      return .trim e what characters
    | .other text kids => do
      let kids ← kids.mapM (substExpr n d outer rowcorr)
      return .other text kids
    | .subquery q =>
      if ops.mentionsOuter q outer then
        if rowcorr then pure (.subquery q) else throw rejectCorrelated
      else do
        let r ← subqueryResult n d q
        let v ← Lookup.lift (scalar ops r)
        return .lit v
    | .inSubquery e q negated =>
      if ops.mentionsOuter q outer then
        if rowcorr then do
          let e ← substExpr n d outer rowcorr e
          return .inSubquery e q negated
        else throw rejectCorrelated
      else do
        let r ← subqueryResult n d q
        let vs ← Lookup.lift (column ops r)
        return .node (.inList negated) (e :: vs.map .lit)
    | .exists q negated =>
      if ops.mentionsOuter q outer then
        if rowcorr then pure (.exists q negated) else throw rejectCorrelated
      else do
        let r ← subqueryResult n d q
        return .lit (.bool (!r.rows.isEmpty != negated))
    | .quantified any op left q => do
      let left ← substExpr n d outer rowcorr left
      if ops.mentionsOuter q outer then
        if rowcorr then pure (.quantified any op left q) else throw rejectCorrelated
      else do
        let r ← subqueryResult n d q
        let vs ← Lookup.lift (column ops r)
        if any ∧ op = "=" then return .node (.inList false) (left :: vs.map .lit)
        else return quantifiedChain any op left vs

/-- `subst_expr_row`: the subqueries that were left, with the values of one row. -/
def substExprRow : ℕ → Depth → List String → Object → Expr → ReadCx Expr
  | 0, _, _, _, _ => throw outOfFuel
  | n + 1, d, outer, doc, e =>
    match e with
    | .atom a => pure (.atom a)
    | .node k kids => do
      let kids ← kids.mapM (substExprRow n d outer doc)
      return .node k kids
    | .function f args filter withinGroup => do
      let args ← args.mapM (substExprRow n d outer doc)
      let filter ← optM (substExprRow n d outer doc) filter
      return .function f args filter withinGroup
    | .trim e what characters => do
      let e ← substExprRow n d outer doc e
      let what ← optM (substExprRow n d outer doc) what
      let characters ← characters.mapM (substExprRow n d outer doc)
      return .trim e what characters
    | .other text kids => do
      let kids ← kids.mapM (substExprRow n d outer doc)
      return .other text kids
    | .subquery q => resolveNode n d (.subquery (bindOuter ops outer doc q))
    | .exists q negated => resolveNode n d (.exists (bindOuter ops outer doc q) negated)
    | .inSubquery e q negated => do
      let e ← substExprRow n d outer doc e
      resolveNode n d (.inSubquery e (bindOuter ops outer doc q) negated)
    | .quantified any op left q => do
      let left ← substExprRow n d outer doc left
      resolveNode n d (.quantified any op left (bindOuter ops outer doc q))

def resolveNode : ℕ → Depth → Expr → ReadCx Expr
  | 0, _, _ => throw outOfFuel
  | n + 1, d, e =>
    if d.correlated < maxCorrelatedDepth then
      substExpr n { d with correlated := d.correlated + 1 } [] false e
    else throw "correlated subquery nesting too deep (more than 8 levels)"

def evalRow : ℕ → Depth → Select → List String → Object → Expr → ReadCx Value
  | 0, _, _, _, _, _ => throw outOfFuel
  | n + 1, d, sel, outer, doc, e => do
    let e ← substExprRow n d outer doc e
    Lookup.lift (ops.eval sel e doc)

/-- A subquery of an expression starts with no CTE in scope. -/
def subqueryResult : ℕ → Depth → Query → ReadCx QueryResult
  | 0, _, _ => throw outOfFuel
  | n + 1, d, q =>
    match ops.collectCorrelated cat q with
    | some qualifier =>
      throw s!"correlated subqueries are not supported (reference to outer table {qualifier})"
    | none => execQuery n d q

def execQuery : ℕ → Depth → Query → ReadCx QueryResult
  | 0, _, _ => throw outOfFuel
  | n + 1, d, .mk ctes body orderBy tail => do
    let scope ← materializeCtes n d ctes []
    execQueryBody n d (.mk ctes body orderBy tail) scope

/-- Each CTE is run with those before it in scope; a WITH of its own body is not
materialized. -/
def materializeCtes : ℕ → Depth → List Cte → Ctes → ReadCx Ctes
  | 0, _, _, _ => throw outOfFuel
  | n + 1, d, ctes, base =>
    ctes.foldlM (fun scope c => match c with
      | .mk name columns q =>
        if cteReferences q name then do
          let docs ← recursiveCte n d name columns q scope
          return (name, docs) :: scope
        else do
          let r ← execQueryBody n d q scope
          let docs ← Lookup.lift (ops.derivedDocs columns r)
          return (name, docs) :: scope) base

def recursiveCte : ℕ → Depth → String → List String → Query → Ctes → ReadCx (List Object)
  | 0, _, _, _, _, _ => throw outOfFuel
  | n + 1, d, name, columns, .mk _ body orderBy tail, scope =>
    if orderBy ≠ [] ∨ tail.limit.isSome ∨ tail.fetch.isSome then
      throw s!"recursive CTE {name} does not support ORDER BY / LIMIT / FETCH on the CTE body"
    else
      match body with
      | .setOp op quantifier left right =>
        if op = "UNION" then do
          let anchor ← execQueryBody n d (.mk [] left [] {}) scope
          let s ← Lookup.lift (ops.seed quantifier columns anchor)
          recursiveRounds ops quantifier columns
            (fun working => execQueryBody n d (.mk [] right [] {}) ((name, working) :: scope))
            maxIterations s
        else throw s!"recursive CTE {name} must be <anchor> UNION [ALL] <recursive arm>"
      | _ => throw s!"recursive CTE {name} must be <anchor> UNION [ALL] <recursive arm>"

/-- The documents of a FROM item and the name its columns are qualified with. -/
def loadTableFactor : ℕ → Depth → TableFactor → Ctes → ReadCx (List Object)
  | 0, _, _, _ => throw outOfFuel
  | n + 1, d, factor, scope =>
    match factor with
    | .derived (.mk ctes body orderBy tail) _ columns => do
      let inner ← materializeCtes n d ctes scope
      let r ← execQueryBody n d (.mk ctes body orderBy tail) inner
      Lookup.lift (ops.derivedDocs columns r)
    | .pivot table text => do
      let docs ← loadTableFactor n d table scope
      Lookup.lift (ops.pivot text docs)
    | .nestedJoin _ _ =>
      throw "unsupported FROM item (expected a table, derived table or VALUES)"
    | .other text => Lookup.lift (ops.tableFunction [] { args := some text })
    | .table name opts =>
      if opts.args.isSome then Lookup.lift (ops.tableFunction name opts)
      else do
        Lookup.lift (ops.checkTable opts)
        let tname := objName name
        if isDual tname then return [[]]
        match List.lookup tname scope with
        | some docs => return docs
        | none =>
          if isVirtual (qualified name) then Lookup.lift (ops.virtualView cat (qualified name))
          else
            match cat.get tname with
            | none => throw s!"table {tname} does not exist"
            | some ⟨_, none⟩ => do
              let rows ← Lookup.ask tname
              return rows.map Prod.snd
            | some ⟨_, some (.error e)⟩ => throw e
            | some ⟨_, some (.ok q)⟩ =>
              if d.views < maxViewExpansionDepth then do
                let r ← execQuery n { d with views := d.views + 1 } q
                return r.rows.map fun row => r.columns.zip row
              else throw "view expansion too deep (view cycle or more than 16 nested views)"

/-- The base table, the tables after commas, then all joins. -/
def loadFrom : ℕ → Depth → List TableWithJoins → Ctes → ReadCx (List Object)
  | 0, _, _, _ => throw outOfFuel
  | n + 1, d, sources, scope =>
    match sources with
    | [] => pure []
    | .mk relation joins :: rest => do
      let base ← loadTableFactor n d relation scope
      let rows ← rest.foldlM (fun rows source => match source with
        | .mk relation _ => do
          let docs ← loadTableFactor n d relation scope
          Lookup.lift (ops.joinRows cat scope sources relation rows docs .cross none))
        (ops.qualifyBase sources base)
      let allJoins := joins ++ rest.flatMap fun source => match source with
        | .mk _ joins => joins
      allJoins.foldlM (fun rows join => match join with
        | .mk relation (.apply outer) _ => Lookup.lift (ops.applyFunction rows relation outer)
        | .mk relation op on => do
          let docs ← loadTableFactor n d relation scope
          Lookup.lift (ops.joinRows cat scope sources relation rows docs op on)) rows

/-- QUALIFY, the projection, DISTINCT and the order, row by row. -/
def execPlainSelect : ℕ → Depth → Query → Select → List Object → Bool → ReadCx QueryResult
  | 0, _, _, _, _, _ => throw outOfFuel
  | n + 1, d, .mk ctes body orderBy tail, .mk sources projection selection qualify groupBy having
      shape, rows, preWindowed => do
    let sel := Select.mk sources projection selection qualify groupBy having shape
    let outer := fromListNames sources
    let columns := ops.columns cat sel rows
    let docs ← Lookup.lift (ops.windows cat sel rows)
    let docs ← qualifyRows ops sel (evalRow n d sel outer) (substExprRow n d outer) docs
    let out ← docs.mapM fun doc => do
      let values ← projection.mapM (evalRow n d sel outer doc)
      return (doc, ops.assemble sel columns doc values)
    let out ← Lookup.lift (ops.distinct sel out)
    if preWindowed then return ⟨columns, out.map Prod.snd⟩
    else do
      let keys ← orderBy.mapM fun o =>
        if ops.isOutputKey columns o then pure none
        else some <$> (out.map Prod.fst).mapM fun doc => evalRow n d sel outer doc o
      let rows ← Lookup.lift (ops.orderLimit (.mk ctes body orderBy tail) columns
        (out.map Prod.snd) keys)
      return ⟨columns, rows⟩

def execSelect : ℕ → Depth → List Expr → Tail → Select → Ctes → ReadCx QueryResult
  | 0, _, _, _, _, _ => throw outOfFuel
  | n + 1, d, orderBy, tail, .mk sources projection selection qualify groupBy having shape,
      scope => do
    Lookup.lift (ops.checkSelect (.mk sources projection selection qualify groupBy having shape))
    let outer := fromListNames sources
    let selection ← optM (substExpr n d outer true) selection
    let qualify ← optM (substExpr n d outer true) qualify
    let sources ← sources.mapM fun source => match source with
      | .mk relation joins => do
        let joins ← joins.mapM fun join => match join with
          | .mk relation op on => do
            let on ← optM (substExpr n d outer false) on
            return .mk relation op on
        return .mk relation joins
    let orderBy ← orderBy.mapM (substExpr n d outer true)
    let projection ← projection.mapM (substExpr n d outer true)
    let groupBy ← groupBy.mapM (substExpr n d outer false)
    let having ← optM (substExpr n d outer false) having
    let sel := Select.mk sources projection selection qualify groupBy having shape
    let query := Query.mk [] (.select sel) orderBy tail
    if sources.isEmpty then Lookup.lift (ops.fromless query sel)
    else do
      Lookup.lift (ops.checkPlan query sel)
      let fast ← tryFast ops cat scope sources query sel
      scanSelect n d query sel scope fast

/-- The rows of FROM, as far as they are not there yet, and what becomes of them. -/
def scanSelect : ℕ → Depth → Query → Select → Ctes → Option FastRows → ReadCx QueryResult
  | 0, _, _, _, _, _ => throw outOfFuel
  | n + 1, d, query, .mk sources projection selection qualify groupBy having shape, scope,
      fast =>
    let sel := Select.mk sources projection selection qualify groupBy having shape
    match fast with
    | some (.counted r) => return r
    | some (.windowed rows) => execPlainSelect n d query sel rows true
    | some (.probed rows) => filterSelect n d query sel rows
    | none => do
      let rows ← loadFrom n d sources scope
      filterSelect n d query sel rows

def filterSelect : ℕ → Depth → Query → Select → List Object → ReadCx QueryResult
  | 0, _, _, _, _ => throw outOfFuel
  | n + 1, d, query, .mk sources projection selection qualify groupBy having shape, rows => do
    let sel := Select.mk sources projection selection qualify groupBy having shape
    let rows ← whereRows (evalRow n d sel (fromListNames sources)) selection
      (ops.numberRows sel rows)
    if ops.isAggregate sel then Lookup.lift (ops.grouped query sel rows)
    else if having.isSome then throw "HAVING requires GROUP BY or an aggregate"
    else execPlainSelect n d query sel rows false

/-- The body of a query whose WITH is in scope already. -/
def execQueryBody : ℕ → Depth → Query → Ctes → ReadCx QueryResult
  | 0, _, _, _ => throw outOfFuel
  | n + 1, d, .mk ctes body orderBy tail, scope =>
    match body with
    | .select (.mk sources projection selection qualify groupBy having shape) => do
      let (tail, shape) ← Lookup.lift (ops.rewriteTop tail shape)
      let sel := Select.mk sources projection selection qualify groupBy having shape
      Lookup.lift (ops.checkQuery (.mk ctes (.select sel) orderBy tail))
      execSelect n d orderBy tail sel scope
    | .query (.mk inner innerBody innerOrder innerTail) => do
      let query := Query.mk inner innerBody innerOrder innerTail
      Lookup.lift (ops.checkQuery (.mk ctes (.query query) orderBy tail))
      let scope ← materializeCtes n d inner scope
      execQueryBody n d (.mk [] innerBody innerOrder innerTail) scope
    | .setOp op quantifier left right => do
      let query := Query.mk ctes (.setOp op quantifier left right) orderBy tail
      Lookup.lift (ops.checkQuery query)
      -- The order and the limits apply to the combination only.
      let bare : Tail := { clauses := tail.clauses }
      let l ← execQueryBody n d (.mk [] left [] bare) scope
      let r ← execQueryBody n d (.mk [] right [] bare) scope
      Lookup.lift (ops.combine query l r)
    | .values widths cells => do
      Lookup.lift (ops.checkQuery (.mk ctes (.values widths cells) orderBy tail))
      let cells ← cells.mapM (substExpr n d [] false)
      Lookup.lift (ops.valuesRows (.mk [] (.values widths cells) orderBy tail))
    | .other text => throw s!"unsupported query body: {text}"

end

end Exec

end Docsql.Sql
