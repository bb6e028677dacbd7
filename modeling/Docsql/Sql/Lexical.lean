import Docsql.Sql.Exec

/-!
# Queries with lexical scoping

What a query means when every name of a WITH is visible in all of the query it belongs
to and in the CTEs after it, and nowhere else.  This is the executor with the scope
passed to each part of a query, the subqueries of its expressions and the bodies of its
CTEs included.  A view is a query of its own and sees none of it.
-/

namespace Docsql.Sql.Lexical

section Exec

variable (ops : RowOps) (cat : Catalog)

mutual

/-- Subqueries without references to `outer` become literals. -/
def substExpr : ℕ → Depth → Ctes → List String → Bool → Expr → ReadCx Expr
  | 0, _, _, _, _, _ => throw outOfFuel
  | n + 1, d, scope, outer, rowcorr, e =>
    match e with
    | .atom a => pure (.atom a)
    | .node k kids => do
      let kids ← kids.mapM (substExpr n d scope outer rowcorr)
      return .node k kids
    | .function f args filter withinGroup => do
      let args ← args.mapM (substExpr n d scope outer rowcorr)
      let filter ← optM (substExpr n d scope outer rowcorr) filter
      return .function f args filter withinGroup
    | .trim e what characters => do
      let e ← substExpr n d scope outer rowcorr e
      let what ← optM (substExpr n d scope outer rowcorr) what
      let characters ← characters.mapM (substExpr n d scope outer rowcorr)
      return .trim e what characters
    | .other text kids => do
      let kids ← kids.mapM (substExpr n d scope outer rowcorr)
      return .other text kids
    | .subquery q =>
      if ops.mentionsOuter q outer then
        if rowcorr then pure (.subquery q) else throw rejectCorrelated
      else do
        let r ← subqueryResult n d scope q
        let v ← Lookup.lift (scalar ops r)
        return .lit v
    | .inSubquery e q negated =>
      if ops.mentionsOuter q outer then
        if rowcorr then do
          let e ← substExpr n d scope outer rowcorr e
          return .inSubquery e q negated
        else throw rejectCorrelated
      else do
        let r ← subqueryResult n d scope q
        let vs ← Lookup.lift (column ops r)
        return .node (.inList negated) (e :: vs.map .lit)
    | .exists q negated =>
      if ops.mentionsOuter q outer then
        if rowcorr then pure (.exists q negated) else throw rejectCorrelated
      else do
        let r ← subqueryResult n d scope q
        return .lit (.bool (!r.rows.isEmpty != negated))
    | .quantified any op left q => do
      let left ← substExpr n d scope outer rowcorr left
      if ops.mentionsOuter q outer then
        if rowcorr then pure (.quantified any op left q) else throw rejectCorrelated
      else do
        let r ← subqueryResult n d scope q
        let vs ← Lookup.lift (column ops r)
        if any ∧ op = "=" then return .node (.inList false) (left :: vs.map .lit)
        else return quantifiedChain any op left vs

/-- The subqueries that were left, with the values of one row. -/
def substExprRow : ℕ → Depth → Ctes → List String → Object → Expr → ReadCx Expr
  | 0, _, _, _, _, _ => throw outOfFuel
  | n + 1, d, scope, outer, doc, e =>
    match e with
    | .atom a => pure (.atom a)
    | .node k kids => do
      let kids ← kids.mapM (substExprRow n d scope outer doc)
      return .node k kids
    | .function f args filter withinGroup => do
      let args ← args.mapM (substExprRow n d scope outer doc)
      let filter ← optM (substExprRow n d scope outer doc) filter
      return .function f args filter withinGroup
    | .trim e what characters => do
      let e ← substExprRow n d scope outer doc e
      let what ← optM (substExprRow n d scope outer doc) what
      let characters ← characters.mapM (substExprRow n d scope outer doc)
      return .trim e what characters
    | .other text kids => do
      let kids ← kids.mapM (substExprRow n d scope outer doc)
      return .other text kids
    | .subquery q => resolveNode n d scope (.subquery (bindOuter ops outer doc q))
    | .exists q negated => resolveNode n d scope (.exists (bindOuter ops outer doc q) negated)
    | .inSubquery e q negated => do
      let e ← substExprRow n d scope outer doc e
      resolveNode n d scope (.inSubquery e (bindOuter ops outer doc q) negated)
    | .quantified any op left q => do
      let left ← substExprRow n d scope outer doc left
      resolveNode n d scope (.quantified any op left (bindOuter ops outer doc q))

def resolveNode : ℕ → Depth → Ctes → Expr → ReadCx Expr
  | 0, _, _, _ => throw outOfFuel
  | n + 1, d, scope, e =>
    if d.correlated < maxCorrelatedDepth then
      substExpr n { d with correlated := d.correlated + 1 } scope [] false e
    else throw "correlated subquery nesting too deep (more than 8 levels)"

def evalRow : ℕ → Depth → Ctes → Select → List String → Object → Expr → ReadCx Value
  | 0, _, _, _, _, _, _ => throw outOfFuel
  | n + 1, d, scope, sel, outer, doc, e => do
    let e ← substExprRow n d scope outer doc e
    Lookup.lift (ops.eval sel e doc)

/-- A subquery of an expression starts with the scope it stands in. -/
def subqueryResult : ℕ → Depth → Ctes → Query → ReadCx QueryResult
  | 0, _, _, _ => throw outOfFuel
  | n + 1, d, scope, q =>
    match ops.collectCorrelated cat q with
    | some qualifier =>
      throw s!"correlated subqueries are not supported (reference to outer table {qualifier})"
    | none => execQuery n d scope q

def execQuery : ℕ → Depth → Ctes → Query → ReadCx QueryResult
  | 0, _, _, _ => throw outOfFuel
  | n + 1, d, scope, .mk ctes body orderBy tail => do
    let scope ← materializeCtes n d ctes scope
    execQueryBody n d (.mk ctes body orderBy tail) scope

/-- Each CTE is run with those before it in scope, and with those of its own WITH. -/
def materializeCtes : ℕ → Depth → List Cte → Ctes → ReadCx Ctes
  | 0, _, _, _ => throw outOfFuel
  | n + 1, d, ctes, base =>
    ctes.foldlM (fun scope c => match c with
      | .mk name columns (.mk inner body orderBy tail) =>
        if cteReferences (.mk inner body orderBy tail) name then do
          let docs ← recursiveCte n d name columns (.mk inner body orderBy tail) scope
          return (name, docs) :: scope
        else do
          let own ← materializeCtes n d inner scope
          let r ← execQueryBody n d (.mk inner body orderBy tail) own
          let docs ← Lookup.lift (ops.derivedDocs columns r)
          return (name, docs) :: scope) base

def recursiveCte : ℕ → Depth → String → List String → Query → Ctes → ReadCx (List Object)
  | 0, _, _, _, _, _ => throw outOfFuel
  | n + 1, d, name, columns, .mk inner body orderBy tail, scope =>
    if orderBy ≠ [] ∨ tail.limit.isSome ∨ tail.fetch.isSome then
      throw s!"recursive CTE {name} does not support ORDER BY / LIMIT / FETCH on the CTE body"
    else
      match body with
      | .setOp op quantifier left right =>
        if op = "UNION" then do
          let scope ← materializeCtes n d inner scope
          let anchor ← execQueryBody n d (.mk [] left [] {}) scope
          let s ← Lookup.lift (ops.seed quantifier columns anchor)
          recursiveRounds ops quantifier columns
            (fun working => execQueryBody n d (.mk [] right [] {}) ((name, working) :: scope))
            maxIterations s
        else throw s!"recursive CTE {name} must be <anchor> UNION [ALL] <recursive arm>"
      | _ => throw s!"recursive CTE {name} must be <anchor> UNION [ALL] <recursive arm>"

/-- The documents of a FROM item and the name its columns are qualified with. -/
def loadTableFactor : ℕ → Depth → TableFactor → Ctes → ReadCx (List Object)
  | 0, _, _, _ => throw outOfFuel
  | n + 1, d, factor, scope =>
    match factor with
    | .derived (.mk ctes body orderBy tail) _ columns => do
      let inner ← materializeCtes n d ctes scope
      let r ← execQueryBody n d (.mk ctes body orderBy tail) inner
      Lookup.lift (ops.derivedDocs columns r)
    | .pivot table text => do
      let docs ← loadTableFactor n d table scope
      Lookup.lift (ops.pivot text docs)
    | .nestedJoin _ _ =>
      throw "unsupported FROM item (expected a table, derived table or VALUES)"
    | .other text => Lookup.lift (ops.tableFunction [] { args := some text })
    | .table name opts =>
      if opts.args.isSome then Lookup.lift (ops.tableFunction name opts)
      else do
        Lookup.lift (ops.checkTable opts)
        let tname := objName name
        if isDual tname then return [[]]
        match List.lookup tname scope with
        | some docs => return docs
        | none =>
          if isVirtual (qualified name) then Lookup.lift (ops.virtualView cat (qualified name))
          else
            match cat.get tname with
            | none => throw s!"table {tname} does not exist"
            | some ⟨_, none⟩ => do
              let rows ← Lookup.ask tname
              return rows.map Prod.snd
            | some ⟨_, some (.error e)⟩ => throw e
            | some ⟨_, some (.ok q)⟩ =>
              if d.views < maxViewExpansionDepth then do
                let r ← Sql.execQuery ops cat n { d with views := d.views + 1 } q
                return r.rows.map fun row => r.columns.zip row
              else throw "view expansion too deep (view cycle or more than 16 nested views)"

/-- The base table, the tables after commas, then all joins. -/
def loadFrom : ℕ → Depth → List TableWithJoins → Ctes → ReadCx (List Object)
  | 0, _, _, _ => throw outOfFuel
  | n + 1, d, sources, scope =>
    match sources with
    | [] => pure []
    | .mk relation joins :: rest => do
      let base ← loadTableFactor n d relation scope
      let rows ← rest.foldlM (fun rows source => match source with
        | .mk relation _ => do
          let docs ← loadTableFactor n d relation scope
          Lookup.lift (ops.joinRows cat scope sources relation rows docs .cross none))
        (ops.qualifyBase sources base)
      let allJoins := joins ++ rest.flatMap fun source => match source with
        | .mk _ joins => joins
      allJoins.foldlM (fun rows join => match join with
        | .mk relation (.apply outer) _ => Lookup.lift (ops.applyFunction rows relation outer)
        | .mk relation op on => do
          let docs ← loadTableFactor n d relation scope
          Lookup.lift (ops.joinRows cat scope sources relation rows docs op on)) rows

/-- QUALIFY, the projection, DISTINCT and the order, row by row. -/
def execPlainSelect : ℕ → Depth → Ctes → Query → Select → List Object → Bool →
    ReadCx QueryResult
  | 0, _, _, _, _, _, _ => throw outOfFuel
  | n + 1, d, scope, .mk ctes body orderBy tail, .mk sources projection selection qualify groupBy
      having shape, rows, preWindowed => do
    let sel := Select.mk sources projection selection qualify groupBy having shape
    let outer := fromListNames sources
    let columns := ops.columns cat sel rows
    let docs ← Lookup.lift (ops.windows cat sel rows)
    let docs ← qualifyRows ops sel (evalRow n d scope sel outer) (substExprRow n d scope outer) docs
    let out ← docs.mapM fun doc => do
      let values ← projection.mapM (evalRow n d scope sel outer doc)
      return (doc, ops.assemble sel columns doc values)
    let out ← Lookup.lift (ops.distinct sel out)
    if preWindowed then return ⟨columns, out.map Prod.snd⟩
    else do
      let keys ← orderBy.mapM fun o =>
        if ops.isOutputKey columns o then pure none
        else some <$> (out.map Prod.fst).mapM fun doc => evalRow n d scope sel outer doc o
      let rows ← Lookup.lift (ops.orderLimit (.mk ctes body orderBy tail) columns
        (out.map Prod.snd) keys)
      return ⟨columns, rows⟩

def execSelect : ℕ → Depth → List Expr → Tail → Select → Ctes → ReadCx QueryResult
  | 0, _, _, _, _, _ => throw outOfFuel
  | n + 1, d, orderBy, tail, .mk sources projection selection qualify groupBy having shape,
      scope => do
    Lookup.lift (ops.checkSelect (.mk sources projection selection qualify groupBy having shape))
    let outer := fromListNames sources
    let selection ← optM (substExpr n d scope outer true) selection
    let qualify ← optM (substExpr n d scope outer true) qualify
    let sources ← sources.mapM fun source => match source with
      | .mk relation joins => do
        let joins ← joins.mapM fun join => match join with
          | .mk relation op on => do
            let on ← optM (substExpr n d scope outer false) on
            return .mk relation op on
        return .mk relation joins
    let orderBy ← orderBy.mapM (substExpr n d scope outer true)
    let projection ← projection.mapM (substExpr n d scope outer true)
    let groupBy ← groupBy.mapM (substExpr n d scope outer false)
    let having ← optM (substExpr n d scope outer false) having
    let sel := Select.mk sources projection selection qualify groupBy having shape
    let query := Query.mk [] (.select sel) orderBy tail
    if sources.isEmpty then Lookup.lift (ops.fromless query sel)
    else do
      Lookup.lift (ops.checkPlan query sel)
      let fast ← tryFast ops cat scope sources query sel
      scanSelect n d query sel scope fast

/-- The rows of FROM, as far as they are not there yet, and what becomes of them. -/
def scanSelect : ℕ → Depth → Query → Select → Ctes → Option FastRows → ReadCx QueryResult
  | 0, _, _, _, _, _ => throw outOfFuel
  | n + 1, d, query, .mk sources projection selection qualify groupBy having shape, scope,
      fast =>
    let sel := Select.mk sources projection selection qualify groupBy having shape
    match fast with
    | some (.counted r) => return r
    | some (.windowed rows) => execPlainSelect n d scope query sel rows true
    | some (.probed rows) => filterSelect n d scope query sel rows
    | none => do
      let rows ← loadFrom n d sources scope
      filterSelect n d scope query sel rows

def filterSelect : ℕ → Depth → Ctes → Query → Select → List Object → ReadCx QueryResult
  | 0, _, _, _, _, _ => throw outOfFuel
  | n + 1, d, scope, query, .mk sources projection selection qualify groupBy having shape,
      rows => do
    let sel := Select.mk sources projection selection qualify groupBy having shape
    let rows ← whereRows (evalRow n d scope sel (fromListNames sources)) selection
      (ops.numberRows sel rows)
    if ops.isAggregate sel then Lookup.lift (ops.grouped query sel rows)
    else if having.isSome then throw "HAVING requires GROUP BY or an aggregate"
    else execPlainSelect n d scope query sel rows false

/-- The body of a query whose WITH is in scope already. -/
def execQueryBody : ℕ → Depth → Query → Ctes → ReadCx QueryResult
  | 0, _, _, _ => throw outOfFuel
  | n + 1, d, .mk ctes body orderBy tail, scope =>
    match body with
    | .select (.mk sources projection selection qualify groupBy having shape) => do
      let (tail, shape) ← Lookup.lift (ops.rewriteTop tail shape)
      let sel := Select.mk sources projection selection qualify groupBy having shape
      Lookup.lift (ops.checkQuery (.mk ctes (.select sel) orderBy tail))
      execSelect n d orderBy tail sel scope
    | .query (.mk inner innerBody innerOrder innerTail) => do
      let query := Query.mk inner innerBody innerOrder innerTail
      Lookup.lift (ops.checkQuery (.mk ctes (.query query) orderBy tail))
      let scope ← materializeCtes n d inner scope
      execQueryBody n d (.mk [] innerBody innerOrder innerTail) scope
    | .setOp op quantifier left right => do
      let query := Query.mk ctes (.setOp op quantifier left right) orderBy tail
      Lookup.lift (ops.checkQuery query)
      -- The order and the limits apply to the combination only.
      let bare : Tail := { clauses := tail.clauses }
      let l ← execQueryBody n d (.mk [] left [] bare) scope
      let r ← execQueryBody n d (.mk [] right [] bare) scope
      Lookup.lift (ops.combine query l r)
    | .values widths cells => do
      Lookup.lift (ops.checkQuery (.mk ctes (.values widths cells) orderBy tail))
      let cells ← cells.mapM (substExpr n d scope [] false)
      Lookup.lift (ops.valuesRows (.mk [] (.values widths cells) orderBy tail))
    | .other text => throw s!"unsupported query body: {text}"

end

end Exec

end Docsql.Sql.Lexical
