import Docsql.Sql.Exec

/-!
# The tables an execution may look up

`readsQuery scope q` lists the names that running `q` resolves against the catalog
when the names of `scope` are bound to CTEs.  What a query returns is settled by
the rows of the tables reachable from these.
-/

namespace Docsql.Sql

/-- The catalog name a table factor stands for. -/
def lookups (scope : List String) (name : List String) (opts : TableOpts) : List String :=
  if opts.args.isSome ∨ isDual (objName name) ∨ objName name ∈ scope ∨ isVirtual (qualified name)
  then [] else [objName name]

def cteNames (ctes : List Cte) : List String := ctes.map fun c => match c with
  | .mk name _ _ => name

mutual

def readsExpr : Expr → List String
  | .atom _ => []
  | .node _ kids => readsExprs kids
  | .function _ args filter _ => readsExprs args ++ readsOpt filter
  | .trim e what characters => readsExpr e ++ (readsOpt what ++ readsExprs characters)
  | .inSubquery e q _ => readsExpr e ++ readsQuery [] q
  | .subquery q => readsQuery [] q
  | .exists q _ => readsQuery [] q
  | .quantified _ _ left q => readsExpr left ++ readsQuery [] q
  | .other _ kids => readsExprs kids

def readsExprs : List Expr → List String
  | [] => []
  | e :: es => readsExpr e ++ readsExprs es

def readsOpt : Option Expr → List String
  | none => []
  | some e => readsExpr e

def readsQuery (scope : List String) : Query → List String
  | .mk ctes body orderBy _ =>
    readsCtes scope ctes ++ (readsBody (scope ++ cteNames ctes) body ++ readsExprs orderBy)

/-- The WITH of a CTE's body is passed over. -/
def readsCtes (scope : List String) : List Cte → List String
  | [] => []
  | .mk name _ (.mk _ body orderBy _) :: ctes =>
    (readsBody scope body ++ readsExprs orderBy) ++ readsCtes (scope ++ [name]) ctes

def readsBody (scope : List String) : SetExpr → List String
  | .select s => readsSelect scope s
  | .query q => readsQuery scope q
  | .setOp _ _ left right => readsBody scope left ++ readsBody scope right
  | .values _ cells => readsExprs cells
  | .other _ => []

def readsSelect (scope : List String) : Select → List String
  | .mk sources projection selection qualify groupBy having _ =>
    readsSources scope sources ++ (readsExprs projection ++ (readsOpt selection ++
      (readsOpt qualify ++ (readsExprs groupBy ++ readsOpt having))))

def readsSources (scope : List String) : List TableWithJoins → List String
  | [] => []
  | .mk relation joins :: rest =>
    readsFactor scope relation ++ (readsJoins scope joins ++ readsSources scope rest)

def readsJoins (scope : List String) : List Join → List String
  | [] => []
  | .mk relation _ on :: rest =>
    readsFactor scope relation ++ (readsOpt on ++ readsJoins scope rest)

def readsFactor (scope : List String) : TableFactor → List String
  | .table name opts => lookups scope name opts
  | .derived q _ _ => readsQuery scope q
  | .nestedJoin _ _ => []
  | .pivot table _ => readsFactor scope table
  | .other _ => []

end

/-! ## Binding outer references leaves the tables as they are -/

section Bind

variable (f : List String → Atom → Atom)

theorem cteNames_bindCtes (shadow : List String) (ctes : List Cte) :
    cteNames (bindCtes f shadow ctes) = cteNames ctes := by
  induction ctes generalizing shadow with
  | nil => rfl
  | cons c ctes ih =>
    obtain ⟨name, columns, q⟩ := c
    have hrest := ih (name :: shadow)
    unfold cteNames at hrest ⊢
    rw [bindCtes, List.map_cons, List.map_cons, hrest]

mutual

theorem readsExpr_bind (shadow : List String) :
    ∀ e : Expr, readsExpr (bindExpr f shadow e) = readsExpr e
  | .atom _ => rfl
  | .node _ kids => readsExprs_bind shadow kids
  | .function _ args filter _ =>
    congrArg₂ _ (readsExprs_bind shadow args) (readsOpt_bind shadow filter)
  | .trim e what characters => congrArg₂ _ (readsExpr_bind shadow e)
      (congrArg₂ _ (readsOpt_bind shadow what) (readsExprs_bind shadow characters))
  | .inSubquery e q _ => congrArg₂ _ (readsExpr_bind shadow e) (readsQuery_bind shadow [] q)
  | .subquery q => readsQuery_bind shadow [] q
  | .exists q _ => readsQuery_bind shadow [] q
  | .quantified _ _ left q =>
    congrArg₂ _ (readsExpr_bind shadow left) (readsQuery_bind shadow [] q)
  | .other _ kids => readsExprs_bind shadow kids

theorem readsExprs_bind (shadow : List String) :
    ∀ es : List Expr, readsExprs (bindExprs f shadow es) = readsExprs es
  | [] => rfl
  | e :: es => congrArg₂ _ (readsExpr_bind shadow e) (readsExprs_bind shadow es)

theorem readsOpt_bind (shadow : List String) :
    ∀ e : Option Expr, readsOpt (bindOpt f shadow e) = readsOpt e
  | none => rfl
  | some e => readsExpr_bind shadow e

theorem readsQuery_bind (shadow scope : List String) :
    ∀ q : Query, readsQuery scope (bindQuery f shadow q) = readsQuery scope q
  | .mk ctes body orderBy tail => by
    rw [bindQuery, readsQuery, readsQuery, cteNames_bindCtes, readsCtes_bind shadow scope ctes,
      readsBody_bind shadow (scope ++ cteNames ctes) body, readsExprs_bind _ orderBy]

theorem readsCtes_bind (shadow scope : List String) :
    ∀ ctes : List Cte, readsCtes scope (bindCtes f shadow ctes) = readsCtes scope ctes
  | [] => rfl
  | .mk name _ (.mk _ body orderBy _) :: ctes => by
    rw [bindCtes, bindQuery, readsCtes, readsCtes, readsBody_bind shadow scope body,
      readsExprs_bind _ orderBy, readsCtes_bind (name :: shadow) (scope ++ [name]) ctes]

theorem readsBody_bind (shadow scope : List String) :
    ∀ body : SetExpr, readsBody scope (bindBody f shadow body) = readsBody scope body
  | .select s => readsSelect_bind shadow scope s
  | .query q => readsQuery_bind shadow scope q
  | .setOp _ _ left right => by
    rw [bindBody, readsBody, readsBody, readsBody_bind shadow scope left,
      readsBody_bind shadow scope right]
  | .values _ cells => readsExprs_bind shadow cells
  | .other _ => rfl

theorem readsSelect_bind (shadow scope : List String) :
    ∀ s : Select, readsSelect scope (bindSelect f shadow s) = readsSelect scope s
  | .mk sources projection selection qualify groupBy having _ => by
    rw [bindSelect, readsSelect, readsSelect, readsSources_bind _ scope sources,
      readsExprs_bind _ projection, readsOpt_bind _ selection, readsExprs_bind _ groupBy,
      readsOpt_bind _ having]

theorem readsSources_bind (own scope : List String) : ∀ sources : List TableWithJoins,
    readsSources scope (bindSources f own sources) = readsSources scope sources
  | [] => rfl
  | .mk _ joins :: rest => by
    rw [bindSources, readsSources, readsSources, readsJoins_bind own scope joins,
      readsSources_bind own scope rest]

theorem readsJoins_bind (own scope : List String) :
    ∀ joins : List Join, readsJoins scope (bindJoins f own joins) = readsJoins scope joins
  | [] => rfl
  | .mk _ _ on :: rest => by
    rw [bindJoins, readsJoins, readsJoins, readsOpt_bind own on, readsJoins_bind own scope rest]

end

end Bind

end Docsql.Sql
