import Docsql.Sql.Authorize
import Docsql.Sql.Lexical

/-!
# Where the executor scopes WITH lexically

`lostQuery` lists the names at which the executor and the lexical reading part: a CTE
that a subquery of an expression takes from outside, and a WITH at the head of a CTE's
own query.  A query without them means the same to both.
-/

namespace Docsql.Sql

/-- The CTEs in scope, the innermost first; `true` for one the executor has lost. -/
abbrev Marks := List (String × Bool)

def hide (m : Marks) : Marks := m.map fun p => (p.1, true)

/-- The marks behind a WITH. -/
def marked (m : Marks) : List Cte → Marks
  | [] => m
  | .mk name _ _ :: ctes => marked ((name, false) :: m) ctes

def lostName (m : Marks) (name : List String) (opts : TableOpts) : List String :=
  if opts.args = none ∧ List.lookup (objName name) m = some true then [objName name] else []

mutual

def lostExpr (m : Marks) : Expr → List String
  | .atom _ => []
  | .node _ kids => lostExprs m kids
  | .function _ args filter _ => lostExprs m args ++ lostOpt m filter
  | .trim e what characters => lostExpr m e ++ (lostOpt m what ++ lostExprs m characters)
  | .inSubquery e q _ => lostExpr m e ++ lostQuery (hide m) q
  | .subquery q => lostQuery (hide m) q
  | .exists q _ => lostQuery (hide m) q
  | .quantified _ _ left q => lostExpr m left ++ lostQuery (hide m) q
  | .other _ kids => lostExprs m kids

def lostExprs (m : Marks) : List Expr → List String
  | [] => []
  | e :: es => lostExpr m e ++ lostExprs m es

def lostOpt (m : Marks) : Option Expr → List String
  | none => []
  | some e => lostExpr m e

def lostQuery (m : Marks) : Query → List String
  | .mk ctes body orderBy _ =>
    lostCtes m ctes ++ (lostBody (marked m ctes) body ++ lostExprs (marked m ctes) orderBy)

/-- The recursive arm of a CTE has its own name in scope. -/
def lostCtes (m : Marks) : List Cte → List String
  | [] => []
  | .mk name _ (.mk inner body orderBy tail) :: ctes =>
    let arm := if cteReferences (.mk inner body orderBy tail) name then (name, false) :: m else m
    (cteNames inner ++ (lostArms m arm body ++ lostExprs m orderBy)) ++
      lostCtes ((name, false) :: m) ctes

/-- A body whose right arm has a scope of its own. -/
def lostArms (m arm : Marks) : SetExpr → List String
  | .select s => lostSelect m s
  | .query q => lostQuery m q
  | .setOp _ _ left right => lostBody m left ++ lostBody arm right
  | .values _ cells => lostExprs m cells
  | .other _ => []

def lostBody (m : Marks) : SetExpr → List String
  | .select s => lostSelect m s
  | .query q => lostQuery m q
  | .setOp _ _ left right => lostBody m left ++ lostBody m right
  | .values _ cells => lostExprs m cells
  | .other _ => []

def lostSelect (m : Marks) : Select → List String
  | .mk sources projection selection qualify groupBy having _ =>
    lostSources m sources ++ (lostExprs m projection ++ (lostOpt m selection ++
      (lostOpt m qualify ++ (lostExprs m groupBy ++ lostOpt m having))))

def lostSources (m : Marks) : List TableWithJoins → List String
  | [] => []
  | .mk relation joins :: rest =>
    (lostFactor m relation ++ lostJoins m joins) ++ lostSources m rest

def lostJoins (m : Marks) : List Join → List String
  | [] => []
  | .mk relation _ on :: rest => (lostFactor m relation ++ lostOpt m on) ++ lostJoins m rest

def lostFactor (m : Marks) : TableFactor → List String
  | .table name opts => lostName m name opts
  | .derived q _ _ => lostQuery m q
  | .nestedJoin _ _ => []
  | .pivot table _ => lostFactor m table
  | .other _ => []

end

/-- No name of the query is lost. -/
def Scoped (q : Query) : Prop := lostQuery [] q = []

/-! ## Binding outer references loses no name -/

section Bind

variable (f : List String → Atom → Atom) (objects : String → Bool)

theorem cteShadow_bindCtes (shadow own : List String) (ctes : List Cte) :
    cteShadow objects own (bindCtes f shadow ctes) = cteShadow objects own ctes := by
  induction ctes generalizing shadow own with
  | nil => rfl
  | cons c ctes ih =>
    obtain ⟨name, columns, q⟩ := c
    rw [bindCtes, cteShadow, cteShadow, ih]

mutual

theorem walkExpr_bind (shadow : List String) :
    ∀ e : Expr, walkExpr objects (bindExpr f shadow e) = walkExpr objects e
  | .atom _ => rfl
  | .node _ kids => walkExprs_bind shadow kids
  | .function _ args filter withinGroup => by
    rw [bindExpr, walkExpr, walkExpr, walkExprs_bind shadow args, walkOpt_bind shadow filter]
  | .trim e what _ => by
    rw [bindExpr, walkExpr, walkExpr, walkExpr_bind shadow e, walkOpt_bind shadow what]
  | .inSubquery e q _ => by
    rw [bindExpr, walkExpr, walkExpr, walkExpr_bind shadow e, walkQuery_bind shadow [] q]
  | .subquery q => walkQuery_bind shadow [] q
  | .exists q _ => walkQuery_bind shadow [] q
  | .quantified _ _ _ _ => rfl
  | .other _ _ => rfl

theorem walkExprs_bind (shadow : List String) :
    ∀ es : List Expr, walkExprs objects (bindExprs f shadow es) = walkExprs objects es
  | [] => rfl
  | e :: es => by
    rw [bindExprs, walkExprs, walkExprs, walkExpr_bind shadow e, walkExprs_bind shadow es]

theorem walkOpt_bind (shadow : List String) :
    ∀ e : Option Expr, walkOpt objects (bindOpt f shadow e) = walkOpt objects e
  | none => rfl
  | some e => walkExpr_bind shadow e

theorem walkQuery_bind (shadow own : List String) : ∀ q : Query,
    walkQueryShadowed objects own (bindQuery f shadow q) = walkQueryShadowed objects own q
  | .mk ctes body orderBy _ => by
    rw [bindQuery, walkQueryShadowed, walkQueryShadowed, walkCtes_bind shadow own ctes,
      walkSetExpr_bind shadow body, walkExprs_bind _ orderBy, cteShadow_bindCtes]

theorem walkCtes_bind (shadow own : List String) : ∀ ctes : List Cte,
    walkCtes objects own (bindCtes f shadow ctes) = walkCtes objects own ctes
  | [] => rfl
  | .mk name _ q :: ctes => by
    rw [bindCtes, walkCtes, walkCtes, walkQuery_bind shadow _ q,
      walkCtes_bind (name :: shadow) _ ctes]

theorem walkSetExpr_bind (shadow : List String) :
    ∀ body : SetExpr, walkSetExpr objects (bindBody f shadow body) = walkSetExpr objects body
  | .select s => walkSelect_bind shadow s
  | .query q => walkQuery_bind shadow [] q
  | .setOp _ _ left right => by
    rw [bindBody, walkSetExpr, walkSetExpr, walkSetExpr_bind shadow left,
      walkSetExpr_bind shadow right]
  | .values _ cells => walkExprs_bind shadow cells
  | .other _ => rfl

theorem walkSelect_bind (shadow : List String) :
    ∀ s : Select, walkSelect objects (bindSelect f shadow s) = walkSelect objects s
  | .mk sources projection selection qualify groupBy having _ => by
    rw [bindSelect, walkSelect, walkSelect, walkSources_bind _ sources,
      walkExprs_bind _ projection, walkOpt_bind _ selection, walkExprs_bind _ groupBy,
      walkOpt_bind _ having]

theorem walkSources_bind (own : List String) : ∀ sources : List TableWithJoins,
    walkSources objects (bindSources f own sources) = walkSources objects sources
  | [] => rfl
  | .mk _ joins :: rest => by
    rw [bindSources, walkSources, walkSources, walkJoins_bind own joins,
      walkSources_bind own rest]

theorem walkJoins_bind (own : List String) :
    ∀ joins : List Join, walkJoins objects (bindJoins f own joins) = walkJoins objects joins
  | [] => rfl
  | .mk _ _ on :: rest => by
    rw [bindJoins, walkJoins, walkJoins, walkOpt_bind own on, walkJoins_bind own rest]

end

theorem cteReferences_bind (shadow : List String) (q : Query) (name : String) :
    cteReferences (bindQuery f shadow q) name = cteReferences q name := by
  rw [cteReferences, walkQuery, walkQuery_bind]
  rfl

theorem marked_bindCtes (m : Marks) (shadow : List String) (ctes : List Cte) :
    marked m (bindCtes f shadow ctes) = marked m ctes := by
  induction ctes generalizing m shadow with
  | nil => rfl
  | cons c ctes ih =>
    obtain ⟨name, columns, q⟩ := c
    rw [bindCtes, marked, marked, ih]

mutual

theorem lostExpr_bind (m : Marks) (shadow : List String) :
    ∀ e : Expr, lostExpr m (bindExpr f shadow e) = lostExpr m e
  | .atom _ => rfl
  | .node _ kids => lostExprs_bind m shadow kids
  | .function _ args filter _ => by
    rw [bindExpr, lostExpr, lostExpr, lostExprs_bind m shadow args, lostOpt_bind m shadow filter]
  | .trim e what characters => by
    rw [bindExpr, lostExpr, lostExpr, lostExpr_bind m shadow e, lostOpt_bind m shadow what,
      lostExprs_bind m shadow characters]
  | .inSubquery e q _ => by
    rw [bindExpr, lostExpr, lostExpr, lostExpr_bind m shadow e, lostQuery_bind _ shadow q]
  | .subquery q => lostQuery_bind _ shadow q
  | .exists q _ => lostQuery_bind _ shadow q
  | .quantified _ _ left q => by
    rw [bindExpr, lostExpr, lostExpr, lostExpr_bind m shadow left, lostQuery_bind _ shadow q]
  | .other _ kids => lostExprs_bind m shadow kids

theorem lostExprs_bind (m : Marks) (shadow : List String) :
    ∀ es : List Expr, lostExprs m (bindExprs f shadow es) = lostExprs m es
  | [] => rfl
  | e :: es => by
    rw [bindExprs, lostExprs, lostExprs, lostExpr_bind m shadow e, lostExprs_bind m shadow es]

theorem lostOpt_bind (m : Marks) (shadow : List String) :
    ∀ e : Option Expr, lostOpt m (bindOpt f shadow e) = lostOpt m e
  | none => rfl
  | some e => lostExpr_bind m shadow e

theorem lostQuery_bind (m : Marks) (shadow : List String) :
    ∀ q : Query, lostQuery m (bindQuery f shadow q) = lostQuery m q
  | .mk ctes body orderBy tail => by
    rw [bindQuery, lostQuery, lostQuery, marked_bindCtes, lostCtes_bind m shadow ctes,
      lostBody_bind _ shadow body, lostExprs_bind _ _ orderBy]

theorem lostCtes_bind (m : Marks) (shadow : List String) :
    ∀ ctes : List Cte, lostCtes m (bindCtes f shadow ctes) = lostCtes m ctes
  | [] => rfl
  | .mk name columns (.mk inner body orderBy tail) :: ctes => by
    have hrefs := cteReferences_bind f shadow (.mk inner body orderBy tail) name
    rw [bindQuery] at hrefs
    rw [bindCtes, bindQuery, lostCtes, lostCtes, hrefs, cteNames_bindCtes,
      lostArms_bind m _ shadow body, lostExprs_bind m _ orderBy,
      lostCtes_bind _ (name :: shadow) ctes]

theorem lostArms_bind (m arm : Marks) (shadow : List String) :
    ∀ body : SetExpr, lostArms m arm (bindBody f shadow body) = lostArms m arm body
  | .select s => lostSelect_bind m shadow s
  | .query q => lostQuery_bind m shadow q
  | .setOp _ _ left right => by
    rw [bindBody, lostArms, lostArms, lostBody_bind m shadow left,
      lostBody_bind arm shadow right]
  | .values _ cells => lostExprs_bind m shadow cells
  | .other _ => rfl

theorem lostBody_bind (m : Marks) (shadow : List String) :
    ∀ body : SetExpr, lostBody m (bindBody f shadow body) = lostBody m body
  | .select s => lostSelect_bind m shadow s
  | .query q => lostQuery_bind m shadow q
  | .setOp _ _ left right => by
    rw [bindBody, lostBody, lostBody, lostBody_bind m shadow left, lostBody_bind m shadow right]
  | .values _ cells => lostExprs_bind m shadow cells
  | .other _ => rfl

theorem lostSelect_bind (m : Marks) (shadow : List String) :
    ∀ s : Select, lostSelect m (bindSelect f shadow s) = lostSelect m s
  | .mk sources projection selection qualify groupBy having _ => by
    rw [bindSelect, lostSelect, lostSelect, lostSources_bind m _ sources,
      lostExprs_bind m _ projection, lostOpt_bind m _ selection, lostExprs_bind m _ groupBy,
      lostOpt_bind m _ having]

theorem lostSources_bind (m : Marks) (own : List String) : ∀ sources : List TableWithJoins,
    lostSources m (bindSources f own sources) = lostSources m sources
  | [] => rfl
  | .mk _ joins :: rest => by
    rw [bindSources, lostSources, lostSources, lostJoins_bind m own joins,
      lostSources_bind m own rest]

theorem lostJoins_bind (m : Marks) (own : List String) :
    ∀ joins : List Join, lostJoins m (bindJoins f own joins) = lostJoins m joins
  | [] => rfl
  | .mk _ _ on :: rest => by
    rw [bindJoins, lostJoins, lostJoins, lostOpt_bind m own on, lostJoins_bind m own rest]

end

end Bind

/-! ## Parts of a query that lose no name -/

section Names

variable {m : Marks}

theorem lostExprs_eq_nil {es : List Expr} : lostExprs m es = [] ↔ ∀ e ∈ es, lostExpr m e = [] := by
  induction es with
  | nil => simp [lostExprs]
  | cons e es ih => rw [lostExprs, List.append_eq_nil_iff, ih, List.forall_mem_cons]

theorem lostOpt_eq_nil {e : Option Expr} : lostOpt m e = [] ↔ ∀ e' ∈ e, lostExpr m e' = [] := by
  cases e with
  | none => simp [lostOpt]
  | some e => simp [lostOpt]

def lostJoin (m : Marks) : Join → List String
  | .mk relation _ on => lostFactor m relation ++ lostOpt m on

def lostSource (m : Marks) : TableWithJoins → List String
  | .mk relation joins => lostFactor m relation ++ lostJoins m joins

theorem lostJoins_eq_nil {joins : List Join} :
    lostJoins m joins = [] ↔ ∀ j ∈ joins, lostJoin m j = [] := by
  induction joins with
  | nil => simp [lostJoins]
  | cons j joins ih =>
    obtain ⟨relation, op, on⟩ := j
    rw [lostJoins, List.append_eq_nil_iff, ih, List.forall_mem_cons]
    rfl

theorem lostSources_eq_nil {sources : List TableWithJoins} :
    lostSources m sources = [] ↔ ∀ t ∈ sources, lostSource m t = [] := by
  induction sources with
  | nil => simp [lostSources]
  | cons source sources ih =>
    obtain ⟨relation, joins⟩ := source
    rw [lostSources, List.append_eq_nil_iff, ih, List.forall_mem_cons]
    rfl

theorem lost_lits (vs : List Value) : lostExprs m (vs.map .lit) = [] := by
  rw [lostExprs_eq_nil]
  intro e he
  obtain ⟨v, -, rfl⟩ := List.mem_map.1 he
  rfl

theorem lost_chain {op : String} {es : List Expr} (h : ∀ e ∈ es, lostExpr m e = []) :
    lostExpr m (chain op es) = [] := by
  cases es with
  | nil => rfl
  | cons e es =>
    obtain ⟨he, hes⟩ := List.forall_mem_cons.1 h
    dsimp only [chain]
    clear h
    induction es generalizing e with
    | nil => exact he
    | cons e' es ih =>
      obtain ⟨he', hes⟩ := List.forall_mem_cons.1 hes
      rw [List.foldl_cons]
      refine ih _ ?_ hes
      simp [lostExpr, lostExprs, he, he']

theorem lost_quantifiedChain {any : Bool} {op : String} {left : Expr} {vs : List Value}
    (h : lostExpr m left = []) : lostExpr m (quantifiedChain any op left vs) = [] := by
  have heqs (b : Bool) : ∀ c ∈ (vs.map fun v => Expr.node (.binary op) [left, .lit v]).map
      (eqBool b), lostExpr m c = [] := by
    intro c hc
    obtain ⟨c', hc', rfl⟩ := List.mem_map.1 hc
    obtain ⟨v, -, rfl⟩ := List.mem_map.1 hc'
    simp [eqBool, lostExpr, lostExprs, Expr.lit, h]
  unfold quantifiedChain
  dsimp only
  split
  · rfl
  · rw [lostExpr, lostExprs_eq_nil]
    intro e he
    simp only [List.mem_cons, List.not_mem_nil, or_false] at he
    rcases he with rfl | rfl | rfl | rfl | rfl
    · exact lost_chain (heqs any)
    · rfl
    · exact lost_chain (heqs !any)
    · rfl
    · rfl

end Names

/-! ## Both executors side by side -/

/-- The name of a table that FROM looks for in the scope. -/
def factorTable : TableFactor → List String
  | .table name opts => if opts.args = none then [objName name] else []
  | _ => []

def sourceTables (sources : List TableWithJoins) : List String :=
  sources.flatMap fun source => match source with
    | .mk relation joins => factorTable relation ++ joins.flatMap fun join => match join with
      | .mk relation _ _ => factorTable relation

/-- A join asks of the scope whether the tables of FROM are CTEs, as
`table_factor_columns` does, and nothing else. -/
def JoinsByName (ops : RowOps) : Prop :=
  ∀ cat scope scope' sources relation rows docs op on,
    (∀ t ∈ sourceTables sources,
      (List.lookup t scope).isSome = (List.lookup t scope').isSome) →
    ops.joinRows cat scope sources relation rows docs op on =
      ops.joinRows cat scope' sources relation rows docs op on

/-- The scope of the executor and the lexical one, as far as no name is lost. -/
structure Agree (m : Marks) (scope lex : Ctes) : Prop where
  same : ∀ t, List.lookup t m ≠ some true → List.lookup t scope = List.lookup t lex
  below : ∀ t, List.lookup t m = none → List.lookup t lex = none

namespace Agree

variable {m : Marks} {scope lex : Ctes}

theorem nil : Agree [] [] [] := ⟨fun _ _ => rfl, fun _ _ => rfl⟩

theorem cons (h : Agree m scope lex) (name : String) (docs : List Object) :
    Agree ((name, false) :: m) ((name, docs) :: scope) ((name, docs) :: lex) := by
  refine ⟨fun t ht => ?_, fun t ht => ?_⟩
  · rw [List.lookup_cons] at ht
    rw [List.lookup_cons, List.lookup_cons]
    cases hname : t == name with
    | true => rfl
    | false =>
      rw [hname] at ht
      exact h.same t ht
  · rw [List.lookup_cons] at ht ⊢
    cases hname : t == name with
    | true =>
      rw [hname] at ht
      cases ht
    | false =>
      rw [hname] at ht
      exact h.below t ht

theorem lookup_hide (m : Marks) (t : String) :
    List.lookup t (hide m) = (List.lookup t m).map fun _ => true := by
  induction m with
  | nil => rfl
  | cons p m ih =>
    obtain ⟨name, b⟩ := p
    unfold hide at ih ⊢
    rw [List.map_cons, List.lookup_cons, List.lookup_cons]
    cases hname : t == name with
    | true => rfl
    | false => exact ih

/-- A subquery starts with nothing where it should see all of the scope. -/
theorem hidden (h : ∀ t, List.lookup t m = none → List.lookup t lex = none) :
    Agree (hide m) [] lex := by
  refine ⟨fun t ht => ?_, fun t ht => ?_⟩
  · rw [lookup_hide] at ht
    cases hm : List.lookup t m with
    | none => exact (h t hm).symm
    | some b =>
      rw [hm] at ht
      exact absurd rfl ht
  · rw [lookup_hide, Option.map_eq_none_iff] at ht
    exact h t ht

theorem lookup_eq (h : Agree m scope lex) {name : List String} {opts : TableOpts}
    (hlost : lostName m name opts = []) (hargs : opts.args = none) :
    List.lookup (objName name) scope = List.lookup (objName name) lex := by
  refine h.same _ fun htrue => ?_
  rw [lostName, if_pos ⟨hargs, htrue⟩] at hlost
  cases hlost

theorem factorTable_eq (h : Agree m scope lex) {factor : TableFactor}
    (hlost : lostFactor m factor = []) :
    ∀ t ∈ factorTable factor, List.lookup t scope = List.lookup t lex := by
  cases factor with
  | table name opts =>
    intro t ht
    rw [factorTable] at ht
    split at ht
    · rename_i hargs
      rw [List.mem_singleton.1 ht]
      exact h.lookup_eq hlost hargs
    · exact absurd ht List.not_mem_nil
  | _ => exact fun t ht => absurd ht List.not_mem_nil

theorem sourceTables_eq (h : Agree m scope lex) {sources : List TableWithJoins}
    (hlost : lostSources m sources = []) :
    ∀ t ∈ sourceTables sources, List.lookup t scope = List.lookup t lex := by
  intro t ht
  obtain ⟨⟨relation, joins⟩, hsource, hmem⟩ := List.mem_flatMap.1 ht
  obtain ⟨hrelation, hjoins⟩ := List.append_eq_nil_iff.1 (lostSources_eq_nil.1 hlost _ hsource)
  rcases List.mem_append.1 hmem with hown | hjoined
  · exact h.factorTable_eq hrelation t hown
  · obtain ⟨⟨relation', op, on⟩, hjoin, hin⟩ := List.mem_flatMap.1 hjoined
    have hlost' := (List.append_eq_nil_iff.1 (lostJoins_eq_nil.1 hjoins _ hjoin)).1
    exact h.factorTable_eq hlost' t hin

theorem soleTable_eq (h : Agree m scope lex) (cat : Catalog) {sources : List TableWithJoins}
    (hlost : lostSources m sources = []) :
    soleTable cat scope sources = soleTable cat lex sources := by
  unfold soleTable
  split
  · rename_i name opts
    by_cases hargs : opts.args = none
    · have hname := h.sourceTables_eq hlost (objName name)
        (by simp [sourceTables, factorTable, hargs])
      dsimp only
      rw [hname]
    · simp [hargs]
  · rfl

end Agree

/-- The same outcome, with an expression that loses no name. -/
abbrev SameExpr (m : Marks) (x y : ReadCx Expr) : Prop :=
  Lookup.Same (fun e => lostExpr m e = []) x y

abbrev SameResult {α : Type} (x y : ReadCx α) : Prop := Lookup.Same (fun _ => True) x y

/-- No CTE of the lexical scope is without a mark. -/
abbrev Below (m : Marks) (lex : Ctes) : Prop :=
  ∀ t, List.lookup t m = none → List.lookup t lex = none

section Exec

variable (ops : RowOps) (cat : Catalog)

/-- Both executors with `n` units of fuel, function by function. -/
structure Agrees (n : ℕ) : Prop where
  substExpr : ∀ {m : Marks} {lex : Ctes} {e : Expr} (d : Depth) (outer : List String)
    (rowcorr : Bool), Below m lex → lostExpr m e = [] →
      SameExpr m (substExpr ops cat n d outer rowcorr e)
        (Lexical.substExpr ops cat n d lex outer rowcorr e)
  substExprRow : ∀ {m : Marks} {lex : Ctes} {e : Expr} (d : Depth) (outer : List String)
    (doc : Object), Below m lex → lostExpr m e = [] →
      SameExpr m (substExprRow ops cat n d outer doc e)
        (Lexical.substExprRow ops cat n d lex outer doc e)
  resolveNode : ∀ {m : Marks} {lex : Ctes} {e : Expr} (d : Depth), Below m lex →
    lostExpr m e = [] →
      SameExpr m (resolveNode ops cat n d e) (Lexical.resolveNode ops cat n d lex e)
  evalRow : ∀ {m : Marks} {lex : Ctes} {e : Expr} (d : Depth) (sel : Select)
    (outer : List String) (doc : Object), Below m lex → lostExpr m e = [] →
      SameResult (evalRow ops cat n d sel outer doc e)
        (Lexical.evalRow ops cat n d lex sel outer doc e)
  subqueryResult : ∀ {m : Marks} {lex : Ctes} {q : Query} (d : Depth), Below m lex →
    lostQuery (hide m) q = [] →
      SameResult (subqueryResult ops cat n d q) (Lexical.subqueryResult ops cat n d lex q)
  execQuery : ∀ {m : Marks} {lex : Ctes} {q : Query} (d : Depth), Agree m [] lex →
    lostQuery m q = [] →
      SameResult (execQuery ops cat n d q) (Lexical.execQuery ops cat n d lex q)
  materializeCtes : ∀ {m : Marks} {scope lex : Ctes} {ctes : List Cte} (d : Depth),
    Agree m scope lex → lostCtes m ctes = [] →
      Lookup.Related (Agree (marked m ctes)) (materializeCtes ops cat n d ctes scope)
        (Lexical.materializeCtes ops cat n d ctes lex)
  recursiveCte : ∀ {m : Marks} {scope lex : Ctes} {body : SetExpr} {orderBy : List Expr}
    {tail : Tail} (d : Depth) (name : String) (columns : List String), Agree m scope lex →
    lostArms m ((name, false) :: m) body = [] →
      SameResult (recursiveCte ops cat n d name columns (.mk [] body orderBy tail) scope)
        (Lexical.recursiveCte ops cat n d name columns (.mk [] body orderBy tail) lex)
  loadTableFactor : ∀ {m : Marks} {scope lex : Ctes} {factor : TableFactor} (d : Depth),
    Agree m scope lex → lostFactor m factor = [] →
      SameResult (loadTableFactor ops cat n d factor scope)
        (Lexical.loadTableFactor ops cat n d factor lex)
  loadFrom : ∀ {m : Marks} {scope lex : Ctes} {sources : List TableWithJoins} (d : Depth),
    Agree m scope lex → lostSources m sources = [] →
      SameResult (loadFrom ops cat n d sources scope)
        (Lexical.loadFrom ops cat n d sources lex)
  execPlainSelect : ∀ {m : Marks} {lex : Ctes} {ctes : List Cte} {body : SetExpr}
    {orderBy : List Expr} {tail : Tail} {sel : Select} (d : Depth) (rows : List Object)
    (preWindowed : Bool), Below m lex → lostSelect m sel = [] → lostExprs m orderBy = [] →
      SameResult (execPlainSelect ops cat n d (.mk ctes body orderBy tail) sel rows preWindowed)
        (Lexical.execPlainSelect ops cat n d lex (.mk ctes body orderBy tail) sel rows
          preWindowed)
  filterSelect : ∀ {m : Marks} {lex : Ctes} {ctes : List Cte} {body : SetExpr}
    {orderBy : List Expr} {tail : Tail} {sel : Select} (d : Depth) (rows : List Object),
    Below m lex → lostSelect m sel = [] → lostExprs m orderBy = [] →
      SameResult (filterSelect ops cat n d (.mk ctes body orderBy tail) sel rows)
        (Lexical.filterSelect ops cat n d lex (.mk ctes body orderBy tail) sel rows)
  scanSelect : ∀ {m : Marks} {scope lex : Ctes} {ctes : List Cte} {body : SetExpr}
    {orderBy : List Expr} {tail : Tail} {sel : Select} (d : Depth) (fast : Option FastRows),
    Agree m scope lex → lostSelect m sel = [] → lostExprs m orderBy = [] →
      SameResult (scanSelect ops cat n d (.mk ctes body orderBy tail) sel scope fast)
        (Lexical.scanSelect ops cat n d (.mk ctes body orderBy tail) sel lex fast)
  execSelect : ∀ {m : Marks} {scope lex : Ctes} {orderBy : List Expr} {sel : Select}
    (d : Depth) (tail : Tail), Agree m scope lex → lostSelect m sel = [] →
    lostExprs m orderBy = [] →
      SameResult (execSelect ops cat n d orderBy tail sel scope)
        (Lexical.execSelect ops cat n d orderBy tail sel lex)
  execQueryBody : ∀ {m : Marks} {scope lex : Ctes} {ctes : List Cte} {body : SetExpr}
    {orderBy : List Expr} {tail : Tail} (d : Depth), Agree m scope lex →
    lostBody m body = [] → lostExprs m orderBy = [] →
      SameResult (execQueryBody ops cat n d (.mk ctes body orderBy tail) scope)
        (Lexical.execQueryBody ops cat n d (.mk ctes body orderBy tail) lex)

variable {ops cat} {n : ℕ} {m : Marks} {scope lex : Ctes}

open Lookup

theorem optM_same {α β : Type} {f f' : α → ReadCx β} {Q : β → Prop} {a : Option α}
    (h : ∀ x ∈ a, Same Q (f x) (f' x)) :
    Same (fun b => ∀ y ∈ b, Q y) (optM f a) (optM f' a) := by
  cases a with
  | none => exact Same.pure fun y hy => by cases hy
  | some a =>
    refine Same.map (h a rfl) fun b hb y hy => ?_
    cases hy
    exact hb

theorem Agrees.substExprs (hn : Agrees ops cat n) {es : List Expr} (d : Depth)
    (outer : List String) (rowcorr : Bool) (hlex : Below m lex) (h : lostExprs m es = []) :
    Same (fun es' => lostExprs m es' = []) (es.mapM (Sql.substExpr ops cat n d outer rowcorr))
      (es.mapM (Lexical.substExpr ops cat n d lex outer rowcorr)) :=
  Same.mono (Same.mapM fun e he => hn.substExpr d outer rowcorr hlex (lostExprs_eq_nil.1 h e he))
    fun _ h' => lostExprs_eq_nil.2 h'

theorem Agrees.substOpt (hn : Agrees ops cat n) {e : Option Expr} (d : Depth)
    (outer : List String) (rowcorr : Bool) (hlex : Below m lex) (h : lostOpt m e = []) :
    Same (fun e' => lostOpt m e' = []) (optM (Sql.substExpr ops cat n d outer rowcorr) e)
      (optM (Lexical.substExpr ops cat n d lex outer rowcorr) e) :=
  Same.mono (optM_same fun e' he' => hn.substExpr d outer rowcorr hlex (lostOpt_eq_nil.1 h e' he'))
    fun _ h' => lostOpt_eq_nil.2 h'

theorem Agrees.substExpr_succ (hn : Agrees ops cat n) {e : Expr} (d : Depth)
    (outer : List String) (rowcorr : Bool) (hlex : Below m lex) (h : lostExpr m e = []) :
    SameExpr m (Sql.substExpr ops cat (n + 1) d outer rowcorr e)
      (Lexical.substExpr ops cat (n + 1) d lex outer rowcorr e) := by
  cases e with
  | atom a =>
    rw [Sql.substExpr, Lexical.substExpr]
    exact .pure rfl
  | node k kids =>
    rw [Sql.substExpr, Lexical.substExpr]
    exact (hn.substExprs d outer rowcorr hlex h).bind fun _ h' => .pure h'
  | function f args filter withinGroup =>
    rw [Sql.substExpr, Lexical.substExpr]
    obtain ⟨hargs, hfilter⟩ := List.append_eq_nil_iff.1 h
    refine (hn.substExprs d outer rowcorr hlex hargs).bind fun args' hargs' => ?_
    refine (hn.substOpt d outer rowcorr hlex hfilter).bind fun filter' hfilter' => ?_
    exact .pure (List.append_eq_nil_iff.2 ⟨hargs', hfilter'⟩)
  | trim e what characters =>
    rw [Sql.substExpr, Lexical.substExpr]
    obtain ⟨he, hrest⟩ := List.append_eq_nil_iff.1 h
    obtain ⟨hwhat, hchars⟩ := List.append_eq_nil_iff.1 hrest
    refine (hn.substExpr d outer rowcorr hlex he).bind fun e' he' => ?_
    refine (hn.substOpt d outer rowcorr hlex hwhat).bind fun what' hwhat' => ?_
    refine (hn.substExprs d outer rowcorr hlex hchars).bind fun chars' hchars' => ?_
    exact .pure (List.append_eq_nil_iff.2 ⟨he', List.append_eq_nil_iff.2 ⟨hwhat', hchars'⟩⟩)
  | other text kids =>
    rw [Sql.substExpr, Lexical.substExpr]
    exact (hn.substExprs d outer rowcorr hlex h).bind fun _ h' => .pure h'
  | subquery q =>
    rw [Sql.substExpr, Lexical.substExpr]
    split
    · split
      · exact .pure h
      · exact .throw _
    · exact (hn.subqueryResult d hlex h).bind fun r _ => Same.andThen _ fun v => .pure rfl
  | inSubquery e q negated =>
    rw [Sql.substExpr, Lexical.substExpr]
    obtain ⟨he, hq⟩ := List.append_eq_nil_iff.1 h
    split
    · split
      · refine (hn.substExpr d outer rowcorr hlex he).bind fun e' he' => ?_
        exact .pure (List.append_eq_nil_iff.2 ⟨he', hq⟩)
      · exact .throw _
    · refine (hn.subqueryResult d hlex hq).bind fun r _ => Same.andThen _ fun vs => ?_
      exact .pure (List.append_eq_nil_iff.2 ⟨he, lost_lits vs⟩)
  | «exists» q negated =>
    rw [Sql.substExpr, Lexical.substExpr]
    split
    · split
      · exact .pure h
      · exact .throw _
    · exact (hn.subqueryResult d hlex h).bind fun r _ => .pure rfl
  | quantified any op left q =>
    rw [Sql.substExpr, Lexical.substExpr]
    obtain ⟨hleft, hq⟩ := List.append_eq_nil_iff.1 h
    refine (hn.substExpr d outer rowcorr hlex hleft).bind fun left' hleft' => ?_
    split
    · split
      · exact .pure (List.append_eq_nil_iff.2 ⟨hleft', hq⟩)
      · exact .throw _
    · refine (hn.subqueryResult d hlex hq).bind fun r _ => Same.andThen _ fun vs => ?_
      split
      · exact .pure (List.append_eq_nil_iff.2 ⟨hleft', lost_lits vs⟩)
      · exact .pure (lost_quantifiedChain hleft')

theorem Agrees.substRows (hn : Agrees ops cat n) {es : List Expr} (d : Depth)
    (outer : List String) (doc : Object) (hlex : Below m lex) (h : lostExprs m es = []) :
    Same (fun es' => lostExprs m es' = []) (es.mapM (Sql.substExprRow ops cat n d outer doc))
      (es.mapM (Lexical.substExprRow ops cat n d lex outer doc)) :=
  Same.mono (Same.mapM fun e he => hn.substExprRow d outer doc hlex (lostExprs_eq_nil.1 h e he))
    fun _ h' => lostExprs_eq_nil.2 h'

theorem Agrees.substRowOpt (hn : Agrees ops cat n) {e : Option Expr} (d : Depth)
    (outer : List String) (doc : Object) (hlex : Below m lex) (h : lostOpt m e = []) :
    Same (fun e' => lostOpt m e' = []) (optM (Sql.substExprRow ops cat n d outer doc) e)
      (optM (Lexical.substExprRow ops cat n d lex outer doc) e) :=
  Same.mono (optM_same fun e' he' => hn.substExprRow d outer doc hlex (lostOpt_eq_nil.1 h e' he'))
    fun _ h' => lostOpt_eq_nil.2 h'

theorem lostQuery_bindOuter (m : Marks) (outer : List String) (doc : Object) (q : Query) :
    lostQuery m (bindOuter ops outer doc q) = lostQuery m q := lostQuery_bind _ _ _ q

theorem Agrees.substExprRow_succ (hn : Agrees ops cat n) {e : Expr} (d : Depth)
    (outer : List String) (doc : Object) (hlex : Below m lex) (h : lostExpr m e = []) :
    SameExpr m (Sql.substExprRow ops cat (n + 1) d outer doc e)
      (Lexical.substExprRow ops cat (n + 1) d lex outer doc e) := by
  cases e with
  | atom a =>
    rw [Sql.substExprRow, Lexical.substExprRow]
    exact .pure rfl
  | node k kids =>
    rw [Sql.substExprRow, Lexical.substExprRow]
    exact (hn.substRows d outer doc hlex h).bind fun _ h' => .pure h'
  | function f args filter withinGroup =>
    rw [Sql.substExprRow, Lexical.substExprRow]
    obtain ⟨hargs, hfilter⟩ := List.append_eq_nil_iff.1 h
    refine (hn.substRows d outer doc hlex hargs).bind fun args' hargs' => ?_
    refine (hn.substRowOpt d outer doc hlex hfilter).bind fun filter' hfilter' => ?_
    exact .pure (List.append_eq_nil_iff.2 ⟨hargs', hfilter'⟩)
  | trim e what characters =>
    rw [Sql.substExprRow, Lexical.substExprRow]
    obtain ⟨he, hrest⟩ := List.append_eq_nil_iff.1 h
    obtain ⟨hwhat, hchars⟩ := List.append_eq_nil_iff.1 hrest
    refine (hn.substExprRow d outer doc hlex he).bind fun e' he' => ?_
    refine (hn.substRowOpt d outer doc hlex hwhat).bind fun what' hwhat' => ?_
    refine (hn.substRows d outer doc hlex hchars).bind fun chars' hchars' => ?_
    exact .pure (List.append_eq_nil_iff.2 ⟨he', List.append_eq_nil_iff.2 ⟨hwhat', hchars'⟩⟩)
  | other text kids =>
    rw [Sql.substExprRow, Lexical.substExprRow]
    exact (hn.substRows d outer doc hlex h).bind fun _ h' => .pure h'
  | subquery q =>
    rw [Sql.substExprRow, Lexical.substExprRow]
    refine hn.resolveNode d hlex ?_
    rwa [lostExpr, lostQuery_bindOuter]
  | «exists» q negated =>
    rw [Sql.substExprRow, Lexical.substExprRow]
    refine hn.resolveNode d hlex ?_
    rwa [lostExpr, lostQuery_bindOuter]
  | inSubquery e q negated =>
    rw [Sql.substExprRow, Lexical.substExprRow]
    obtain ⟨he, hq⟩ := List.append_eq_nil_iff.1 h
    refine (hn.substExprRow d outer doc hlex he).bind fun e' he' => hn.resolveNode d hlex ?_
    rw [lostExpr, lostQuery_bindOuter]
    exact List.append_eq_nil_iff.2 ⟨he', hq⟩
  | quantified any op left q =>
    rw [Sql.substExprRow, Lexical.substExprRow]
    obtain ⟨hleft, hq⟩ := List.append_eq_nil_iff.1 h
    refine (hn.substExprRow d outer doc hlex hleft).bind fun left' hleft' =>
      hn.resolveNode d hlex ?_
    rw [lostExpr, lostQuery_bindOuter]
    exact List.append_eq_nil_iff.2 ⟨hleft', hq⟩

theorem Agrees.resolveNode_succ (hn : Agrees ops cat n) {e : Expr} (d : Depth)
    (hlex : Below m lex) (h : lostExpr m e = []) :
    SameExpr m (Sql.resolveNode ops cat (n + 1) d e)
      (Lexical.resolveNode ops cat (n + 1) d lex e) := by
  rw [Sql.resolveNode, Lexical.resolveNode]
  split
  · exact hn.substExpr _ _ _ hlex h
  · exact .throw _

theorem Agrees.evalRow_succ (hn : Agrees ops cat n) {e : Expr} (d : Depth) (sel : Select)
    (outer : List String) (doc : Object) (hlex : Below m lex) (h : lostExpr m e = []) :
    SameResult (Sql.evalRow ops cat (n + 1) d sel outer doc e)
      (Lexical.evalRow ops cat (n + 1) d lex sel outer doc e) := by
  rw [Sql.evalRow, Lexical.evalRow]
  exact (hn.substExprRow d outer doc hlex h).bind fun _ _ => .refl _

theorem Agrees.subqueryResult_succ (hn : Agrees ops cat n) {q : Query} (d : Depth)
    (hlex : Below m lex) (h : lostQuery (hide m) q = []) :
    SameResult (Sql.subqueryResult ops cat (n + 1) d q)
      (Lexical.subqueryResult ops cat (n + 1) d lex q) := by
  rw [Sql.subqueryResult, Lexical.subqueryResult]
  cases ops.collectCorrelated cat q with
  | some qualifier => exact .throw _
  | none => exact hn.execQuery d (.hidden hlex) h

theorem Agrees.execQuery_succ (hn : Agrees ops cat n) {q : Query} (d : Depth)
    (hlex : Agree m [] lex) (h : lostQuery m q = []) :
    SameResult (Sql.execQuery ops cat (n + 1) d q)
      (Lexical.execQuery ops cat (n + 1) d lex q) := by
  obtain ⟨ctes, body, orderBy, tail⟩ := q
  obtain ⟨hctes, hrest⟩ := List.append_eq_nil_iff.1 h
  obtain ⟨hbody, horder⟩ := List.append_eq_nil_iff.1 hrest
  rw [Sql.execQuery, Lexical.execQuery]
  exact Related.bind (hn.materializeCtes d hlex hctes) fun scope' lex' hscope =>
    hn.execQueryBody d hscope hbody horder

/-- A WITH without entries leaves the scope as it is, when there is fuel for anything. -/
theorem materializeCtes_nil {α : Type} (d : Depth) (scope : Ctes) (k : Ctes → ReadCx α)
    (hk : ∀ scope, n = 0 → k scope = throw outOfFuel) :
    (Lexical.materializeCtes ops cat n d [] scope >>= k) = k scope := by
  cases n with
  | zero =>
    rw [hk scope rfl]
    rfl
  | succ n => rfl

theorem lostArms_self (m : Marks) (body : SetExpr) : lostArms m m body = lostBody m body := by
  cases body <;> rfl

theorem Agrees.materializeCtes_succ (hn : Agrees ops cat n) {ctes : List Cte} (d : Depth)
    (hscope : Agree m scope lex) (h : lostCtes m ctes = []) :
    Related (Agree (marked m ctes)) (Sql.materializeCtes ops cat (n + 1) d ctes scope)
      (Lexical.materializeCtes ops cat (n + 1) d ctes lex) := by
  rw [Sql.materializeCtes, Lexical.materializeCtes]
  induction ctes generalizing m scope lex with
  | nil => exact .pure hscope
  | cons c ctes ih =>
    obtain ⟨name, columns, ⟨inner, body, orderBy, tail⟩⟩ := c
    obtain ⟨hown, hrest⟩ := List.append_eq_nil_iff.1 h
    obtain ⟨hinner, hquery⟩ := List.append_eq_nil_iff.1 hown
    obtain ⟨harms, horder⟩ := List.append_eq_nil_iff.1 hquery
    have hnone : inner = [] := List.map_eq_nil_iff.1 hinner
    subst hnone
    rw [List.foldlM_cons, List.foldlM_cons]
    refine Related.bind (R := Agree ((name, false) :: m)) ?_ fun scope' lex' hscope' =>
      ih hscope' hrest
    dsimp only at harms ⊢
    split
    · rename_i href
      rw [if_pos href] at harms
      refine Related.bind (hn.recursiveCte d name columns hscope harms) fun docs docs' hdocs => ?_
      rw [hdocs.1]
      exact .pure (hscope.cons name docs')
    · rename_i href
      rw [if_neg href, lostArms_self] at harms
      rw [materializeCtes_nil]
      · refine Related.bind (hn.execQueryBody d hscope harms horder) fun r r' hr => ?_
        rw [hr.1]
        refine Related.bind (Same.refl _) fun docs docs' hdocs => ?_
        rw [hdocs.1]
        exact .pure (hscope.cons name docs')
      · rintro scope' rfl
        rw [Lexical.execQueryBody]
        rfl

theorem recursiveRounds_same {quantifier : String} {columns : List String}
    {arm arm' : List Object → ReadCx QueryResult}
    (harm : ∀ working, SameResult (arm working) (arm' working)) :
    recursiveRounds ops quantifier columns arm = recursiveRounds ops quantifier columns arm' := by
  have hsame : arm = arm' := funext fun working => (harm working).eq
  rw [hsame]

theorem Agrees.recursiveCte_succ (hn : Agrees ops cat n) {body : SetExpr} {orderBy : List Expr}
    {tail : Tail} (d : Depth) (name : String) (columns : List String)
    (hscope : Agree m scope lex) (h : lostArms m ((name, false) :: m) body = []) :
    SameResult (Sql.recursiveCte ops cat (n + 1) d name columns (.mk [] body orderBy tail) scope)
      (Lexical.recursiveCte ops cat (n + 1) d name columns (.mk [] body orderBy tail) lex) := by
  cases body with
  | setOp op quantifier left right =>
    rw [Sql.recursiveCte, Lexical.recursiveCte]
    obtain ⟨hleft, hright⟩ := List.append_eq_nil_iff.1 h
    split
    · exact .throw _
    · split
      · rw [materializeCtes_nil]
        · refine (hn.execQueryBody d hscope hleft rfl).bind fun anchor _ => ?_
          refine Same.andThen _ fun s => ?_
          rw [recursiveRounds_same fun working =>
            hn.execQueryBody d (hscope.cons name working) hright rfl]
          exact .refl _
        · rintro scope' rfl
          rw [Lexical.execQueryBody]
          rfl
      · exact .throw _
  | select _ => exact .refl _
  | query _ => exact .refl _
  | values _ _ => exact .refl _
  | other _ => exact .refl _

theorem Agrees.loadTableFactor_succ (hn : Agrees ops cat n) {factor : TableFactor} (d : Depth)
    (hscope : Agree m scope lex) (h : lostFactor m factor = []) :
    SameResult (Sql.loadTableFactor ops cat (n + 1) d factor scope)
      (Lexical.loadTableFactor ops cat (n + 1) d factor lex) := by
  cases factor with
  | derived q _ columns =>
    obtain ⟨ctes, body, orderBy, tail⟩ := q
    obtain ⟨hctes, hrest⟩ := List.append_eq_nil_iff.1 h
    obtain ⟨hbody, horder⟩ := List.append_eq_nil_iff.1 hrest
    rw [Sql.loadTableFactor, Lexical.loadTableFactor]
    refine Related.bind (hn.materializeCtes d hscope hctes) fun inner inner' hinner => ?_
    exact (hn.execQueryBody d hinner hbody horder).bind fun r _ => .refl _
  | pivot table text =>
    rw [Sql.loadTableFactor, Lexical.loadTableFactor]
    have htable : lostFactor m table = [] := h
    exact (hn.loadTableFactor d hscope htable).bind fun docs _ => .refl _
  | nestedJoin _ _ =>
    rw [Sql.loadTableFactor, Lexical.loadTableFactor]
    exact .throw _
  | other text =>
    rw [Sql.loadTableFactor, Lexical.loadTableFactor]
    exact .refl _
  | table name opts =>
    rw [Sql.loadTableFactor, Lexical.loadTableFactor]
    split
    · exact .refl _
    · rename_i hargs
      -- A name that is not lost is bound alike in both scopes.
      have hname := hscope.lookup_eq h (by simpa using hargs)
      dsimp only
      rw [hname]
      exact .refl _

theorem Agrees.loadFrom_succ (hn : Agrees ops cat n) (hjoins : JoinsByName ops)
    {sources : List TableWithJoins} (d : Depth) (hscope : Agree m scope lex)
    (h : lostSources m sources = []) :
    SameResult (Sql.loadFrom ops cat (n + 1) d sources scope)
      (Lexical.loadFrom ops cat (n + 1) d sources lex) := by
  cases sources with
  | nil =>
    rw [Sql.loadFrom, Lexical.loadFrom]
    exact .pure trivial
  | cons source rest =>
    obtain ⟨relation, joins⟩ := source
    have hnames := hscope.sourceTables_eq h
    have hjoinRows (factor : TableFactor) (rows docs : List Object) (op : JoinOp)
        (on : Option Expr) :
        ops.joinRows cat scope (.mk relation joins :: rest) factor rows docs op on =
          ops.joinRows cat lex (.mk relation joins :: rest) factor rows docs op on :=
      hjoins cat scope lex _ factor rows docs op on fun t ht => by rw [hnames t ht]
    rw [Sql.loadFrom, Lexical.loadFrom]
    obtain ⟨hfirst, hrest⟩ := List.forall_mem_cons.1 (lostSources_eq_nil.1 h)
    obtain ⟨hrelation, hown⟩ := List.append_eq_nil_iff.1 hfirst
    refine (hn.loadTableFactor d hscope hrelation).bind fun base _ => ?_
    have hfold {γ : Type} {l : List γ} {g g' : List Object → γ → ReadCx (List Object)}
        (rows : List Object) (hg : ∀ rows, ∀ x ∈ l, SameResult (g rows x) (g' rows x)) :
        SameResult (l.foldlM g rows) (l.foldlM g' rows) :=
      Related.foldlM ⟨rfl, trivial⟩ fun rows rows' hrows x hx => hrows.1 ▸ hg rows x hx
    refine Same.bind (hfold _ ?_) fun rows _ => hfold _ ?_
    · rintro rows ⟨relation', joins'⟩ hmem
      have hfactor := (List.append_eq_nil_iff.1 (hrest _ hmem)).1
      refine (hn.loadTableFactor d hscope hfactor).bind fun docs _ => ?_
      rw [hjoinRows]
      exact .refl _
    · rintro rows ⟨relation', op, on⟩ hmem
      have hjoin : lostJoin m (.mk relation' op on) = [] := by
        rcases List.mem_append.1 hmem with hin | hother
        · exact lostJoins_eq_nil.1 hown _ hin
        · obtain ⟨⟨relation'', joins'⟩, hsource, hin⟩ := List.mem_flatMap.1 hother
          exact lostJoins_eq_nil.1 (List.append_eq_nil_iff.1 (hrest _ hsource)).2 _ hin
      have hfactor := (List.append_eq_nil_iff.1 hjoin).1
      cases op with
      | apply outer => exact .refl _
      | _ =>
        refine (hn.loadTableFactor d hscope hfactor).bind fun docs _ => ?_
        rw [hjoinRows]
        exact .refl _

theorem mapM_same {α β : Type} {l : List α} {g g' : α → ReadCx β}
    (h : ∀ x ∈ l, SameResult (g x) (g' x)) : SameResult (l.mapM g) (l.mapM g') :=
  Same.mono (Same.mapM h) fun _ _ => trivial

theorem attempt_same {α : Type} {x y : ReadCx α} {Q : α → Prop} (h : Same Q x y) :
    SameResult (attempt x) (attempt y) := by
  rw [h.eq]
  exact .refl _

theorem whereRows_same {eval eval' : Object → Expr → ReadCx Value} {selection : Option Expr}
    (h : ∀ e ∈ selection, ∀ doc, SameResult (eval doc e) (eval' doc e)) (rows : List Object) :
    SameResult (whereRows eval selection rows) (whereRows eval' selection rows) := by
  cases selection with
  | none => exact .refl _
  | some e =>
    refine Same.bind (mapM_same fun doc _ => ?_) fun kept _ => .pure trivial
    exact (h e rfl doc).bind fun v _ => .pure trivial

theorem qualifyRows_same {sources : List TableWithJoins} {projection groupBy : List Expr}
    {selection qualify having : Option Expr} {shape : SelectShape}
    {eval eval' : Object → Expr → ReadCx Value} {resolve resolve' : Object → Expr → ReadCx Expr}
    (heval : ∀ e ∈ projection, ∀ doc, SameResult (eval doc e) (eval' doc e))
    (hresolve : ∀ e ∈ qualify, ∀ doc, SameExpr m (resolve doc e) (resolve' doc e))
    (rows : List Object) :
    SameResult
      (qualifyRows ops (.mk sources projection selection qualify groupBy having shape) eval
        resolve rows)
      (qualifyRows ops (.mk sources projection selection qualify groupBy having shape) eval'
        resolve' rows) := by
  cases qualify with
  | none => exact .refl _
  | some qe =>
    refine Same.bind (mapM_same fun doc _ => ?_) fun kept _ => .pure trivial
    refine Same.bind (mapM_same fun e he => attempt_same (heval e he doc)) fun projected _ => ?_
    exact (attempt_same (hresolve qe rfl doc)).bind fun e _ => .pure trivial

theorem lostSelect_eq_nil {sources : List TableWithJoins} {projection groupBy : List Expr}
    {selection qualify having : Option Expr} {shape : SelectShape} :
    lostSelect m (.mk sources projection selection qualify groupBy having shape) = [] ↔
      lostSources m sources = [] ∧ lostExprs m projection = [] ∧ lostOpt m selection = [] ∧
      lostOpt m qualify = [] ∧ lostExprs m groupBy = [] ∧ lostOpt m having = [] := by
  simp only [lostSelect, List.append_eq_nil_iff]

theorem Agrees.execPlainSelect_succ (hn : Agrees ops cat n) {ctes : List Cte} {body : SetExpr}
    {orderBy : List Expr} {tail : Tail} {sel : Select} (d : Depth) (rows : List Object)
    (preWindowed : Bool) (hlex : Below m lex) (h : lostSelect m sel = [])
    (horder : lostExprs m orderBy = []) :
    SameResult (Sql.execPlainSelect ops cat (n + 1) d (.mk ctes body orderBy tail) sel rows
        preWindowed)
      (Lexical.execPlainSelect ops cat (n + 1) d lex (.mk ctes body orderBy tail) sel rows
        preWindowed) := by
  obtain ⟨sources, projection, selection, qualify, groupBy, having, shape⟩ := sel
  obtain ⟨-, hprojection, -, hqualify, -, -⟩ := lostSelect_eq_nil.1 h
  have hvalue (e : Expr) (he : e ∈ projection) (doc : Object) :=
    hn.evalRow d (.mk sources projection selection qualify groupBy having shape)
      (fromListNames sources) doc hlex (lostExprs_eq_nil.1 hprojection e he)
  rw [Sql.execPlainSelect, Lexical.execPlainSelect]
  refine Same.andThen _ fun docs => ?_
  refine Same.bind (qualifyRows_same (m := m) hvalue (fun e he doc => ?_) docs) fun docs _ => ?_
  · exact hn.substExprRow d _ doc hlex (lostOpt_eq_nil.1 hqualify e he)
  refine Same.bind (mapM_same fun doc _ => ?_) fun out _ => ?_
  · exact Same.bind (mapM_same fun e he => hvalue e he doc) fun values _ => .pure trivial
  refine Same.andThen _ fun out => ?_
  split
  · exact .pure trivial
  · refine Same.bind (mapM_same fun o ho => ?_) fun keys _ => .refl _
    split
    · exact .pure trivial
    · refine Same.map (mapM_same fun doc _ => ?_) fun _ _ => trivial
      exact hn.evalRow d _ _ doc hlex (lostExprs_eq_nil.1 horder o ho)

theorem Agrees.filterSelect_succ (hn : Agrees ops cat n) {ctes : List Cte} {body : SetExpr}
    {orderBy : List Expr} {tail : Tail} {sel : Select} (d : Depth) (rows : List Object)
    (hlex : Below m lex) (h : lostSelect m sel = []) (horder : lostExprs m orderBy = []) :
    SameResult (Sql.filterSelect ops cat (n + 1) d (.mk ctes body orderBy tail) sel rows)
      (Lexical.filterSelect ops cat (n + 1) d lex (.mk ctes body orderBy tail) sel rows) := by
  obtain ⟨sources, projection, selection, qualify, groupBy, having, shape⟩ := sel
  obtain ⟨-, -, hselection, -, -, -⟩ := lostSelect_eq_nil.1 h
  rw [Sql.filterSelect, Lexical.filterSelect]
  refine Same.bind (whereRows_same (fun e he doc => ?_) _) fun rows _ => ?_
  · exact hn.evalRow d _ _ doc hlex (lostOpt_eq_nil.1 hselection e he)
  split
  · exact .refl _
  · split
    · exact .throw _
    · exact hn.execPlainSelect d rows false hlex h horder

theorem Agrees.scanSelect_succ (hn : Agrees ops cat n) {ctes : List Cte} {body : SetExpr}
    {orderBy : List Expr} {tail : Tail} {sel : Select} (d : Depth) (fast : Option FastRows)
    (hscope : Agree m scope lex) (h : lostSelect m sel = []) (horder : lostExprs m orderBy = []) :
    SameResult (Sql.scanSelect ops cat (n + 1) d (.mk ctes body orderBy tail) sel scope fast)
      (Lexical.scanSelect ops cat (n + 1) d (.mk ctes body orderBy tail) sel lex fast) := by
  obtain ⟨sources, projection, selection, qualify, groupBy, having, shape⟩ := sel
  obtain ⟨hsources, -⟩ := lostSelect_eq_nil.1 h
  cases fast with
  | none =>
    rw [Sql.scanSelect, Lexical.scanSelect]
    exact (hn.loadFrom d hscope hsources).bind fun rows _ =>
      hn.filterSelect d rows hscope.below h horder
  | some fast =>
    cases fast with
    | counted r =>
      rw [Sql.scanSelect, Lexical.scanSelect]
      exact .pure trivial
    | windowed rows =>
      rw [Sql.scanSelect, Lexical.scanSelect]
      exact hn.execPlainSelect d rows true hscope.below h horder
    | probed rows =>
      rw [Sql.scanSelect, Lexical.scanSelect]
      exact hn.filterSelect d rows hscope.below h horder

theorem tryFast_eq (hscope : Agree m scope lex) {sources : List TableWithJoins}
    (h : lostSources m sources = []) (query : Query) (sel : Select) :
    tryFast ops cat scope sources query sel = tryFast ops cat lex sources query sel := by
  unfold tryFast
  rw [hscope.soleTable_eq cat h]

theorem Agrees.substSources (hn : Agrees ops cat n) {sources : List TableWithJoins} (d : Depth)
    (outer : List String) (hlex : Below m lex) (h : lostSources m sources = []) :
    Same (fun sources' => lostSources m sources' = [])
      (sources.mapM fun source => match source with
        | .mk relation joins => do
          let joins ← joins.mapM fun join => match join with
            | .mk relation op on => do
              let on ← optM (Sql.substExpr ops cat n d outer false) on
              return Join.mk relation op on
          return TableWithJoins.mk relation joins)
      (sources.mapM fun source => match source with
        | .mk relation joins => do
          let joins ← joins.mapM fun join => match join with
            | .mk relation op on => do
              let on ← optM (Lexical.substExpr ops cat n d lex outer false) on
              return Join.mk relation op on
          return TableWithJoins.mk relation joins) := by
  refine Same.mono (Same.mapM fun source hsource => ?_) fun _ h' => lostSources_eq_nil.2 h'
  obtain ⟨relation, joins⟩ := source
  obtain ⟨hrelation, hjoins⟩ := List.append_eq_nil_iff.1 (lostSources_eq_nil.1 h _ hsource)
  refine Same.bind (Same.mapM (R := fun j => lostJoin m j = []) fun join hjoin => ?_)
    fun joins' hjoins' => ?_
  · obtain ⟨relation', op, on⟩ := join
    obtain ⟨hrelation', hon⟩ := List.append_eq_nil_iff.1 (lostJoins_eq_nil.1 hjoins _ hjoin)
    refine (hn.substOpt d outer false hlex hon).bind fun on' hon' => ?_
    exact .pure (List.append_eq_nil_iff.2 ⟨hrelation', hon'⟩)
  · exact .pure (List.append_eq_nil_iff.2 ⟨hrelation, lostJoins_eq_nil.2 hjoins'⟩)

theorem Agrees.execSelect_succ (hn : Agrees ops cat n) {orderBy : List Expr} {sel : Select}
    (d : Depth) (tail : Tail) (hscope : Agree m scope lex) (h : lostSelect m sel = [])
    (horder : lostExprs m orderBy = []) :
    SameResult (Sql.execSelect ops cat (n + 1) d orderBy tail sel scope)
      (Lexical.execSelect ops cat (n + 1) d orderBy tail sel lex) := by
  obtain ⟨sources, projection, selection, qualify, groupBy, having, shape⟩ := sel
  obtain ⟨hsources, hprojection, hselection, hqualify, hgroup, hhaving⟩ := lostSelect_eq_nil.1 h
  have hlex := hscope.below
  rw [Sql.execSelect, Lexical.execSelect]
  refine Same.andThen _ fun _ => ?_
  refine (hn.substOpt d _ true hlex hselection).bind fun selection' hselection' => ?_
  refine (hn.substOpt d _ true hlex hqualify).bind fun qualify' hqualify' => ?_
  refine (hn.substSources d _ hlex hsources).bind fun sources' hsources' => ?_
  refine (hn.substExprs d _ true hlex horder).bind fun orderBy' horder' => ?_
  refine (hn.substExprs d _ true hlex hprojection).bind fun projection' hprojection' => ?_
  refine (hn.substExprs d _ false hlex hgroup).bind fun groupBy' hgroup' => ?_
  refine (hn.substOpt d _ false hlex hhaving).bind fun having' hhaving' => ?_
  have hsel : lostSelect m
      (.mk sources' projection' selection' qualify' groupBy' having' shape) = [] :=
    lostSelect_eq_nil.2 ⟨hsources', hprojection', hselection', hqualify', hgroup', hhaving'⟩
  split
  · exact .refl _
  · refine Same.andThen _ fun _ => ?_
    rw [tryFast_eq hscope hsources']
    exact Same.andThen _ fun fast => hn.scanSelect d fast hscope hsel horder'

theorem Agrees.execQueryBody_succ (hn : Agrees ops cat n) {ctes : List Cte} {body : SetExpr}
    {orderBy : List Expr} {tail : Tail} (d : Depth) (hscope : Agree m scope lex)
    (h : lostBody m body = []) (horder : lostExprs m orderBy = []) :
    SameResult (Sql.execQueryBody ops cat (n + 1) d (.mk ctes body orderBy tail) scope)
      (Lexical.execQueryBody ops cat (n + 1) d (.mk ctes body orderBy tail) lex) := by
  cases body with
  | select s =>
    obtain ⟨sources, projection, selection, qualify, groupBy, having, shape⟩ := s
    rw [Sql.execQueryBody, Lexical.execQueryBody]
    refine Same.andThen _ fun rewritten => ?_
    obtain ⟨tail', shape'⟩ := rewritten
    exact Same.andThen _ fun _ => hn.execSelect d tail' hscope h horder
  | query q =>
    obtain ⟨inner, innerBody, innerOrder, innerTail⟩ := q
    obtain ⟨hctes, hrest⟩ := List.append_eq_nil_iff.1 h
    obtain ⟨hbody, hinner⟩ := List.append_eq_nil_iff.1 hrest
    rw [Sql.execQueryBody, Lexical.execQueryBody]
    refine Same.andThen _ fun _ => ?_
    exact Related.bind (hn.materializeCtes d hscope hctes) fun scope' lex' hscope' =>
      hn.execQueryBody d hscope' hbody hinner
  | setOp op quantifier left right =>
    obtain ⟨hleft, hright⟩ := List.append_eq_nil_iff.1 h
    rw [Sql.execQueryBody, Lexical.execQueryBody]
    refine Same.andThen _ fun _ => ?_
    refine (hn.execQueryBody d hscope hleft rfl).bind fun l _ => ?_
    exact (hn.execQueryBody d hscope hright rfl).bind fun r _ => .refl _
  | values widths cells =>
    rw [Sql.execQueryBody, Lexical.execQueryBody]
    refine Same.andThen _ fun _ => ?_
    exact (hn.substExprs d [] false hscope.below h).bind fun cells' _ => .refl _
  | other text =>
    rw [Sql.execQueryBody, Lexical.execQueryBody]
    exact .throw _

theorem agrees_zero : Agrees ops cat 0 where
  substExpr _ _ _ _ _ := .throw _
  substExprRow _ _ _ _ _ := .throw _
  resolveNode _ _ _ := .throw _
  evalRow _ _ _ _ _ _ := .throw _
  subqueryResult _ _ _ := .throw _
  execQuery _ _ _ := .throw _
  materializeCtes _ _ _ := .throw _
  recursiveCte _ _ _ _ _ := .throw _
  loadTableFactor _ _ _ := .throw _
  loadFrom _ _ _ := .throw _
  execPlainSelect _ _ _ _ _ _ := .throw _
  filterSelect _ _ _ _ _ := .throw _
  scanSelect _ _ _ _ _ := .throw _
  execSelect _ _ _ _ _ := .throw _
  execQueryBody _ _ _ _ := .throw _

theorem agrees (hjoins : JoinsByName ops) (n : ℕ) : Agrees ops cat n := by
  induction n with
  | zero => exact agrees_zero
  | succ n hn =>
    exact ⟨hn.substExpr_succ, hn.substExprRow_succ, hn.resolveNode_succ, hn.evalRow_succ,
      hn.subqueryResult_succ, hn.execQuery_succ, hn.materializeCtes_succ, hn.recursiveCte_succ,
      hn.loadTableFactor_succ, hn.loadFrom_succ hjoins, hn.execPlainSelect_succ,
      hn.filterSelect_succ, hn.scanSelect_succ, hn.execSelect_succ, hn.execQueryBody_succ⟩

/-- A query that loses no name means what it means lexically. -/
theorem scoped_lexical (hjoins : JoinsByName ops) {q : Query} (h : Scoped q) (n : ℕ)
    (d : Depth) : execQuery ops cat n d q = Lexical.execQuery ops cat n d [] q :=
  ((agrees hjoins n).execQuery d .nil h).eq

end Exec

/-! ## Queries -/

/-- `SELECT a FROM` an item, below a WITH. -/
def selectBelow (ctes : List Cte) (factor : TableFactor) (item : Expr) : Query :=
  .mk ctes (.select (.mk [.mk factor []] [item] none none [] none { items := ["a"] })) [] {}

/-- `WITH c AS (SELECT a FROM s), e AS (SELECT a FROM c)
SELECT a FROM (SELECT a FROM e) x`. -/
def nestedNames : Query :=
  selectBelow [.mk "c" [] (selectFrom "a" ["s"]), .mk "e" [] (selectFrom "a" ["c"])]
    (.derived (selectFrom "a" ["e"]) (some "x") []) (.atom (.ident "a"))

theorem scoped_lexical_nestedNames :
    JoinsByName plainOps ∧ Scoped nestedNames ∧ ∀ cat n d,
      execQuery plainOps cat n d nestedNames =
        Lexical.execQuery plainOps cat n d [] nestedNames := by
  have hjoins : JoinsByName plainOps := fun _ _ _ _ _ _ _ _ _ _ => rfl
  have hscoped : Scoped nestedNames := by
    unfold Scoped
    decide
  exact ⟨hjoins, hscoped, fun cat n d => scoped_lexical hjoins hscoped n d⟩

/-- `WITH c AS (SELECT a FROM s) SELECT (SELECT a FROM c) FROM c`. -/
def subqueryName : Query :=
  selectBelow [.mk "c" [] (selectFrom "a" ["s"])] (.table ["c"] {})
    (.subquery (selectFrom "a" ["c"]))

/-- `WITH e AS (WITH c AS (SELECT a FROM s) SELECT a FROM c) SELECT a FROM e`. -/
def ownWith : Query :=
  selectBelow [.mk "e" [] (selectBelow [.mk "c" [] (selectFrom "a" ["s"])] (.table ["c"] {})
    (.atom (.ident "a")))] (.table ["e"] {}) (.atom (.ident "a"))

/-- Tables `s` and `c`, each with one row. -/
def twoTables : Catalog := [("s", ⟨["a"], none⟩), ("c", ⟨["a"], none⟩)]

def twoRows (t : String) : Rows :=
  if t = "s" then [(0, [("a", .int 1)])] else [(0, [("a", .int 2)])]

def isInt (n : ℤ) : Value → Bool
  | .int i => i.toInt = n
  | _ => false

/-- A query returns one number from the two tables. -/
def returns (n : ℤ) (run : ReadCx QueryResult) : Bool :=
  match run twoRows with
  | .ok ⟨_, [[v]]⟩ => isInt n v
  | _ => false

theorem returns_inj {m n : ℤ} {run : ReadCx QueryResult} (hm : returns m run = true)
    (hn : returns n run = true) : m = n := by
  unfold returns at hm hn
  split at hm
  · rename_i v hrun
    rw [hrun] at hn
    cases v with
    | int i =>
      dsimp only [isInt] at hm hn
      rw [← of_decide_eq_true hm, ← of_decide_eq_true hn]
    | _ => cases hm
  · cases hm

/-- Both queries read the table `c` where they name the CTE of that name. -/
theorem with_name_reads_table :
    returns 2 (execQuery plainOps twoTables 16 {} subqueryName) = true ∧
    returns 1 (Lexical.execQuery plainOps twoTables 16 {} [] subqueryName) = true ∧
    returns 2 (execQuery plainOps twoTables 16 {} ownWith) = true ∧
    returns 1 (Lexical.execQuery plainOps twoTables 16 {} [] ownWith) = true ∧
    ¬∀ q, execQuery plainOps twoTables 16 {} q =
      Lexical.execQuery plainOps twoTables 16 {} [] q := by
  have hcode : returns 2 (execQuery plainOps twoTables 16 {} subqueryName) = true := by
    decide +kernel
  have hlex : returns 1 (Lexical.execQuery plainOps twoTables 16 {} [] subqueryName) = true := by
    decide +kernel
  refine ⟨hcode, hlex, by decide +kernel, by decide +kernel, fun hall => ?_⟩
  rw [hall] at hcode
  exact absurd (returns_inj hcode hlex) (by decide)

end Docsql.Sql
