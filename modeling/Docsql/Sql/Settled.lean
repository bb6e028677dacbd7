import Docsql.Sql.Reads

/-!
# What settles the outcome of a query

By induction on the fuel: every function of the executor looks up only tables that
are reached from the names of the syntax it is given, and what it hands on names
no others.
-/

namespace Docsql.Sql

/-- Names reached from a name through views. -/
inductive Reaches (cat : Catalog) : String → String → Prop where
  | refl (t : String) : Reaches cat t t
  | view {t s r : String} {columns : List String} {q : Query}
      (hview : cat.get t = some ⟨columns, some (.ok q)⟩) (hname : s ∈ readsQuery [] q)
      (hrest : Reaches cat s r) : Reaches cat t r

/-- A table with rows of its own. -/
def IsBase (cat : Catalog) (t : String) : Prop := ∃ columns, cat.get t = some ⟨columns, none⟩

/-- All tables with rows that a name leads to are in `S`. -/
def Covered (cat : Catalog) (S : Set String) (t : String) : Prop :=
  ∀ r, Reaches cat t r → IsBase cat r → r ∈ S

def Within (cat : Catalog) (S : Set String) (names : List String) : Prop :=
  ∀ t ∈ names, Covered cat S t

def Bound (scope : List String) (ctes : Ctes) : Prop :=
  ∀ t ∈ scope, (List.lookup t ctes).isSome

section Names

variable {cat : Catalog} {S : Set String} {scope : List String}

theorem Covered.of_view {t : String} {columns : List String} {q : Query} (h : Covered cat S t)
    (hview : cat.get t = some ⟨columns, some (.ok q)⟩) : Within cat S (readsQuery [] q) :=
  fun _ hs r hr => h r (.view hview hs hr)

theorem Covered.mem {t : String} {columns : List String} (h : Covered cat S t)
    (hbase : cat.get t = some ⟨columns, none⟩) : t ∈ S :=
  h t (.refl t) ⟨columns, hbase⟩

@[simp] theorem within_nil : Within cat S [] := fun _ h => absurd h List.not_mem_nil

@[simp] theorem within_append {a b : List String} :
    Within cat S (a ++ b) ↔ Within cat S a ∧ Within cat S b := List.forall_mem_append

theorem within_exprs {es : List Expr} :
    Within cat S (readsExprs es) ↔ ∀ e ∈ es, Within cat S (readsExpr e) := by
  induction es with
  | nil => simp [readsExprs]
  | cons e es ih => simp [readsExprs, ih]

theorem within_opt {e : Option Expr} :
    Within cat S (readsOpt e) ↔ ∀ e' ∈ e, Within cat S (readsExpr e') := by
  cases e with
  | none => simp [readsOpt]
  | some e => simp [readsOpt]

def readsJoin (scope : List String) : Join → List String
  | .mk relation _ on => readsFactor scope relation ++ readsOpt on

def readsSource (scope : List String) : TableWithJoins → List String
  | .mk relation joins => readsFactor scope relation ++ readsJoins scope joins

theorem within_joins {joins : List Join} :
    Within cat S (readsJoins scope joins) ↔ ∀ j ∈ joins, Within cat S (readsJoin scope j) := by
  induction joins with
  | nil => simp [readsJoins]
  | cons j joins ih =>
    cases j
    simp [readsJoins, readsJoin, ih, and_assoc]

theorem within_sources {sources : List TableWithJoins} :
    Within cat S (readsSources scope sources) ↔
      ∀ s ∈ sources, Within cat S (readsSource scope s) := by
  induction sources with
  | nil => simp [readsSources]
  | cons s sources ih =>
    cases s
    simp [readsSources, readsSource, ih, and_assoc]

theorem within_lits (vs : List Value) : Within cat S (readsExprs (vs.map .lit)) := by
  rw [within_exprs]
  intro e he
  obtain ⟨v, -, rfl⟩ := List.mem_map.1 he
  exact within_nil

theorem within_chain {op : String} {es : List Expr} (h : ∀ e ∈ es, Within cat S (readsExpr e)) :
    Within cat S (readsExpr (chain op es)) := by
  cases es with
  | nil => exact within_nil
  | cons e es =>
    obtain ⟨hacc, hes⟩ := List.forall_mem_cons.1 h
    unfold chain
    clear h
    induction es generalizing e with
    | nil => exact hacc
    | cons e' es ih =>
      refine ih _ ?_ fun e'' he'' => hes e'' (List.mem_cons_of_mem _ he'')
      simp [readsExpr, readsExprs, hacc, hes e' List.mem_cons_self]

theorem within_quantifiedChain {any : Bool} {op : String} {left : Expr} {vs : List Value}
    (h : Within cat S (readsExpr left)) :
    Within cat S (readsExpr (quantifiedChain any op left vs)) := by
  have heqs (b : Bool) : ∀ c ∈ (vs.map fun v => Expr.node (.binary op) [left, .lit v]).map
      (eqBool b), Within cat S (readsExpr c) := by
    intro c hc
    obtain ⟨c', hc', rfl⟩ := List.mem_map.1 hc
    obtain ⟨v, -, rfl⟩ := List.mem_map.1 hc'
    simp [eqBool, readsExpr, readsExprs, Expr.lit, h]
  unfold quantifiedChain
  dsimp only
  split
  · exact within_nil
  · rw [readsExpr, within_exprs]
    intro e he
    simp only [List.mem_cons, List.not_mem_nil, or_false] at he
    rcases he with rfl | rfl | rfl | rfl | rfl
    · exact within_chain (heqs any)
    · exact within_nil
    · exact within_chain (heqs !any)
    · exact within_nil
    · exact within_nil

end Names

section Exec

variable (ops : RowOps) (cat : Catalog) (S : Set String)

/-- Looks up tables in `S` only. -/
abbrev Settled {α : Type} (m : ReadCx α) : Prop := Lookup.OnlyOn S m fun _ => True

/-- Looks up tables in `S` only, and gives an expression that does. -/
abbrev SettledExpr (m : ReadCx Expr) : Prop :=
  Lookup.OnlyOn S m fun e => Within cat S (readsExpr e)

/-- The executor with `n` units of fuel, function by function. -/
structure Settles (n : ℕ) : Prop where
  substExpr : ∀ {e : Expr} (d : Depth) (outer : List String) (rowcorr : Bool),
    Within cat S (readsExpr e) → SettledExpr cat S (substExpr ops cat n d outer rowcorr e)
  substExprRow : ∀ {e : Expr} (d : Depth) (outer : List String) (doc : Object),
    Within cat S (readsExpr e) → SettledExpr cat S (substExprRow ops cat n d outer doc e)
  resolveNode : ∀ {e : Expr} (d : Depth),
    Within cat S (readsExpr e) → SettledExpr cat S (resolveNode ops cat n d e)
  evalRow : ∀ {e : Expr} (d : Depth) (sel : Select) (outer : List String) (doc : Object),
    Within cat S (readsExpr e) → Settled S (evalRow ops cat n d sel outer doc e)
  subqueryResult : ∀ {q : Query} (d : Depth),
    Within cat S (readsQuery [] q) → Settled S (subqueryResult ops cat n d q)
  execQuery : ∀ {q : Query} (d : Depth),
    Within cat S (readsQuery [] q) → Settled S (execQuery ops cat n d q)
  materializeCtes : ∀ {ctes : List Cte} {scope : List String} {base : Ctes} (d : Depth),
    Bound scope base → Within cat S (readsCtes scope ctes) →
      Lookup.OnlyOn S (materializeCtes ops cat n d ctes base) (Bound (scope ++ cteNames ctes))
  recursiveCte : ∀ {ctes : List Cte} {body : SetExpr} {orderBy : List Expr} {tail : Tail}
    {scope : List String} {base : Ctes} (d : Depth) (name : String) (columns : List String),
    Bound scope base → Within cat S (readsBody scope body) →
      Settled S (recursiveCte ops cat n d name columns (.mk ctes body orderBy tail) base)
  loadTableFactor : ∀ {factor : TableFactor} {scope : List String} {base : Ctes} (d : Depth),
    Bound scope base → Within cat S (readsFactor scope factor) →
      Settled S (loadTableFactor ops cat n d factor base)
  loadFrom : ∀ {sources : List TableWithJoins} {scope : List String} {base : Ctes} (d : Depth),
    Bound scope base → Within cat S (readsSources scope sources) →
      Settled S (loadFrom ops cat n d sources base)
  execPlainSelect : ∀ {ctes : List Cte} {body : SetExpr} {orderBy : List Expr} {tail : Tail}
    {scope : List String} {sel : Select} (d : Depth) (rows : List Object) (preWindowed : Bool),
    Within cat S (readsSelect scope sel) → Within cat S (readsExprs orderBy) →
      Settled S (execPlainSelect ops cat n d (.mk ctes body orderBy tail) sel rows preWindowed)
  filterSelect : ∀ {ctes : List Cte} {body : SetExpr} {orderBy : List Expr} {tail : Tail}
    {scope : List String} {sel : Select} (d : Depth) (rows : List Object),
    Within cat S (readsSelect scope sel) → Within cat S (readsExprs orderBy) →
      Settled S (filterSelect ops cat n d (.mk ctes body orderBy tail) sel rows)
  scanSelect : ∀ {ctes : List Cte} {body : SetExpr} {orderBy : List Expr} {tail : Tail}
    {scope : List String} {base : Ctes} {sel : Select} (d : Depth) (fast : Option FastRows),
    Bound scope base → Within cat S (readsSelect scope sel) → Within cat S (readsExprs orderBy) →
      Settled S (scanSelect ops cat n d (.mk ctes body orderBy tail) sel base fast)
  execSelect : ∀ {orderBy : List Expr} {sel : Select} {scope : List String} {base : Ctes}
    (d : Depth) (tail : Tail),
    Bound scope base → Within cat S (readsSelect scope sel) → Within cat S (readsExprs orderBy) →
      Settled S (execSelect ops cat n d orderBy tail sel base)
  execQueryBody : ∀ {ctes : List Cte} {body : SetExpr} {orderBy : List Expr} {tail : Tail}
    {scope : List String} {base : Ctes} (d : Depth),
    Bound scope base → Within cat S (readsBody scope body) → Within cat S (readsExprs orderBy) →
      Settled S (execQueryBody ops cat n d (.mk ctes body orderBy tail) base)

variable {ops cat S} {n : ℕ}

open Lookup

theorem optM_onlyOn {α β : Type} {f : α → ReadCx β} {Q : β → Prop} {a : Option α}
    (h : ∀ x ∈ a, OnlyOn S (f x) Q) : OnlyOn S (optM f a) fun b => ∀ y ∈ b, Q y := by
  cases a with
  | none => exact .pure fun y hy => by cases hy
  | some a =>
    refine (h a rfl).map fun b hb y hy => ?_
    cases hy
    exact hb

theorem attempt_onlyOn {α : Type} {m : ReadCx α} {Q : α → Prop} (h : OnlyOn S m Q) :
    Settled S (attempt m) where
  agree db db' hdb := congrArg Except.ok (h.agree db db' hdb)
  result _ _ _ := trivial

theorem lift_settled {α : Type} (x : Except String α) :
    Settled S (Lookup.lift x : ReadCx α) := .lift fun _ _ => trivial

theorem Settles.substExprs (hn : Settles ops cat S n) {es : List Expr} (d : Depth)
    (outer : List String) (rowcorr : Bool) (h : Within cat S (readsExprs es)) :
    OnlyOn S (es.mapM (Sql.substExpr ops cat n d outer rowcorr)) fun es' =>
      Within cat S (readsExprs es') :=
  (OnlyOn.mapM fun e he => hn.substExpr d outer rowcorr (within_exprs.1 h e he)).mono
    fun _ h' => within_exprs.2 h'

theorem Settles.substOpt (hn : Settles ops cat S n) {e : Option Expr} (d : Depth)
    (outer : List String) (rowcorr : Bool) (h : Within cat S (readsOpt e)) :
    OnlyOn S (optM (Sql.substExpr ops cat n d outer rowcorr) e) fun e' =>
      Within cat S (readsOpt e') :=
  (optM_onlyOn fun e' he' => hn.substExpr d outer rowcorr (within_opt.1 h e' he')).mono
    fun _ h' => within_opt.2 h'

theorem Settles.substExpr_succ (hn : Settles ops cat S n) {e : Expr} (d : Depth)
    (outer : List String) (rowcorr : Bool) (h : Within cat S (readsExpr e)) :
    SettledExpr cat S (Sql.substExpr ops cat (n + 1) d outer rowcorr e) := by
  cases e with
  | atom a =>
    rw [Sql.substExpr]
    exact .pure within_nil
  | node k kids =>
    rw [Sql.substExpr]
    exact (hn.substExprs d outer rowcorr h).bind fun _ h' => .pure h'
  | function f args filter withinGroup =>
    rw [Sql.substExpr]
    obtain ⟨hargs, hfilter⟩ := within_append.1 h
    refine (hn.substExprs d outer rowcorr hargs).bind fun args' hargs' => ?_
    refine (hn.substOpt d outer rowcorr hfilter).bind fun filter' hfilter' => ?_
    exact .pure (within_append.2 ⟨hargs', hfilter'⟩)
  | trim e what characters =>
    rw [Sql.substExpr]
    obtain ⟨he, hrest⟩ := within_append.1 h
    obtain ⟨hwhat, hchars⟩ := within_append.1 hrest
    refine (hn.substExpr d outer rowcorr he).bind fun e' he' => ?_
    refine (hn.substOpt d outer rowcorr hwhat).bind fun what' hwhat' => ?_
    refine (hn.substExprs d outer rowcorr hchars).bind fun chars' hchars' => ?_
    exact .pure (within_append.2 ⟨he', within_append.2 ⟨hwhat', hchars'⟩⟩)
  | other text kids =>
    rw [Sql.substExpr]
    exact (hn.substExprs d outer rowcorr h).bind fun _ h' => .pure h'
  | subquery q =>
    rw [Sql.substExpr]
    split
    · split
      · exact .pure h
      · exact .throw _
    · exact (hn.subqueryResult d h).andThen fun r => (lift_settled _).andThen fun v =>
        .pure within_nil
  | inSubquery e q negated =>
    rw [Sql.substExpr]
    obtain ⟨he, hq⟩ := within_append.1 h
    split
    · split
      · refine (hn.substExpr d outer rowcorr he).bind fun e' he' => ?_
        exact .pure (within_append.2 ⟨he', hq⟩)
      · exact .throw _
    · refine (hn.subqueryResult d hq).andThen fun r => (lift_settled _).andThen fun vs => ?_
      exact .pure (within_append.2 ⟨he, within_lits vs⟩)
  | «exists» q negated =>
    rw [Sql.substExpr]
    split
    · split
      · exact .pure h
      · exact .throw _
    · exact (hn.subqueryResult d h).andThen fun r => .pure within_nil
  | quantified any op left q =>
    rw [Sql.substExpr]
    obtain ⟨hleft, hq⟩ := within_append.1 h
    refine (hn.substExpr d outer rowcorr hleft).bind fun left' hleft' => ?_
    split
    · split
      · exact .pure (within_append.2 ⟨hleft', hq⟩)
      · exact .throw _
    · refine (hn.subqueryResult d hq).andThen fun r => (lift_settled _).andThen fun vs => ?_
      split
      · exact .pure (within_append.2 ⟨hleft', within_lits vs⟩)
      · exact .pure (within_quantifiedChain hleft')

theorem Settles.substRows (hn : Settles ops cat S n) {es : List Expr} (d : Depth)
    (outer : List String) (doc : Object) (h : Within cat S (readsExprs es)) :
    OnlyOn S (es.mapM (Sql.substExprRow ops cat n d outer doc)) fun es' =>
      Within cat S (readsExprs es') :=
  (OnlyOn.mapM fun e he => hn.substExprRow d outer doc (within_exprs.1 h e he)).mono
    fun _ h' => within_exprs.2 h'

theorem Settles.substRowOpt (hn : Settles ops cat S n) {e : Option Expr} (d : Depth)
    (outer : List String) (doc : Object) (h : Within cat S (readsOpt e)) :
    OnlyOn S (optM (Sql.substExprRow ops cat n d outer doc) e) fun e' =>
      Within cat S (readsOpt e') :=
  (optM_onlyOn fun e' he' => hn.substExprRow d outer doc (within_opt.1 h e' he')).mono
    fun _ h' => within_opt.2 h'

theorem readsQuery_bindOuter (outer : List String) (doc : Object) (q : Query) :
    readsQuery [] (bindOuter ops outer doc q) = readsQuery [] q := readsQuery_bind _ _ _ q

theorem Settles.substExprRow_succ (hn : Settles ops cat S n) {e : Expr} (d : Depth)
    (outer : List String) (doc : Object) (h : Within cat S (readsExpr e)) :
    SettledExpr cat S (Sql.substExprRow ops cat (n + 1) d outer doc e) := by
  cases e with
  | atom a =>
    rw [Sql.substExprRow]
    exact .pure within_nil
  | node k kids =>
    rw [Sql.substExprRow]
    exact (hn.substRows d outer doc h).bind fun _ h' => .pure h'
  | function f args filter withinGroup =>
    rw [Sql.substExprRow]
    obtain ⟨hargs, hfilter⟩ := within_append.1 h
    refine (hn.substRows d outer doc hargs).bind fun args' hargs' => ?_
    refine (hn.substRowOpt d outer doc hfilter).bind fun filter' hfilter' => ?_
    exact .pure (within_append.2 ⟨hargs', hfilter'⟩)
  | trim e what characters =>
    rw [Sql.substExprRow]
    obtain ⟨he, hrest⟩ := within_append.1 h
    obtain ⟨hwhat, hchars⟩ := within_append.1 hrest
    refine (hn.substExprRow d outer doc he).bind fun e' he' => ?_
    refine (hn.substRowOpt d outer doc hwhat).bind fun what' hwhat' => ?_
    refine (hn.substRows d outer doc hchars).bind fun chars' hchars' => ?_
    exact .pure (within_append.2 ⟨he', within_append.2 ⟨hwhat', hchars'⟩⟩)
  | other text kids =>
    rw [Sql.substExprRow]
    exact (hn.substRows d outer doc h).bind fun _ h' => .pure h'
  | subquery q =>
    rw [Sql.substExprRow]
    refine hn.resolveNode d ?_
    rwa [readsExpr, readsQuery_bindOuter]
  | «exists» q negated =>
    rw [Sql.substExprRow]
    refine hn.resolveNode d ?_
    rwa [readsExpr, readsQuery_bindOuter]
  | inSubquery e q negated =>
    rw [Sql.substExprRow]
    obtain ⟨he, hq⟩ := within_append.1 h
    refine (hn.substExprRow d outer doc he).bind fun e' he' => hn.resolveNode d ?_
    rw [readsExpr, readsQuery_bindOuter]
    exact within_append.2 ⟨he', hq⟩
  | quantified any op left q =>
    rw [Sql.substExprRow]
    obtain ⟨hleft, hq⟩ := within_append.1 h
    refine (hn.substExprRow d outer doc hleft).bind fun left' hleft' => hn.resolveNode d ?_
    rw [readsExpr, readsQuery_bindOuter]
    exact within_append.2 ⟨hleft', hq⟩

theorem Settles.resolveNode_succ (hn : Settles ops cat S n) {e : Expr} (d : Depth)
    (h : Within cat S (readsExpr e)) :
    SettledExpr cat S (Sql.resolveNode ops cat (n + 1) d e) := by
  rw [Sql.resolveNode]
  split
  · exact hn.substExpr _ _ _ h
  · exact .throw _

theorem Settles.evalRow_succ (hn : Settles ops cat S n) {e : Expr} (d : Depth) (sel : Select)
    (outer : List String) (doc : Object) (h : Within cat S (readsExpr e)) :
    Settled S (Sql.evalRow ops cat (n + 1) d sel outer doc e) := by
  rw [Sql.evalRow]
  exact (hn.substExprRow d outer doc h).bind fun _ _ => lift_settled _

theorem Settles.subqueryResult_succ (hn : Settles ops cat S n) {q : Query} (d : Depth)
    (h : Within cat S (readsQuery [] q)) :
    Settled S (Sql.subqueryResult ops cat (n + 1) d q) := by
  rw [Sql.subqueryResult]
  split
  · exact .throw _
  · exact hn.execQuery d h

theorem Settles.execQuery_succ (hn : Settles ops cat S n) {q : Query} (d : Depth)
    (h : Within cat S (readsQuery [] q)) : Settled S (Sql.execQuery ops cat (n + 1) d q) := by
  obtain ⟨ctes, body, orderBy, tail⟩ := q
  obtain ⟨hctes, hrest⟩ := within_append.1 h
  obtain ⟨hbody, horder⟩ := within_append.1 hrest
  rw [Sql.execQuery]
  have hnone : Bound [] [] := fun t ht => absurd ht List.not_mem_nil
  exact (hn.materializeCtes d hnone hctes).bind fun scope hscope =>
    hn.execQueryBody d hscope hbody horder

theorem Bound.cons {scope : List String} {ctes : Ctes} (h : Bound scope ctes) (name : String)
    (docs : List Object) : Bound (scope ++ [name]) ((name, docs) :: ctes) := by
  intro t ht
  rw [List.lookup_cons]
  rcases List.mem_append.1 ht with hold | hnew
  · cases hname : t == name with
    | true => rfl
    | false => exact h t hold
  · rw [List.mem_singleton.1 hnew, beq_self_eq_true]
    rfl

theorem Bound.of_cons {scope : List String} {ctes : Ctes} (h : Bound scope ctes) (name : String)
    (docs : List Object) : Bound scope ((name, docs) :: ctes) :=
  fun t ht => h.cons name docs t (List.mem_append_left _ ht)

theorem Settles.materializeCtes_succ (hn : Settles ops cat S n) {ctes : List Cte}
    {scope : List String} {base : Ctes} (d : Depth) (hbound : Bound scope base)
    (h : Within cat S (readsCtes scope ctes)) :
    OnlyOn S (Sql.materializeCtes ops cat (n + 1) d ctes base)
      (Bound (scope ++ cteNames ctes)) := by
  rw [Sql.materializeCtes]
  induction ctes generalizing scope base with
  | nil =>
    rw [List.foldlM_nil]
    refine .pure ?_
    rwa [cteNames, List.map_nil, List.append_nil]
  | cons c ctes ih =>
    obtain ⟨name, columns, ⟨inner, body, orderBy, tail⟩⟩ := c
    obtain ⟨hown, hrest⟩ := within_append.1 h
    obtain ⟨hbody, horder⟩ := within_append.1 hown
    rw [List.foldlM_cons]
    have hnames : scope ++ cteNames (.mk name columns (.mk inner body orderBy tail) :: ctes) =
        (scope ++ [name]) ++ cteNames ctes := by
      simp [cteNames]
    rw [hnames]
    refine OnlyOn.bind ?_ fun base' hbase' => ih hbase' hrest
    dsimp only
    split
    · refine (hn.recursiveCte d name columns hbound hbody).andThen fun docs => ?_
      exact .pure (hbound.cons name docs)
    · refine (hn.execQueryBody d hbound hbody horder).andThen fun r => ?_
      exact (lift_settled _).andThen fun docs => .pure (hbound.cons name docs)

theorem recursiveRounds_settled {quantifier : String} {columns : List String}
    {arm : List Object → ReadCx QueryResult} (harm : ∀ working, Settled S (arm working)) (k : ℕ)
    (s : Recursion) : Settled S (recursiveRounds ops quantifier columns arm k s) := by
  induction k generalizing s with
  | zero =>
    rw [recursiveRounds]
    split
    · exact .pure trivial
    · exact .throw _
  | succ k ih =>
    rw [recursiveRounds]
    split
    · exact .pure trivial
    · exact (harm _).andThen fun r => (lift_settled _).andThen fun s' => ih s'

theorem Settles.recursiveCte_succ (hn : Settles ops cat S n) {ctes : List Cte} {body : SetExpr}
    {orderBy : List Expr} {tail : Tail} {scope : List String} {base : Ctes} (d : Depth)
    (name : String) (columns : List String) (hbound : Bound scope base)
    (h : Within cat S (readsBody scope body)) :
    Settled S (Sql.recursiveCte ops cat (n + 1) d name columns (.mk ctes body orderBy tail)
      base) := by
  have hrefuse (refused : Prop) [Decidable refused] (early late : String) :
      Settled S (if refused then throw early else throw late : ReadCx (List Object)) := by
    split
    · exact .throw _
    · exact .throw _
  cases body with
  | setOp op quantifier left right =>
    rw [Sql.recursiveCte]
    obtain ⟨hleft, hright⟩ := within_append.1 h
    split
    · exact .throw _
    · split
      · refine (hn.execQueryBody d hbound hleft within_nil).andThen fun anchor => ?_
        refine (lift_settled _).andThen fun s => recursiveRounds_settled (fun working => ?_) _ s
        exact hn.execQueryBody d (hbound.of_cons name working) hright within_nil
      · exact .throw _
  | select _ => exact hrefuse _ _ _
  | query _ => exact hrefuse _ _ _
  | values _ _ => exact hrefuse _ _ _
  | other _ => exact hrefuse _ _ _

theorem mem_lookups {scope name : List String} {opts : TableOpts} {base : Ctes}
    (hbound : Bound scope base) (hargs : opts.args.isSome = false)
    (hdual : isDual (objName name) = false) (hfree : List.lookup (objName name) base = none)
    (hvirtual : isVirtual (qualified name) = false) : objName name ∈ lookups scope name opts := by
  have hscope : objName name ∉ scope := by
    intro hmem
    have hsome := hbound _ hmem
    rw [hfree] at hsome
    cases hsome
  simp [lookups, hargs, hdual, hscope, hvirtual]

theorem Settles.loadTableFactor_succ (hn : Settles ops cat S n) {factor : TableFactor}
    {scope : List String} {base : Ctes} (d : Depth) (hbound : Bound scope base)
    (h : Within cat S (readsFactor scope factor)) :
    Settled S (Sql.loadTableFactor ops cat (n + 1) d factor base) := by
  cases factor with
  | derived q _ columns =>
    obtain ⟨ctes, body, orderBy, tail⟩ := q
    obtain ⟨hctes, hrest⟩ := within_append.1 h
    obtain ⟨hbody, horder⟩ := within_append.1 hrest
    rw [Sql.loadTableFactor]
    refine (hn.materializeCtes d hbound hctes).bind fun inner hinner => ?_
    exact (hn.execQueryBody d hinner hbody horder).andThen fun r => lift_settled _
  | pivot table text =>
    have htable : Within cat S (readsFactor scope table) := h
    rw [Sql.loadTableFactor]
    exact (hn.loadTableFactor d hbound htable).andThen fun docs => lift_settled _
  | nestedJoin _ _ =>
    rw [Sql.loadTableFactor]
    exact .throw _
  | other text =>
    rw [Sql.loadTableFactor]
    exact lift_settled _
  | table name opts =>
    rw [Sql.loadTableFactor]
    split
    · exact lift_settled _
    · rename_i hargs
      refine (lift_settled _).andThen fun _ => ?_
      dsimp only
      split
      · exact .pure trivial
      · rename_i hdual
        split
        · exact .pure trivial
        · rename_i hfree
          split
          · exact lift_settled _
          · rename_i hvirtual
            have hcovered : Covered cat S (objName name) :=
              h _ (mem_lookups hbound (by simpa using hargs) (by simpa using hdual) hfree
                (by simpa using hvirtual))
            split
            · exact .throw _
            · rename_i hbase
              exact (OnlyOn.ask (hcovered.mem hbase)).andThen fun rows => .pure trivial
            · exact .throw _
            · rename_i hview
              split
              · exact (hn.execQuery _ (hcovered.of_view hview)).andThen fun r => .pure trivial
              · exact .throw _

theorem foldlM_settled {α β : Type} {l : List α} {g : β → α → ReadCx β} (b : β)
    (h : ∀ b, ∀ x ∈ l, Settled S (g b x)) : Settled S (l.foldlM g b) :=
  OnlyOn.foldlM trivial fun b _ x hx => h b x hx

theorem mapM_settled {α β : Type} {l : List α} {g : α → ReadCx β}
    (h : ∀ x ∈ l, Settled S (g x)) : Settled S (l.mapM g) :=
  (OnlyOn.mapM h).mono fun _ _ => trivial

/-- What a join loads: APPLY calls a function. -/
def joinRelation : Join → Option TableFactor
  | .mk _ (.apply _) _ => none
  | .mk relation _ _ => some relation

/-- What FROM loads; the conditions of its joins are not looked into. -/
def loadedFactors (sources : List TableWithJoins) : List TableFactor :=
  sources.flatMap fun source => match source with
    | .mk relation joins => relation :: joins.filterMap joinRelation

theorem Settles.loadFrom_factors (hn : Settles ops cat S n) {sources : List TableWithJoins}
    {scope : List String} {base : Ctes} (d : Depth) (hbound : Bound scope base)
    (h : ∀ factor ∈ loadedFactors sources, Within cat S (readsFactor scope factor)) :
    Settled S (Sql.loadFrom ops cat (n + 1) d sources base) := by
  have hload (factor : TableFactor) (hf : factor ∈ loadedFactors sources) :
      Settled S (Sql.loadTableFactor ops cat n d factor base) :=
    hn.loadTableFactor d hbound (h factor hf)
  cases sources with
  | nil =>
    rw [Sql.loadFrom]
    exact .pure trivial
  | cons source rest =>
    obtain ⟨relation, joins⟩ := source
    have hother (factor : TableFactor) (hf : factor ∈ loadedFactors rest) :
        factor ∈ loadedFactors (.mk relation joins :: rest) := List.mem_append_right _ hf
    rw [Sql.loadFrom]
    refine (hload relation (List.mem_append_left _ List.mem_cons_self)).andThen fun docs => ?_
    refine OnlyOn.andThen (foldlM_settled _ ?_) fun rows => foldlM_settled _ ?_
    · rintro rows ⟨relation', joins'⟩ hmem
      have hfactor : relation' ∈ loadedFactors rest :=
        List.mem_flatMap.2 ⟨_, hmem, List.mem_cons_self⟩
      exact (hload _ (hother _ hfactor)).andThen fun docs => lift_settled _
    · rintro rows ⟨relation', op, on⟩ hmem
      have hjoin (r : TableFactor) (hr : joinRelation (.mk relation' op on) = some r) :
          r ∈ loadedFactors (.mk relation joins :: rest) := by
        rcases List.mem_append.1 hmem with hown | hafter
        · refine List.mem_append_left _ (List.mem_cons_of_mem _ ?_)
          exact List.mem_filterMap.2 ⟨_, hown, hr⟩
        · obtain ⟨⟨relation'', joins'⟩, hsource, hin⟩ := List.mem_flatMap.1 hafter
          refine hother r (List.mem_flatMap.2 ⟨_, hsource, List.mem_cons_of_mem _ ?_⟩)
          exact List.mem_filterMap.2 ⟨_, hin, hr⟩
      cases op with
      | apply outer => exact lift_settled _
      | _ => exact (hload _ (hjoin _ rfl)).andThen fun docs => lift_settled _

theorem within_loadedFactors {sources : List TableWithJoins} {scope : List String}
    (h : Within cat S (readsSources scope sources)) :
    ∀ factor ∈ loadedFactors sources, Within cat S (readsFactor scope factor) := by
  intro factor hf
  obtain ⟨⟨relation, joins⟩, hsource, hin⟩ := List.mem_flatMap.1 hf
  obtain ⟨hrelation, hjoins⟩ := within_append.1 (within_sources.1 h _ hsource)
  rcases List.mem_cons.1 hin with rfl | hjoin
  · exact hrelation
  · obtain ⟨⟨relation', op, on⟩, hj, hr⟩ := List.mem_filterMap.1 hjoin
    have hown := (within_append.1 (within_joins.1 hjoins _ hj)).1
    cases op <;> cases hr <;> exact hown

theorem Settles.loadFrom_succ (hn : Settles ops cat S n) {sources : List TableWithJoins}
    {scope : List String} {base : Ctes} (d : Depth) (hbound : Bound scope base)
    (h : Within cat S (readsSources scope sources)) :
    Settled S (Sql.loadFrom ops cat (n + 1) d sources base) :=
  hn.loadFrom_factors d hbound (within_loadedFactors h)

theorem whereRows_settled {eval : Object → Expr → ReadCx Value} {selection : Option Expr}
    (h : ∀ e ∈ selection, ∀ doc, Settled S (eval doc e)) (rows : List Object) :
    Settled S (whereRows eval selection rows) := by
  cases selection with
  | none => exact .pure trivial
  | some e =>
    refine OnlyOn.andThen (mapM_settled fun doc _ => ?_) fun kept => .pure trivial
    exact (h e rfl doc).andThen fun v => .pure trivial

theorem qualifyRows_settled {sources : List TableWithJoins} {projection groupBy : List Expr}
    {selection qualify having : Option Expr} {shape : SelectShape}
    {eval : Object → Expr → ReadCx Value} {resolve : Object → Expr → ReadCx Expr}
    (heval : ∀ e ∈ projection, ∀ doc, Settled S (eval doc e))
    (hresolve : ∀ e ∈ qualify, ∀ doc, Settled S (resolve doc e)) (rows : List Object) :
    Settled S (qualifyRows ops (.mk sources projection selection qualify groupBy having shape)
      eval resolve rows) := by
  cases qualify with
  | none => exact .pure trivial
  | some qe =>
    refine OnlyOn.andThen (mapM_settled fun doc _ => ?_) fun kept => .pure trivial
    refine (mapM_settled fun e he => attempt_onlyOn (heval e he doc)).andThen fun projected => ?_
    exact (attempt_onlyOn (hresolve qe rfl doc)).andThen fun e => .pure trivial

theorem within_select {sources : List TableWithJoins} {projection groupBy : List Expr}
    {selection qualify having : Option Expr} {shape : SelectShape} {scope : List String} :
    Within cat S (readsSelect scope
      (.mk sources projection selection qualify groupBy having shape)) ↔
      Within cat S (readsSources scope sources) ∧ Within cat S (readsExprs projection) ∧
      Within cat S (readsOpt selection) ∧ Within cat S (readsOpt qualify) ∧
      Within cat S (readsExprs groupBy) ∧ Within cat S (readsOpt having) := by
  simp only [readsSelect, within_append]

theorem Settles.execPlainSelect_succ (hn : Settles ops cat S n) {ctes : List Cte}
    {body : SetExpr} {orderBy : List Expr} {tail : Tail} {scope : List String} {sel : Select}
    (d : Depth) (rows : List Object) (preWindowed : Bool)
    (h : Within cat S (readsSelect scope sel)) (horder : Within cat S (readsExprs orderBy)) :
    Settled S (Sql.execPlainSelect ops cat (n + 1) d (.mk ctes body orderBy tail) sel rows
      preWindowed) := by
  obtain ⟨sources, projection, selection, qualify, groupBy, having, shape⟩ := sel
  obtain ⟨-, hprojection, -, hqualify, -, -⟩ := within_select.1 h
  rw [Sql.execPlainSelect]
  refine (lift_settled _).andThen fun docs => ?_
  refine OnlyOn.andThen (qualifyRows_settled ?_ ?_ docs) fun docs => ?_
  · exact fun e he doc => hn.evalRow d _ _ doc (within_exprs.1 hprojection e he)
  · intro e he doc
    exact (hn.substExprRow d _ doc (within_opt.1 hqualify e he)).mono fun _ _ => trivial
  refine OnlyOn.andThen (mapM_settled fun doc _ => ?_) fun out => ?_
  · refine (mapM_settled fun e he => ?_).andThen fun values => .pure trivial
    exact hn.evalRow d _ _ doc (within_exprs.1 hprojection e he)
  refine (lift_settled _).andThen fun out => ?_
  split
  · exact .pure trivial
  · refine OnlyOn.andThen (mapM_settled fun o ho => ?_) fun keys => ?_
    · split
      · exact .pure trivial
      · refine (mapM_settled fun doc _ => ?_).map fun _ _ => trivial
        exact hn.evalRow d _ _ doc (within_exprs.1 horder o ho)
    · exact (lift_settled _).andThen fun rows => .pure trivial

theorem Settles.filterSelect_succ (hn : Settles ops cat S n) {ctes : List Cte} {body : SetExpr}
    {orderBy : List Expr} {tail : Tail} {scope : List String} {sel : Select} (d : Depth)
    (rows : List Object) (h : Within cat S (readsSelect scope sel))
    (horder : Within cat S (readsExprs orderBy)) :
    Settled S (Sql.filterSelect ops cat (n + 1) d (.mk ctes body orderBy tail) sel rows) := by
  obtain ⟨sources, projection, selection, qualify, groupBy, having, shape⟩ := sel
  obtain ⟨-, -, hselection, -, -, -⟩ := within_select.1 h
  rw [Sql.filterSelect]
  refine OnlyOn.andThen (whereRows_settled ?_ _) fun rows => ?_
  · exact fun e he doc => hn.evalRow d _ _ doc (within_opt.1 hselection e he)
  split
  · exact lift_settled _
  · split
    · exact .throw _
    · exact hn.execPlainSelect d rows false h horder

theorem Settles.scanSelect_succ (hn : Settles ops cat S n) {ctes : List Cte} {body : SetExpr}
    {orderBy : List Expr} {tail : Tail} {scope : List String} {base : Ctes} {sel : Select}
    (d : Depth) (fast : Option FastRows) (hbound : Bound scope base)
    (h : Within cat S (readsSelect scope sel)) (horder : Within cat S (readsExprs orderBy)) :
    Settled S (Sql.scanSelect ops cat (n + 1) d (.mk ctes body orderBy tail) sel base fast) := by
  obtain ⟨sources, projection, selection, qualify, groupBy, having, shape⟩ := sel
  obtain ⟨hsources, -⟩ := within_select.1 h
  cases fast with
  | none =>
    rw [Sql.scanSelect]
    exact (hn.loadFrom d hbound hsources).andThen fun rows => hn.filterSelect d rows h horder
  | some fast =>
    cases fast with
    | counted r =>
      rw [Sql.scanSelect]
      exact .pure trivial
    | windowed rows =>
      rw [Sql.scanSelect]
      exact hn.execPlainSelect d rows true h horder
    | probed rows =>
      rw [Sql.scanSelect]
      exact hn.filterSelect d rows h horder

/-- The table of a fast path is one that FROM looks up. -/
theorem tryFast_settled {sources : List TableWithJoins} {scope : List String} {base : Ctes}
    (hbound : Bound scope base) (h : Within cat S (readsSources scope sources)) (query : Query)
    (sel : Select) : Settled S (tryFast ops cat base sources query sel) := by
  unfold tryFast
  split
  · rename_i t hsole
    refine OnlyOn.andThen (OnlyOn.ask ?_) fun rows => lift_settled _
    unfold soleTable at hsole
    split at hsole
    · rename_i name opts
      dsimp only at hsole
      split at hsole
      · rename_i hplain
        cases hsole
        obtain ⟨hargs, -, -, hdual, hvirtual, hfree, hbase⟩ := hplain
        have hmem : objName name ∈ lookups scope name opts :=
          mem_lookups hbound (by rw [hargs]; rfl) hdual (by simpa using hfree) hvirtual
        have hcovered : Covered cat S (objName name) :=
          (within_append.1 (within_sources.1 h _ List.mem_cons_self)).1 _ hmem
        cases hget : cat.get (objName name) with
        | none =>
          rw [hget] at hbase
          cases hbase
        | some tm =>
          obtain ⟨columns, view⟩ := tm
          rw [hget] at hbase
          cases view with
          | none => exact hcovered.mem hget
          | some view => cases hbase
      · cases hsole
    · cases hsole
  · exact .pure trivial

theorem Settles.substSources (hn : Settles ops cat S n) {sources : List TableWithJoins}
    {scope : List String} (d : Depth) (outer : List String)
    (h : Within cat S (readsSources scope sources)) :
    OnlyOn S (sources.mapM fun source => match source with
      | .mk relation joins => do
        let joins ← joins.mapM fun join => match join with
          | .mk relation op on => do
            let on ← optM (Sql.substExpr ops cat n d outer false) on
            return Join.mk relation op on
        return TableWithJoins.mk relation joins)
      fun sources' => Within cat S (readsSources scope sources') := by
  refine (OnlyOn.mapM fun source hsource => ?_).mono fun _ h' => within_sources.2 h'
  obtain ⟨relation, joins⟩ := source
  obtain ⟨hrelation, hjoins⟩ := within_append.1 (within_sources.1 h _ hsource)
  refine OnlyOn.bind (OnlyOn.mapM (R := fun j => Within cat S (readsJoin scope j))
    fun join hjoin => ?_) fun joins' hjoins' => ?_
  · obtain ⟨relation', op, on⟩ := join
    obtain ⟨hrelation', hon⟩ := within_append.1 (within_joins.1 hjoins _ hjoin)
    refine (hn.substOpt d outer false hon).bind fun on' hon' => ?_
    exact .pure (within_append.2 ⟨hrelation', hon'⟩)
  · exact .pure (within_append.2 ⟨hrelation, within_joins.2 hjoins'⟩)

theorem Settles.execSelect_succ (hn : Settles ops cat S n) {orderBy : List Expr} {sel : Select}
    {scope : List String} {base : Ctes} (d : Depth) (tail : Tail) (hbound : Bound scope base)
    (h : Within cat S (readsSelect scope sel)) (horder : Within cat S (readsExprs orderBy)) :
    Settled S (Sql.execSelect ops cat (n + 1) d orderBy tail sel base) := by
  obtain ⟨sources, projection, selection, qualify, groupBy, having, shape⟩ := sel
  obtain ⟨hsources, hprojection, hselection, hqualify, hgroup, hhaving⟩ := within_select.1 h
  rw [Sql.execSelect]
  refine (lift_settled _).andThen fun _ => ?_
  refine (hn.substOpt d _ true hselection).bind fun selection' hselection' => ?_
  refine (hn.substOpt d _ true hqualify).bind fun qualify' hqualify' => ?_
  refine (hn.substSources d _ hsources).bind fun sources' hsources' => ?_
  refine (hn.substExprs d _ true horder).bind fun orderBy' horder' => ?_
  refine (hn.substExprs d _ true hprojection).bind fun projection' hprojection' => ?_
  refine (hn.substExprs d _ false hgroup).bind fun groupBy' hgroup' => ?_
  refine (hn.substOpt d _ false hhaving).bind fun having' hhaving' => ?_
  have hsel : Within cat S (readsSelect scope
      (.mk sources' projection' selection' qualify' groupBy' having' shape)) :=
    within_select.2 ⟨hsources', hprojection', hselection', hqualify', hgroup', hhaving'⟩
  split
  · exact lift_settled _
  · refine (lift_settled _).andThen fun _ => ?_
    refine (tryFast_settled hbound hsources' _ _).andThen fun fast => ?_
    exact hn.scanSelect d fast hbound hsel horder'

theorem Settles.execQueryBody_succ (hn : Settles ops cat S n) {ctes : List Cte} {body : SetExpr}
    {orderBy : List Expr} {tail : Tail} {scope : List String} {base : Ctes} (d : Depth)
    (hbound : Bound scope base) (h : Within cat S (readsBody scope body))
    (horder : Within cat S (readsExprs orderBy)) :
    Settled S (Sql.execQueryBody ops cat (n + 1) d (.mk ctes body orderBy tail) base) := by
  cases body with
  | select s =>
    obtain ⟨sources, projection, selection, qualify, groupBy, having, shape⟩ := s
    rw [Sql.execQueryBody]
    refine (lift_settled _).andThen fun rewritten => ?_
    obtain ⟨tail', shape'⟩ := rewritten
    refine (lift_settled _).andThen fun _ => ?_
    exact hn.execSelect d tail' hbound h horder
  | query q =>
    obtain ⟨inner, innerBody, innerOrder, innerTail⟩ := q
    obtain ⟨hctes, hrest⟩ := within_append.1 h
    obtain ⟨hbody, hinner⟩ := within_append.1 hrest
    rw [Sql.execQueryBody]
    refine (lift_settled _).andThen fun _ => ?_
    exact (hn.materializeCtes d hbound hctes).bind fun scope' hscope' =>
      hn.execQueryBody d hscope' hbody hinner
  | setOp op quantifier left right =>
    obtain ⟨hleft, hright⟩ := within_append.1 h
    rw [Sql.execQueryBody]
    refine (lift_settled _).andThen fun _ => ?_
    refine (hn.execQueryBody d hbound hleft within_nil).andThen fun l => ?_
    exact (hn.execQueryBody d hbound hright within_nil).andThen fun r => lift_settled _
  | values widths cells =>
    rw [Sql.execQueryBody]
    refine (lift_settled _).andThen fun _ => ?_
    exact (hn.substExprs d [] false h).bind fun cells' _ => lift_settled _
  | other text =>
    rw [Sql.execQueryBody]
    exact .throw _

theorem settles_zero : Settles ops cat S 0 where
  substExpr _ _ _ _ := .throw _
  substExprRow _ _ _ _ := .throw _
  resolveNode _ _ := .throw _
  evalRow _ _ _ _ _ := .throw _
  subqueryResult _ _ := .throw _
  execQuery _ _ := .throw _
  materializeCtes _ _ _ := .throw _
  recursiveCte _ _ _ _ _ := .throw _
  loadTableFactor _ _ _ := .throw _
  loadFrom _ _ _ := .throw _
  execPlainSelect _ _ _ _ _ := .throw _
  filterSelect _ _ _ _ := .throw _
  scanSelect _ _ _ _ _ := .throw _
  execSelect _ _ _ _ _ := .throw _
  execQueryBody _ _ _ _ := .throw _

theorem settles (n : ℕ) : Settles ops cat S n := by
  induction n with
  | zero => exact settles_zero
  | succ n hn =>
    exact ⟨hn.substExpr_succ, hn.substExprRow_succ, hn.resolveNode_succ, hn.evalRow_succ,
      hn.subqueryResult_succ, hn.execQuery_succ, hn.materializeCtes_succ, hn.recursiveCte_succ,
      hn.loadTableFactor_succ, hn.loadFrom_succ, hn.execPlainSelect_succ, hn.filterSelect_succ,
      hn.scanSelect_succ, hn.execSelect_succ, hn.execQueryBody_succ⟩

/-- The outcome of a query is the same on databases that agree on the tables its names
lead to. -/
theorem execQuery_agree {q : Query} (h : Within cat S (readsQuery [] q)) (n : ℕ) (d : Depth)
    {db db' : String → Rows} (hdb : Set.EqOn db db' S) :
    execQuery ops cat n d q db = execQuery ops cat n d q db' :=
  ((settles n).execQuery d h).agree db db' hdb

end Exec

end Docsql.Sql
