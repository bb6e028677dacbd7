import Docsql.Sql.Coverage

/-!
# The tables a query names

`namesQuery` lists the names of a query that are not those of a CTE in scope, a recursive
CTE being in scope in its second arm.  These are the tables that have to be in the catalog.
-/

namespace Docsql.Sql

mutual

def namesExpr : Expr → List String
  | .atom _ => []
  | .node _ kids => namesExprs kids
  | .function _ args filter _ => namesExprs args ++ namesOpt filter
  | .trim e what characters => namesExpr e ++ (namesOpt what ++ namesExprs characters)
  | .inSubquery e q _ => namesExpr e ++ namesQuery [] q
  | .subquery q => namesQuery [] q
  | .exists q _ => namesQuery [] q
  | .quantified _ _ left q => namesExpr left ++ namesQuery [] q
  | .other _ kids => namesExprs kids

def namesExprs : List Expr → List String
  | [] => []
  | e :: es => namesExpr e ++ namesExprs es

def namesOpt : Option Expr → List String
  | none => []
  | some e => namesExpr e

def namesQuery (scope : List String) : Query → List String
  | .mk ctes body orderBy _ =>
    namesCtes scope ctes ++
      (namesBody (scope ++ cteNames ctes) (scope ++ cteNames ctes) body ++ namesExprs orderBy)

def namesCtes (scope : List String) : List Cte → List String
  | [] => []
  | .mk name _ (.mk inner body orderBy tail) :: ctes =>
    let arm := if cteReferences (.mk inner body orderBy tail) name then scope ++ [name] else scope
    (namesBody scope arm body ++ namesExprs orderBy) ++ namesCtes (scope ++ [name]) ctes

/-- `arm` is the scope of the second arm of a set operation. -/
def namesBody (scope arm : List String) : SetExpr → List String
  | .select s => namesSelect scope s
  | .query q => namesQuery scope q
  | .setOp _ _ left right => namesBody scope scope left ++ namesBody arm arm right
  | .values _ cells => namesExprs cells
  | .other _ => []

def namesSelect (scope : List String) : Select → List String
  | .mk sources projection selection qualify groupBy having _ =>
    namesSources scope sources ++ (namesExprs projection ++ (namesOpt selection ++
      (namesOpt qualify ++ (namesExprs groupBy ++ namesOpt having))))

def namesSources (scope : List String) : List TableWithJoins → List String
  | [] => []
  | .mk relation joins :: rest =>
    namesFactor scope relation ++ (namesJoins scope joins ++ namesSources scope rest)

def namesJoins (scope : List String) : List Join → List String
  | [] => []
  | .mk relation _ on :: rest =>
    namesFactor scope relation ++ (namesOpt on ++ namesJoins scope rest)

def namesFactor (scope : List String) : TableFactor → List String
  | .table name opts => lookups scope name opts
  | .derived q _ _ => namesQuery scope q
  | .nestedJoin _ _ => []
  | .pivot table _ => namesFactor scope table
  | .other _ => []

end

/-! ## They are read -/

theorem lookups_mono {scope scope' name : List String} {opts : TableOpts}
    (h : scope ⊆ scope') : lookups scope' name opts ⊆ lookups scope name opts := by
  intro t ht
  unfold lookups at ht ⊢
  split at ht
  · exact absurd ht List.not_mem_nil
  · rename_i hfree
    rw [if_neg]
    · exact ht
    · rintro (hargs | hdual | hscope | hvirtual)
      · exact hfree (.inl hargs)
      · exact hfree (.inr (.inl hdual))
      · exact hfree (.inr (.inr (.inl (h hscope))))
      · exact hfree (.inr (.inr (.inr hvirtual)))

theorem append_subset_append {a a' b b' : List String} (ha : a ⊆ a') (hb : b ⊆ b') :
    a ++ b ⊆ a' ++ b' := by
  intro t ht
  rcases List.mem_append.1 ht with h | h
  · exact List.mem_append_left _ (ha h)
  · exact List.mem_append_right _ (hb h)

mutual

theorem namesExpr_subset : ∀ e : Expr, namesExpr e ⊆ readsExpr e
  | .atom _ => List.Subset.refl _
  | .node _ kids => namesExprs_subset kids
  | .function _ args filter _ =>
    append_subset_append (namesExprs_subset args) (namesOpt_subset filter)
  | .trim e what characters => append_subset_append (namesExpr_subset e)
      (append_subset_append (namesOpt_subset what) (namesExprs_subset characters))
  | .inSubquery e q _ =>
    append_subset_append (namesExpr_subset e) (namesQuery_subset (List.Subset.refl _) q)
  | .subquery q => namesQuery_subset (List.Subset.refl _) q
  | .exists q _ => namesQuery_subset (List.Subset.refl _) q
  | .quantified _ _ left q =>
    append_subset_append (namesExpr_subset left) (namesQuery_subset (List.Subset.refl _) q)
  | .other _ kids => namesExprs_subset kids

theorem namesExprs_subset : ∀ es : List Expr, namesExprs es ⊆ readsExprs es
  | [] => List.Subset.refl _
  | e :: es => append_subset_append (namesExpr_subset e) (namesExprs_subset es)

theorem namesOpt_subset : ∀ e : Option Expr, namesOpt e ⊆ readsOpt e
  | none => List.Subset.refl _
  | some e => namesExpr_subset e

theorem namesQuery_subset {scope scope' : List String} (h : scope ⊆ scope') :
    ∀ q : Query, namesQuery scope' q ⊆ readsQuery scope q
  | .mk ctes body orderBy _ => by
    have hbelow : scope ++ cteNames ctes ⊆ scope' ++ cteNames ctes :=
      append_subset_append h (List.Subset.refl _)
    rw [namesQuery, readsQuery]
    exact append_subset_append (namesCtes_subset h ctes)
      (append_subset_append (namesBody_subset hbelow hbelow body) (namesExprs_subset orderBy))

theorem namesCtes_subset {scope scope' : List String} (h : scope ⊆ scope') :
    ∀ ctes : List Cte, namesCtes scope' ctes ⊆ readsCtes scope ctes
  | [] => List.Subset.refl _
  | .mk name _ (.mk inner body orderBy tail) :: ctes => by
    have hnext : scope ++ [name] ⊆ scope' ++ [name] :=
      append_subset_append h (List.Subset.refl _)
    have harm : scope ⊆ if cteReferences (.mk inner body orderBy tail) name then scope' ++ [name]
        else scope' := by
      split
      · exact List.Subset.trans h (List.subset_append_left _ _)
      · exact h
    rw [namesCtes, readsCtes]
    exact append_subset_append
      (append_subset_append (namesBody_subset h harm body) (namesExprs_subset orderBy))
      (namesCtes_subset hnext ctes)

theorem namesBody_subset {scope scope' arm : List String} (h : scope ⊆ scope')
    (harm : scope ⊆ arm) : ∀ body : SetExpr, namesBody scope' arm body ⊆ readsBody scope body
  | .select s => namesSelect_subset h s
  | .query q => namesQuery_subset h q
  | .setOp _ _ left right =>
    append_subset_append (namesBody_subset h h left) (namesBody_subset harm harm right)
  | .values _ cells => namesExprs_subset cells
  | .other _ => List.Subset.refl _

theorem namesSelect_subset {scope scope' : List String} (h : scope ⊆ scope') :
    ∀ s : Select, namesSelect scope' s ⊆ readsSelect scope s
  | .mk sources projection selection qualify groupBy having _ => by
    rw [namesSelect, readsSelect]
    refine append_subset_append (namesSources_subset h sources) ?_
    refine append_subset_append (namesExprs_subset projection) ?_
    refine append_subset_append (namesOpt_subset selection) ?_
    refine append_subset_append (namesOpt_subset qualify) ?_
    exact append_subset_append (namesExprs_subset groupBy) (namesOpt_subset having)

theorem namesSources_subset {scope scope' : List String} (h : scope ⊆ scope') :
    ∀ sources : List TableWithJoins, namesSources scope' sources ⊆ readsSources scope sources
  | [] => List.Subset.refl _
  | .mk relation joins :: rest => append_subset_append (namesFactor_subset h relation)
      (append_subset_append (namesJoins_subset h joins) (namesSources_subset h rest))

theorem namesJoins_subset {scope scope' : List String} (h : scope ⊆ scope') :
    ∀ joins : List Join, namesJoins scope' joins ⊆ readsJoins scope joins
  | [] => List.Subset.refl _
  | .mk relation _ on :: rest => append_subset_append (namesFactor_subset h relation)
      (append_subset_append (namesOpt_subset on) (namesJoins_subset h rest))

theorem namesFactor_subset {scope scope' : List String} (h : scope ⊆ scope') :
    ∀ factor : TableFactor, namesFactor scope' factor ⊆ readsFactor scope factor
  | .table _ _ => lookups_mono h
  | .derived q _ _ => namesQuery_subset h q
  | .nestedJoin _ _ => List.Subset.refl _
  | .pivot table _ => namesFactor_subset h table
  | .other _ => List.Subset.refl _

end

/-! ## A walk goes through whatever the objects -/

section Walks

variable (objects objects' : String → Bool)

mutual

theorem walkExpr_ok : ∀ e : Expr, (walkExpr objects e).ok = (walkExpr objects' e).ok
  | .atom _ => rfl
  | .node _ kids => walkExprs_ok kids
  | .function _ args filter withinGroup => by
    simp only [walkExpr, Walk.andThen_ok, walkExprs_ok args, walkOpt_ok filter,
      walkExprs_ok withinGroup]
  | .trim e what _ => by simp only [walkExpr, Walk.andThen_ok, walkExpr_ok e, walkOpt_ok what]
  | .inSubquery e q _ => by
    simp only [walkExpr, Walk.andThen_ok, walkExpr_ok e, walkQueryShadowed_ok [] [] q]
  | .subquery q => walkQueryShadowed_ok [] [] q
  | .exists q _ => walkQueryShadowed_ok [] [] q
  | .quantified _ _ _ _ => rfl
  | .other _ _ => rfl

theorem walkExprs_ok : ∀ es : List Expr, (walkExprs objects es).ok = (walkExprs objects' es).ok
  | [] => rfl
  | e :: es => by simp only [walkExprs, Walk.andThen_ok, walkExpr_ok e, walkExprs_ok es]

theorem walkOpt_ok : ∀ e : Option Expr, (walkOpt objects e).ok = (walkOpt objects' e).ok
  | none => rfl
  | some e => walkExpr_ok e

theorem walkQueryShadowed_ok (shadow shadow' : List String) : ∀ q : Query,
    (walkQueryShadowed objects shadow q).ok = (walkQueryShadowed objects' shadow' q).ok
  | .mk ctes body orderBy _ => by
    simp only [walkQueryShadowed, Walk.andThen_ok, Walk.unshadowed_ok,
      walkCtes_ok shadow shadow' ctes, walkSetExpr_ok body, walkExprs_ok orderBy]

theorem walkCtes_ok (shadow shadow' : List String) : ∀ ctes : List Cte,
    (walkCtes objects shadow ctes).ok = (walkCtes objects' shadow' ctes).ok
  | [] => rfl
  | .mk name _ q :: ctes => by
    simp only [walkCtes, Walk.andThen_ok]
    rw [walkQueryShadowed_ok _ _ q, walkCtes_ok _ _ ctes]

theorem walkSetExpr_ok : ∀ body : SetExpr,
    (walkSetExpr objects body).ok = (walkSetExpr objects' body).ok
  | .select s => walkSelect_ok s
  | .query q => walkQueryShadowed_ok [] [] q
  | .setOp _ _ left right => by
    simp only [walkSetExpr, Walk.andThen_ok, walkSetExpr_ok left, walkSetExpr_ok right]
  | .values _ cells => walkExprs_ok cells
  | .other _ => rfl

theorem walkSelect_ok : ∀ s : Select, (walkSelect objects s).ok = (walkSelect objects' s).ok
  | .mk sources projection selection _ groupBy having _ => by
    simp only [walkSelect, Walk.andThen_ok, walkSources_ok sources, walkExprs_ok projection,
      walkOpt_ok selection, walkExprs_ok groupBy, walkOpt_ok having]

theorem walkSources_ok : ∀ sources : List TableWithJoins,
    (walkSources objects sources).ok = (walkSources objects' sources).ok
  | [] => rfl
  | .mk relation joins :: rest => by
    simp only [walkSources, Walk.andThen_ok, walkFactor_ok relation, walkJoins_ok joins,
      walkSources_ok rest]

theorem walkJoins_ok : ∀ joins : List Join,
    (walkJoins objects joins).ok = (walkJoins objects' joins).ok
  | [] => rfl
  | .mk relation _ on :: rest => by
    simp only [walkJoins, Walk.andThen_ok, walkFactor_ok relation, walkOpt_ok on,
      walkJoins_ok rest]

theorem walkFactor_ok : ∀ factor : TableFactor,
    (walkFactor objects factor).ok = (walkFactor objects' factor).ok
  | .table _ _ => rfl
  | .derived q _ _ => walkQueryShadowed_ok [] [] q
  | .nestedJoin relation joins => by
    simp only [walkFactor, Walk.andThen_ok, walkFactor_ok relation, walkRelations_ok joins]
  | .pivot _ _ => rfl
  | .other _ => rfl

theorem walkRelations_ok : ∀ joins : List Join,
    (walkRelations objects joins).ok = (walkRelations objects' joins).ok
  | [] => rfl
  | .mk relation _ _ :: rest => by
    simp only [walkRelations, Walk.andThen_ok, walkFactor_ok relation, walkRelations_ok rest]

end

end Walks

end Docsql.Sql
