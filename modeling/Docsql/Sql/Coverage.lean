import Docsql.Sql.Reads

/-!
# Reads the walkers do not report

The walkers of `targets.rs` and the executor resolve names by rules of their own.
`missedQuery` lists the catalog names the executor resolves at a place where the
walker reports nothing, or another name: QUALIFY and the characters of TRIM, names
with parts, and places where the walker takes a name for a CTE that the executor
does not have in scope.  All other reads are reported.
-/

namespace Docsql.Sql

section Missed

variable (cat : Catalog)

def catalogNames (names : List String) : List String := names.filter cat.tableExists

mutual

/-- `hidden` are the names that the walks around an expression leave out. -/
def missedExpr (hidden : List String) : Expr → List String
  | .atom _ => []
  | .node _ kids => missedExprs hidden kids
  | .function _ args filter _ => missedExprs hidden args ++ missedOpt hidden filter
  | .trim e what characters =>
    missedExpr hidden e ++ (missedOpt hidden what ++ catalogNames cat (readsExprs characters))
  | .inSubquery e q _ => missedExpr hidden e ++ missedQuery hidden [] [] q
  | .subquery q => missedQuery hidden [] [] q
  | .exists q _ => missedQuery hidden [] [] q
  -- These are denied.
  | .quantified _ _ _ _ => []
  | .other _ _ => []

def missedExprs (hidden : List String) : List Expr → List String
  | [] => []
  | e :: es => missedExpr hidden e ++ missedExprs hidden es

def missedOpt (hidden : List String) : Option Expr → List String
  | none => []
  | some e => missedExpr hidden e

/-- `shadow` are the CTEs the walk of the query starts with, `scope` those the executor
has. -/
def missedQuery (hidden shadow scope : List String) : Query → List String
  | .mk ctes body orderBy _ =>
    let below := hidden ++ cteShadow cat.tableExists shadow ctes
    missedCtes hidden shadow scope ctes ++
      (missedBody below (scope ++ cteNames ctes) body ++ missedExprs below orderBy)

def missedCtes (hidden shadow scope : List String) : List Cte → List String
  | [] => []
  | .mk name _ (.mk inner body orderBy _) :: ctes =>
    let own := if cat.tableExists name then shadow else shadow ++ [name]
    let below := hidden ++ cteShadow cat.tableExists own inner
    (missedBody below scope body ++ missedExprs below orderBy) ++
      missedCtes hidden (own ++ [name]) (scope ++ [name]) ctes

def missedBody (hidden scope : List String) : SetExpr → List String
  | .select s => missedSelect hidden scope s
  | .query q => missedQuery hidden [] scope q
  | .setOp _ _ left right => missedBody hidden scope left ++ missedBody hidden scope right
  | .values _ cells => missedExprs hidden cells
  | .other _ => []

def missedSelect (hidden scope : List String) : Select → List String
  | .mk sources projection selection qualify groupBy having _ =>
    missedSources hidden scope sources ++ (missedExprs hidden projection ++
      (missedOpt hidden selection ++ (catalogNames cat (readsOpt qualify) ++
        (missedExprs hidden groupBy ++ missedOpt hidden having))))

def missedSources (hidden scope : List String) : List TableWithJoins → List String
  | [] => []
  | .mk relation joins :: rest =>
    missedFactor hidden scope relation ++
      (missedJoins hidden scope joins ++ missedSources hidden scope rest)

def missedJoins (hidden scope : List String) : List Join → List String
  | [] => []
  | .mk relation _ on :: rest =>
    missedFactor hidden scope relation ++ (missedOpt hidden on ++ missedJoins hidden scope rest)

/-- A name of one part is reported unless it is hidden. -/
def missedFactor (hidden scope : List String) : TableFactor → List String
  | .table name opts =>
    (catalogNames cat (lookups scope name opts)).filter fun t => 1 < name.length ∨ t ∈ hidden
  | .derived q _ _ => missedQuery hidden [] scope q
  | .nestedJoin _ _ => []
  | .pivot _ _ => []
  | .other _ => []

end

/-- No read of a query is missed. -/
def Reported (q : Query) : Prop := missedQuery cat [] [] [] q = []

instance (q : Query) : Decidable (Reported cat q) := decEq _ _

/-! ## All other reads are reported -/

/-- A name is missed, or reported and not hidden. -/
def Accounted (hidden missed : List String) (w : Walk) (t : String) : Prop :=
  t ∈ missed ∨ t ∈ w.names ∧ t ∉ hidden

/-- The names in the catalog among `reads` are accounted for. -/
def AllAccounted (hidden reads missed : List String) (w : Walk) : Prop :=
  ∀ t ∈ reads, cat.tableExists t = true → Accounted hidden missed w t

variable {cat} {hidden scope : List String}

theorem AllAccounted.nil {missed : List String} {w : Walk} :
    AllAccounted cat hidden [] missed w := fun _ h => absurd h List.not_mem_nil

theorem AllAccounted.andThen {r r' m m' : List String} {w w' : Walk}
    (h : AllAccounted cat hidden r m w) (hw : w.ok = true) (h' : AllAccounted cat hidden r' m' w') :
    AllAccounted cat hidden (r ++ r') (m ++ m') (w.andThen w') := by
  intro t ht hcat
  unfold Accounted
  rw [Walk.andThen_names hw, List.mem_append, List.mem_append]
  rcases List.mem_append.1 ht with hr | hr
  · rcases h t hr hcat with hm | ⟨hn, hhid⟩
    · exact .inl (.inl hm)
    · exact .inr ⟨.inl hn, hhid⟩
  · rcases h' t hr hcat with hm | ⟨hn, hhid⟩
    · exact .inl (.inr hm)
    · exact .inr ⟨.inr hn, hhid⟩

/-- A further walk reports no less. -/
theorem AllAccounted.before {r m : List String} {w w' : Walk} (hw : w.ok = true)
    (h : AllAccounted cat hidden r m w) : AllAccounted cat hidden r m (w.andThen w') := by
  intro t ht hcat
  refine (h t ht hcat).imp id fun hnamed => ⟨?_, hnamed.2⟩
  rw [Walk.andThen_names hw]
  exact List.mem_append_left _ hnamed.1

theorem AllAccounted.after {r m : List String} {w w' : Walk} (hw : w.ok = true)
    (h : AllAccounted cat hidden r m w') : AllAccounted cat hidden r m (w.andThen w') := by
  intro t ht hcat
  refine (h t ht hcat).imp id fun hnamed => ⟨?_, hnamed.2⟩
  rw [Walk.andThen_names hw]
  exact List.mem_append_right _ hnamed.1

theorem AllAccounted.append {r r' m m' : List String} {w : Walk}
    (h : AllAccounted cat hidden r m w) (h' : AllAccounted cat hidden r' m' w) :
    AllAccounted cat hidden (r ++ r') (m ++ m') w := by
  intro t ht hcat
  unfold Accounted
  rw [List.mem_append]
  rcases List.mem_append.1 ht with hr | hr
  · exact (h t hr hcat).imp .inl id
  · exact (h' t hr hcat).imp .inr id

/-- What is read at a place without a walk is missed. -/
theorem AllAccounted.unwalked (r : List String) (w : Walk) :
    AllAccounted cat hidden r (catalogNames cat r) w :=
  fun _ ht hcat => .inl (List.mem_filter.2 ⟨ht, hcat⟩)

/-- Names left out below are hidden there. -/
theorem AllAccounted.unshadowed {r m shadow : List String} {w : Walk} (hw : w.ok = true)
    (h : AllAccounted cat (hidden ++ shadow) r m w) :
    AllAccounted cat hidden r m (w.unshadowed shadow) := by
  intro t ht hcat
  unfold Accounted
  rw [Walk.mem_unshadowed hw]
  have ht' := h t ht hcat
  unfold Accounted at ht'
  rw [List.mem_append] at ht'
  tauto

/-- A name of one part that is not hidden is what the walker reports. -/
theorem accounted_factor (name : List String) (opts : TableOpts) :
    AllAccounted cat hidden (lookups scope name opts)
      (missedFactor cat hidden scope (.table name opts)) (walkName name) := by
  intro t ht hcat
  by_cases hmissed : 1 < name.length ∨ t ∈ hidden
  · left
    rw [missedFactor]
    exact List.mem_filter.2 ⟨List.mem_filter.2 ⟨ht, hcat⟩, decide_eq_true hmissed⟩
  · rw [not_or] at hmissed
    have hname : t = objName name := by
      unfold lookups at ht
      split at ht
      · exact absurd ht List.not_mem_nil
      · exact List.mem_singleton.1 ht
    refine .inr ⟨?_, hmissed.2⟩
    rw [walkName, if_neg hmissed.1, hname]
    exact List.mem_singleton_self _

mutual

theorem accounted_expr (hidden : List String) :
    ∀ e : Expr, (walkExpr cat.tableExists e).ok = true →
      AllAccounted cat hidden (readsExpr e) (missedExpr cat hidden e) (walkExpr cat.tableExists e)
  | .atom _, _ => .nil
  | .node _ kids, h => accounted_exprs hidden kids h
  | .function _ args filter withinGroup, h => by
    simp only [walkExpr, Walk.andThen_assoc, Walk.andThen_ok, Bool.and_eq_true] at h
    obtain ⟨hargs, hfilter, -⟩ := h
    rw [readsExpr, missedExpr, walkExpr, Walk.andThen_assoc]
    exact (accounted_exprs hidden args hargs).andThen hargs
      ((accounted_opt hidden filter hfilter).before hfilter)
  | .trim e what characters, h => by
    simp only [walkExpr, Walk.andThen_ok, Bool.and_eq_true] at h
    obtain ⟨he, hwhat⟩ := h
    rw [readsExpr, missedExpr, walkExpr]
    exact (accounted_expr hidden e he).andThen he
      ((accounted_opt hidden what hwhat).append (.unwalked _ _))
  | .inSubquery e q _, h => by
    simp only [walkExpr, Walk.andThen_ok, Bool.and_eq_true] at h
    obtain ⟨he, hq⟩ := h
    rw [readsExpr, missedExpr, walkExpr]
    exact (accounted_expr hidden e he).andThen he (accounted_query hidden [] [] q hq)
  | .subquery q, h => accounted_query hidden [] [] q h
  | .exists q _, h => accounted_query hidden [] [] q h
  | .quantified _ _ _ _, h => nomatch h
  | .other _ _, h => nomatch h

theorem accounted_exprs (hidden : List String) :
    ∀ es : List Expr, (walkExprs cat.tableExists es).ok = true →
      AllAccounted cat hidden (readsExprs es) (missedExprs cat hidden es)
        (walkExprs cat.tableExists es)
  | [], _ => .nil
  | e :: es, h => by
    simp only [walkExprs, Walk.andThen_ok, Bool.and_eq_true] at h
    rw [readsExprs, missedExprs, walkExprs]
    exact (accounted_expr hidden e h.1).andThen h.1 (accounted_exprs hidden es h.2)

theorem accounted_opt (hidden : List String) :
    ∀ e : Option Expr, (walkOpt cat.tableExists e).ok = true →
      AllAccounted cat hidden (readsOpt e) (missedOpt cat hidden e) (walkOpt cat.tableExists e)
  | none, _ => .nil
  | some e, h => accounted_expr hidden e h

theorem accounted_query (hidden shadow scope : List String) :
    ∀ q : Query, (walkQueryShadowed cat.tableExists shadow q).ok = true →
      AllAccounted cat hidden (readsQuery scope q) (missedQuery cat hidden shadow scope q)
        (walkQueryShadowed cat.tableExists shadow q)
  | .mk ctes body orderBy _, h => by
    simp only [walkQueryShadowed, Walk.andThen_ok, Walk.unshadowed_ok, Bool.and_eq_true] at h
    obtain ⟨hctes, hbody, horder⟩ := h
    rw [readsQuery, missedQuery, walkQueryShadowed]
    refine (accounted_ctes hidden shadow scope ctes hctes).andThen hctes (.unshadowed ?_ ?_)
    · rw [Walk.andThen_ok, hbody, horder]
      rfl
    · exact (accounted_body _ _ body hbody).andThen hbody (accounted_exprs _ orderBy horder)

theorem accounted_ctes (hidden shadow scope : List String) :
    ∀ ctes : List Cte, (walkCtes cat.tableExists shadow ctes).ok = true →
      AllAccounted cat hidden (readsCtes scope ctes) (missedCtes cat hidden shadow scope ctes)
        (walkCtes cat.tableExists shadow ctes)
  | [], _ => .nil
  | .mk name _ (.mk inner body orderBy _) :: ctes, h => by
    simp only [walkCtes, walkQueryShadowed, Walk.andThen_ok, Walk.unshadowed_ok,
      Bool.and_eq_true] at h
    obtain ⟨⟨hinner, hbody, horder⟩, hctes⟩ := h
    rw [readsCtes, missedCtes, walkCtes, walkQueryShadowed, Walk.andThen_assoc]
    have hwalk : ((walkSetExpr cat.tableExists body).andThen
        (walkExprs cat.tableExists orderBy)).ok = true := by
      rw [Walk.andThen_ok, hbody, horder]
      rfl
    refine .after hinner (.andThen (.unshadowed hwalk ?_) ?_ ?_)
    · exact (accounted_body _ _ body hbody).andThen hbody (accounted_exprs _ orderBy horder)
    · rwa [Walk.unshadowed_ok]
    · exact accounted_ctes hidden _ _ ctes hctes

theorem accounted_body (hidden scope : List String) :
    ∀ body : SetExpr, (walkSetExpr cat.tableExists body).ok = true →
      AllAccounted cat hidden (readsBody scope body) (missedBody cat hidden scope body)
        (walkSetExpr cat.tableExists body)
  | .select s, h => accounted_select hidden scope s h
  | .query q, h => accounted_query hidden [] scope q h
  | .setOp _ _ left right, h => by
    simp only [walkSetExpr, Walk.andThen_ok, Bool.and_eq_true] at h
    rw [readsBody, missedBody, walkSetExpr]
    exact (accounted_body hidden scope left h.1).andThen h.1 (accounted_body hidden scope right h.2)
  | .values _ cells, h => accounted_exprs hidden cells h
  | .other _, _ => .nil

theorem accounted_select (hidden scope : List String) :
    ∀ s : Select, (walkSelect cat.tableExists s).ok = true →
      AllAccounted cat hidden (readsSelect scope s) (missedSelect cat hidden scope s)
        (walkSelect cat.tableExists s)
  | .mk sources projection selection qualify groupBy having _, h => by
    simp only [walkSelect, Walk.andThen_assoc, Walk.andThen_ok, Bool.and_eq_true] at h
    obtain ⟨hsources, hprojection, hselection, hgroup, hhaving⟩ := h
    rw [readsSelect, missedSelect, walkSelect]
    simp only [Walk.andThen_assoc]
    refine (accounted_sources hidden scope sources hsources).andThen hsources ?_
    refine (accounted_exprs hidden projection hprojection).andThen hprojection ?_
    refine (accounted_opt hidden selection hselection).andThen hselection ?_
    refine (AllAccounted.unwalked _ _).append ?_
    exact (accounted_exprs hidden groupBy hgroup).andThen hgroup (accounted_opt hidden having hhaving)

theorem accounted_sources (hidden scope : List String) :
    ∀ sources : List TableWithJoins, (walkSources cat.tableExists sources).ok = true →
      AllAccounted cat hidden (readsSources scope sources) (missedSources cat hidden scope sources)
        (walkSources cat.tableExists sources)
  | [], _ => .nil
  | .mk relation joins :: rest, h => by
    simp only [walkSources, Walk.andThen_assoc, Walk.andThen_ok, Bool.and_eq_true] at h
    obtain ⟨hrelation, hjoins, hrest⟩ := h
    rw [readsSources, missedSources, walkSources, Walk.andThen_assoc]
    refine (accounted_relation hidden scope relation hrelation).andThen hrelation ?_
    exact (accounted_joins hidden scope joins hjoins).andThen hjoins
      (accounted_sources hidden scope rest hrest)

theorem accounted_joins (hidden scope : List String) :
    ∀ joins : List Join, (walkJoins cat.tableExists joins).ok = true →
      AllAccounted cat hidden (readsJoins scope joins) (missedJoins cat hidden scope joins)
        (walkJoins cat.tableExists joins)
  | [], _ => .nil
  | .mk relation _ on :: rest, h => by
    simp only [walkJoins, Walk.andThen_assoc, Walk.andThen_ok, Bool.and_eq_true] at h
    obtain ⟨hrelation, hon, hrest⟩ := h
    rw [readsJoins, missedJoins, walkJoins, Walk.andThen_assoc]
    refine (accounted_relation hidden scope relation hrelation).andThen hrelation ?_
    exact (accounted_opt hidden on hon).andThen hon (accounted_joins hidden scope rest hrest)

theorem accounted_relation (hidden scope : List String) :
    ∀ factor : TableFactor, (walkFactor cat.tableExists factor).ok = true →
      AllAccounted cat hidden (readsFactor scope factor) (missedFactor cat hidden scope factor)
        (walkFactor cat.tableExists factor)
  | .table name opts, _ => accounted_factor name opts
  | .derived q _ _, h => accounted_query hidden [] scope q h
  | .nestedJoin _ _, _ => .nil
  | .pivot _ _, h => nomatch h
  | .other _, _ => .nil

end

/-- When no read is missed, every catalog name that is read is reported. -/
theorem mem_walk_of_reported {q : Query} (hok : (walkQuery cat.tableExists q).ok = true)
    (h : Reported cat q) {t : String} (ht : t ∈ readsQuery [] q) (hcat : cat.tableExists t = true) :
    t ∈ (walkQuery cat.tableExists q).names := by
  rcases accounted_query [] [] [] q hok t ht hcat with hmissed | hnamed
  · rw [h] at hmissed
    exact absurd hmissed List.not_mem_nil
  · exact hnamed.1

end Missed

end Docsql.Sql
