import Docsql.Lib.StateExcept
import Docsql.Sql.Settled
import Docsql.Sql.Write

/-!
# The tables a write may look up

`readsWrite w` lists the names that running `w` resolves against the catalog besides its
target.  What it does is settled by the rows of its target, of the tables that changing
the target consults, and of the tables reachable from these names.
-/

namespace Docsql.Sql

open Lookup (OnlyOn)
open Rewrite (Steady)

/-- VALUES holds constants. -/
def sourceReads : Option Query → List String
  | some (.mk ctes (.select s) orderBy tail) => readsQuery [] (.mk ctes (.select s) orderBy tail)
  | _ => []

def assignmentReads (assignments : List Assignment) : List String :=
  readsExprs (assignments.map Assignment.value)

def armReads : Option (List Assignment × Option Expr) → List String
  | none => []
  | some (assignments, selection) => assignmentReads assignments ++ readsOpt selection

/-- The conditions of joins are no place for subqueries in a write. -/
def loadReads (sources : List TableWithJoins) : List String :=
  (loadedFactors sources).flatMap (readsFactor [])

def readsWrite : Write → List String
  | .insert i => sourceReads i.source ++ armReads i.arm
  | .update u =>
    assignmentReads u.assignments ++ (loadReads (u.sources.getD []) ++ readsOpt u.selection)
  | .delete d => loadReads (d.usingList.getD []) ++ readsOpt d.selection
  | .merge m => readsFactor [] m.source

section Settled

variable {ops : RowOps} {wops : WriteOps} {cat : Catalog} {S : Set String} {n : ℕ}

theorem within_assignments {as : List Assignment} :
    Within cat S (assignmentReads as) ↔ ∀ a ∈ as, Within cat S (readsExpr a.value) := by
  rw [assignmentReads, within_exprs]
  exact List.forall_mem_map

theorem within_loads {sources : List TableWithJoins} :
    Within cat S (loadReads sources) ↔
      ∀ factor ∈ loadedFactors sources, Within cat S (readsFactor [] factor) := by
  constructor
  · intro h factor hf t ht
    exact h t (List.mem_flatMap.2 ⟨factor, hf, ht⟩)
  · intro h t ht
    obtain ⟨factor, hf, hmem⟩ := List.mem_flatMap.1 ht
    exact h factor hf t hmem

/-- A table with rows of its own leads to itself only. -/
theorem covered_target {t : String} (ht : t ∈ S) (hview : isView cat t = false) :
    Covered cat S t := by
  intro r hreach hbase
  cases hreach with
  | refl => exact ht
  | view hget _ _ =>
    unfold isView at hview
    rw [hget] at hview
    cases hview

theorem within_targetFactor {name : List String} {opts : TableOpts} (ht : objName name ∈ S)
    (hview : isView cat (objName name) = false) :
    Within cat S (readsFactor [] (.table name opts)) := by
  intro t hmem
  unfold readsFactor lookups at hmem
  split at hmem
  · exact absurd hmem List.not_mem_nil
  · rw [List.mem_singleton.1 hmem]
    exact covered_target ht hview

theorem loadFrom_settled {sources : List TableWithJoins} (d : Depth)
    (h : Within cat S (loadReads sources)) : Settled S (loadFrom ops cat n d sources []) := by
  cases n with
  | zero =>
    rw [loadFrom]
    exact .throw _
  | succ n =>
    exact (settles n).loadFrom_factors d (fun _ hs => absurd hs List.not_mem_nil)
      (within_loads.1 h)

theorem tableDocs_settled {t : String} (ht : t ∈ S) : Settled S (tableDocs cat t) := by
  unfold tableDocs
  split
  · exact .throw _
  · exact .ask ht

theorem matchesIn_settled {selection : Option Expr} (d : Depth) (outer : List String)
    (h : Within cat S (readsOpt selection)) (doc : Object) :
    Settled S (matchesIn ops cat n d outer selection doc) := by
  cases selection with
  | none => exact .pure trivial
  | some e => exact ((settles n).evalRow d noSelect outer doc h).andThen fun v => .pure trivial

/-- Assignments whose values were substituted one by one. -/
theorem assignments_onlyOn {as : List Assignment} {subst : Expr → ReadCx Expr}
    (h : ∀ a ∈ as, SettledExpr cat S (subst a.value)) :
    OnlyOn S (as.mapM fun a => do
      let value ← subst a.value
      return { a with value }) fun bs => Within cat S (assignmentReads bs) := by
  refine (OnlyOn.mapM (R := fun b => Within cat S (readsExpr b.value)) fun a ha => ?_).mono
    fun bs hbs => within_assignments.2 hbs
  exact (h a ha).bind fun value hvalue => .pure hvalue

theorem substAssignments_onlyOn {as : List Assignment} (d : Depth) (outer : List String)
    (h : Within cat S (assignmentReads as)) :
    OnlyOn S (substAssignments ops cat n d outer as) fun bs =>
      Within cat S (assignmentReads bs) :=
  assignments_onlyOn fun a ha => (settles n).substExpr d outer true (within_assignments.1 h a ha)

theorem evalAssignments_settled {as : List Assignment} (d : Depth) (outer : List String)
    (h : Within cat S (assignmentReads as)) (doc : Object) :
    Settled S (evalAssignments ops cat n d outer as doc) := by
  have hvalues (a : Assignment) (ha : a ∈ as) :
      SettledExpr cat S (substExprRow ops cat n d outer doc a.value) :=
    (settles n).substExprRow d outer doc (within_assignments.1 h a ha)
  exact (assignments_onlyOn hvalues).bind fun bs _ => lift_settled _

/-- The condition of a statement once its uncorrelated subqueries are literals. -/
theorem selection_onlyOn {selection : Option Expr} (d : Depth) (outer : List String)
    (h : Within cat S (readsOpt selection)) :
    OnlyOn S (optM (substExpr ops cat n d outer true) selection) fun e =>
      Within cat S (readsOpt e) :=
  (optM_onlyOn fun e he => (settles n).substExpr d outer true (within_opt.1 h e he)).mono
    fun _ he => within_opt.2 he

theorem probeTarget_settled {t key : String} {selection : Option Expr} {alone : Bool}
    (ht : t ∈ S) : Settled S (probeTarget wops cat t key selection alone) := by
  unfold probeTarget
  split
  · exact (OnlyOn.ask ht).andThen fun rows => lift_settled _
  · exact .pure trivial

/-! ## Proposed values are literals -/

mutual

theorem within_substProposed (p : Object) : ∀ (e e' : Expr),
    substUpsertProposed ops wops p e = .ok e' → Within cat S (readsExpr e) →
      Within cat S (readsExpr e')
  | .atom a, e', he, h => by
    have hnone : readsExpr e' = [] := by
      unfold substUpsertProposed at he
      split at he
      · split at he
        · obtain ⟨_, -, hlit⟩ := Except.bind_eq_ok_iff.1 he
          cases hlit
          rfl
        · cases he
          rfl
      · cases he
        rfl
    rw [hnone]
    exact within_nil
  | .node k kids, e', he, h => by
    rw [substUpsertProposed] at he
    obtain ⟨kids', hkids, hnode⟩ := Except.bind_eq_ok_iff.1 he
    cases hnode
    exact within_substAll p kids kids' hkids h
  | .function f args filter withinGroup, e', he, h => by
    obtain ⟨hargs, hfilter⟩ := within_append.1 h
    unfold substUpsertProposed at he
    split at he
    · split at he
      · obtain ⟨_, -, hlit⟩ := Except.bind_eq_ok_iff.1 he
        cases hlit
        exact within_nil
      · obtain ⟨filter', hf, hcall⟩ := Except.bind_eq_ok_iff.1 he
        cases hcall
        exact within_append.2 ⟨hargs, within_substOpt p filter filter' hf hfilter⟩
    · obtain ⟨args', ha, hrest⟩ := Except.bind_eq_ok_iff.1 he
      obtain ⟨filter', hf, hcall⟩ := Except.bind_eq_ok_iff.1 hrest
      cases hcall
      exact within_append.2
        ⟨within_substAll p args args' ha hargs, within_substOpt p filter filter' hf hfilter⟩
  | .trim e what characters, e', he, h => by
    obtain ⟨hexpr, hrest⟩ := within_append.1 h
    obtain ⟨hwhat, hchars⟩ := within_append.1 hrest
    rw [substUpsertProposed] at he
    obtain ⟨e₁, h₁, he⟩ := Except.bind_eq_ok_iff.1 he
    obtain ⟨what₁, h₂, he⟩ := Except.bind_eq_ok_iff.1 he
    obtain ⟨chars₁, h₃, htrim⟩ := Except.bind_eq_ok_iff.1 he
    cases htrim
    exact within_append.2 ⟨within_substProposed p e e₁ h₁ hexpr,
      within_append.2 ⟨within_substOpt p what what₁ h₂ hwhat,
        within_substAll p characters chars₁ h₃ hchars⟩⟩
  | .inSubquery e q negated, e', he, h => by
    obtain ⟨hexpr, hq⟩ := within_append.1 h
    rw [substUpsertProposed] at he
    obtain ⟨e₁, h₁, hin⟩ := Except.bind_eq_ok_iff.1 he
    cases hin
    exact within_append.2 ⟨within_substProposed p e e₁ h₁ hexpr, hq⟩
  | .subquery q, e', he, h => by
    rw [substUpsertProposed] at he
    cases he
    exact h
  | .exists q negated, e', he, h => by
    rw [substUpsertProposed] at he
    cases he
    exact h
  | .quantified any op left q, e', he, h => by
    obtain ⟨hleft, hq⟩ := within_append.1 h
    rw [substUpsertProposed] at he
    obtain ⟨left₁, h₁, hany⟩ := Except.bind_eq_ok_iff.1 he
    cases hany
    exact within_append.2 ⟨within_substProposed p left left₁ h₁ hleft, hq⟩
  | .other text kids, e', he, h => by
    rw [substUpsertProposed] at he
    split at he
    · obtain ⟨kids', hkids, hother⟩ := Except.bind_eq_ok_iff.1 he
      cases hother
      exact within_substAll p kids kids' hkids h
    · cases he
      exact h

theorem within_substAll (p : Object) : ∀ (es es' : List Expr),
    substUpsertProposed.substAll ops wops p es = .ok es' → Within cat S (readsExprs es) →
      Within cat S (readsExprs es')
  | [], es', he, h => by
    rw [substUpsertProposed.substAll] at he
    cases he
    exact h
  | e :: es, es', he, h => by
    obtain ⟨hfirst, hrest⟩ := within_append.1 h
    rw [substUpsertProposed.substAll] at he
    obtain ⟨e₁, h₁, he⟩ := Except.bind_eq_ok_iff.1 he
    obtain ⟨es₁, h₂, hcons⟩ := Except.bind_eq_ok_iff.1 he
    cases hcons
    exact within_append.2 ⟨within_substProposed p e e₁ h₁ hfirst, within_substAll p es es₁ h₂ hrest⟩

theorem within_substOpt (p : Object) : ∀ (e e' : Option Expr),
    substUpsertProposed.substOpt ops wops p e = .ok e' → Within cat S (readsOpt e) →
      Within cat S (readsOpt e')
  | none, e', he, h => by
    rw [substUpsertProposed.substOpt] at he
    cases he
    exact h
  | some e, e', he, h => by
    rw [substUpsertProposed.substOpt] at he
    obtain ⟨e₁, h₁, hsome⟩ := Except.bind_eq_ok_iff.1 he
    cases hsome
    exact within_substProposed p e e₁ h₁ h

end

theorem within_substAssignments (p : Object) {as bs : List Assignment}
    (hbs : as.mapM (substProposedAssignment ops wops p) = .ok bs)
    (h : Within cat S (assignmentReads as)) : Within cat S (assignmentReads bs) := by
  induction as generalizing bs with
  | nil =>
    cases hbs
    exact h
  | cons a as ih =>
    obtain ⟨hfirst, hrest⟩ := within_append.1 h
    rw [List.mapM_cons] at hbs
    obtain ⟨b, hb, hbs⟩ := Except.bind_eq_ok_iff.1 hbs
    obtain ⟨value, hvalue, hb⟩ := Except.bind_eq_ok_iff.1 hb
    obtain ⟨bs', hbs', hcons⟩ := Except.bind_eq_ok_iff.1 hbs
    cases hb
    cases hcons
    exact within_append.2 ⟨within_substProposed p a.value value hvalue hfirst, ih hbs' hrest⟩

/-! ## The rows that are meant -/

section Rows

variable {as : List Assignment} {selection : Option Expr} (d : Depth) (outer : List String)

theorem fastUpdates_settled (t : String) (has : Within cat S (assignmentReads as))
    (hsel : Within cat S (readsOpt selection)) (rows : Rows) :
    Settled S (fastUpdates ops wops cat n d t outer as selection rows) := by
  refine foldlM_settled _ fun updates row _ => ?_
  refine (matchesIn_settled d outer hsel row.2).andThen fun hit => ?_
  split
  · refine (evalAssignments_settled d outer has row.2).andThen fun vals => ?_
    exact (lift_settled _).andThen fun _ => .pure trivial
  · exact .pure trivial

theorem plainUpdates_settled (has : Within cat S (assignmentReads as))
    (hsel : Within cat S (readsOpt selection)) (docs : List Object) :
    Settled S (plainUpdates ops cat n d outer as selection docs) := by
  refine foldlM_settled _ fun acc doc _ => ?_
  refine (matchesIn_settled d outer hsel doc).andThen fun hit => ?_
  split
  · exact (evalAssignments_settled d outer has doc).andThen fun vals => .pure trivial
  · exact .pure trivial

theorem fromUpdates_settled (key : String) (has : Within cat S (assignmentReads as))
    (hsel : Within cat S (readsOpt selection)) (merged : List Object) :
    Settled S (fromUpdates ops wops cat n d key outer as selection merged) := by
  refine foldlM_settled _ fun updates m _ => ?_
  dsimp only
  split
  · exact .pure trivial
  · refine (matchesIn_settled d outer hsel m).andThen fun hit => ?_
    split
    · exact (evalAssignments_settled d outer has m).andThen fun vals => .pure trivial
    · exact .pure trivial

theorem matching_settled {α : Type} (hsel : Within cat S (readsOpt selection)) (doc : α → Object)
    (rows : List α) : Settled S (matching ops cat n d outer selection doc rows) := by
  refine mapM_settled fun row _ => ?_
  exact (matchesIn_settled d outer hsel (doc row)).andThen fun hit => .pure trivial

theorem upsertImage_settled (t : String) (has : Within cat S (assignmentReads as))
    (hsel : Within cat S (readsOpt selection)) (proposed existing : Object) :
    Settled S (upsertImage ops wops cat n d t as selection proposed existing) := by
  refine OnlyOn.bind (OnlyOn.lift fun e he => within_substOpt proposed selection e he hsel)
    fun e he => ?_
  refine (matchesIn_settled d [t] he existing).andThen fun hit => ?_
  split
  · refine OnlyOn.bind (OnlyOn.lift fun bs hbs => within_substAssignments proposed hbs has)
      fun bs hbs => ?_
    refine (evalAssignments_settled d [t] hbs existing).andThen fun vals => ?_
    exact (lift_settled _).andThen fun _ => .pure trivial
  · exact .pure trivial

theorem insertRows_settled {q : Query} (columns : List String)
    (h : Within cat S (sourceReads (some q))) :
    Settled S (insertRows ops wops cat n d columns q) := by
  unfold insertRows
  split
  · refine (lift_settled _).andThen fun rows => ?_
    split
    · exact (OnlyOn.throw _).andThen fun _ => .pure trivial
    · exact .pure trivial
  · refine ((settles n).execQuery d h).andThen fun r => ?_
    dsimp only
    split
    · exact (OnlyOn.throw _).andThen fun _ => .pure trivial
    · exact .pure trivial
  · exact .throw _

end Rows

/-! ## Whole statements -/

section Statements

variable {σ : Type} {fx : Effects σ} (d : Depth) {t : String}

theorem look_lift_steady {α : Type} (x : Except String α) :
    Steady S (Rewrite.look (Lookup.lift x : ReadCx α)) := .look (lift_settled x)

theorem insertRow_steady {i : Insert} (ht : t ∈ S) (hconsults : fx.consults t ⊆ S)
    (harm : Within cat S (armReads i.arm)) (s : σ) (doc : Object) :
    Steady S (insertRow ops wops cat fx n d i t s doc) := by
  refine (fx.steady (.beforeInsert doc) ht hconsults).bind fun _ => ?_
  refine (fx.steady (.conflict i s doc) ht hconsults).bind fun hit => ?_
  split
  · exact fx.steady (.place s doc) ht hconsults
  · rename_i loc existing
    split
    · exact .pure s
    · rename_i assignments selection heq
      rw [heq] at harm
      obtain ⟨has, hsel⟩ := within_append.1 harm
      refine Steady.bind (.look (upsertImage_settled d t has hsel doc existing)) fun image => ?_
      split
      · exact .pure s
      · exact fx.steady (.upsert s loc existing _) ht hconsults

theorem insertInto_steady {i : Insert} {q : Query} (ht : t ∈ S) (hconsults : fx.consults t ⊆ S)
    (hsource : Within cat S (sourceReads (some q))) (harm : Within cat S (armReads i.arm))
    (columns : List String) : Steady S (insertInto ops wops cat fx n d i t columns q) := by
  refine Steady.bind (.look (insertRows_settled d columns hsource)) fun rows => ?_
  refine (fx.steady (.newDocs i columns rows) ht hconsults).bind fun docs => ?_
  refine (look_lift_steady _).bind fun _ => ?_
  refine (fx.steady (.displace i docs) ht hconsults).bind fun r => ?_
  refine Steady.bind (.foldlM _ fun s doc _ => ?_) fun s => ?_
  · exact insertRow_steady d ht hconsults harm s doc
  · exact fx.steady (.finishInsert i s) ht hconsults

theorem updateTable_steady {u : Update} {name : List String} {opts : TableOpts}
    (ht : objName name ∈ S) (hconsults : fx.consults (objName name) ⊆ S)
    (hview : isView cat (objName name) = false) (h : Within cat S (readsWrite (.update u))) :
    Steady S (updateTable ops wops cat fx n d u name opts) := by
  obtain ⟨has, hrest⟩ := within_append.1 h
  obtain ⟨hloads, hsel⟩ := within_append.1 hrest
  refine Steady.bind_look (substAssignments_onlyOn d _ has) fun as has => ?_
  refine Steady.bind_look (selection_onlyOn d _ hsel) fun selection hsel => ?_
  refine Steady.bind (.look (probeTarget_settled ht)) fun probe => ?_
  split
  · refine Steady.bind (.look (fastUpdates_settled d _ _ has hsel _)) fun updates => ?_
    exact fx.steady (.updateFast u updates) ht hconsults
  · refine Steady.bind (.look (tableDocs_settled ht)) fun rows => ?_
    split
    · refine Steady.bind (.look (plainUpdates_settled d _ has hsel _)) fun r => ?_
      exact fx.steady (.rewrite u _ _ _) ht hconsults
    · rename_i extra heq
      rw [heq] at hloads
      have hfrom : Within cat S (loadReads (targetFrom name opts extra)) :=
        within_append.2 ⟨within_targetFactor ht hview, hloads⟩
      refine Steady.bind (.look (loadFrom_settled d hfrom)) fun merged => ?_
      refine Steady.bind (.look (fromUpdates_settled d _ _ has hsel merged)) fun updates => ?_
      exact fx.steady (.rewrite u _ _ _) ht hconsults

theorem deleteRows_steady {del : Delete} {name : List String} {opts : TableOpts}
    (ht : objName name ∈ S) (hconsults : fx.consults (objName name) ⊆ S)
    (hview : isView cat (objName name) = false) (h : Within cat S (readsWrite (.delete del))) :
    Steady S (deleteRows ops wops cat fx n d del name opts) := by
  obtain ⟨hloads, hsel⟩ := within_append.1 h
  refine Steady.bind_look (selection_onlyOn d _ hsel) fun selection hsel => ?_
  refine Steady.bind (.look (probeTarget_settled ht)) fun probe => ?_
  split
  · refine Steady.bind (.look (matching_settled d _ hsel _ _)) fun hits => ?_
    exact fx.steady (.deleteFast del _) ht hconsults
  · refine Steady.bind (.look (tableDocs_settled ht)) fun rows => ?_
    dsimp only
    split
    · refine Steady.bind (.look (matching_settled d _ hsel _ _)) fun hits => ?_
      exact fx.steady (.remove del _ _) ht hconsults
    · rename_i extra heq
      rw [heq] at hloads
      have hfrom : Within cat S (loadReads (.mk (.table name opts) [] :: extra)) :=
        within_append.2 ⟨within_targetFactor ht hview, hloads⟩
      refine Steady.bind (.look (loadFrom_settled d hfrom)) fun merged => ?_
      refine Steady.bind (.look (matching_settled d _ hsel _ _)) fun hits => ?_
      exact fx.steady (.remove del _ _) ht hconsults

theorem mergeInto_steady {m : Merge} (ht : t ∈ S) (hconsults : fx.consults t ⊆ S)
    (h : Within cat S (readsFactor [] m.source)) (tkey : String) (arms : MergeArms) :
    Steady S (mergeInto ops wops cat fx n d m t tkey arms) := by
  have hsource : Settled S (loadTableFactor ops cat n d m.source []) :=
    (settles n).loadTableFactor d (fun _ hs => absurd hs List.not_mem_nil) h
  refine Steady.bind (.look hsource) fun sources => ?_
  refine Steady.guard fun _ => ?_
  refine Steady.bind (.look (tableDocs_settled ht)) fun targets => ?_
  refine Steady.guard fun _ => ?_
  refine (look_lift_steady _).bind fun pairs => (look_lift_steady _).bind fun updates => ?_
  exact fx.steady (.merge m updates _) ht hconsults

theorem execInsert_steady {i : Insert} (ht : ∀ t ∈ Write.target (.insert i), t ∈ S)
    (hconsults : ∀ t ∈ Write.target (.insert i), fx.consults t ⊆ S)
    (h : Within cat S (readsWrite (.insert i))) :
    Steady S (execInsert ops wops cat fx n d i) := by
  obtain ⟨hsource, harm⟩ := within_append.1 h
  unfold execInsert
  refine Steady.guard fun _ => ?_
  dsimp only
  split
  · exact .throw _
  · rename_i name htable
    have hname : objName name ∈ Write.target (.insert i) := by
      rw [Write.target, htable]
      rfl
    split
    · exact .throw _
    · refine (look_lift_steady _).bind fun _ => (look_lift_steady _).bind fun columns => ?_
      split
      · exact .throw _
      · rename_i q heq
        rw [heq] at hsource
        exact insertInto_steady d (ht _ hname) (hconsults _ hname) hsource harm columns

theorem execUpdate_steady {u : Update} (ht : ∀ t ∈ Write.target (.update u), t ∈ S)
    (hconsults : ∀ t ∈ Write.target (.update u), fx.consults t ⊆ S)
    (h : Within cat S (readsWrite (.update u))) :
    Steady S (execUpdate ops wops cat fx n d u) := by
  obtain ⟨table, assignments, sources, selection, returning⟩ := u
  unfold execUpdate
  split
  · rename_i name opts joins htable
    obtain rfl : table = .mk (.table name opts) joins := htable
    refine Steady.guard fun _ => Steady.guard fun hview => ?_
    refine Steady.guard fun _ => Steady.guard fun _ => ?_
    exact updateTable_steady d (ht _ rfl) (hconsults _ rfl) (eq_false_of_ne_true hview) h
  · exact .throw _

theorem execDelete_steady {del : Delete} (ht : ∀ t ∈ Write.target (.delete del), t ∈ S)
    (hconsults : ∀ t ∈ Write.target (.delete del), fx.consults t ⊆ S)
    (h : Within cat S (readsWrite (.delete del))) :
    Steady S (execDelete ops wops cat fx n d del) := by
  obtain ⟨tables, keyword, usingList, selection, returning⟩ := del
  unfold execDelete
  refine Steady.guard fun _ => ?_
  dsimp only
  split
  · rename_i relation joins
    refine Steady.guard fun _ => ?_
    split
    · refine Steady.guard fun hview => Steady.guard fun _ => Steady.guard fun _ => ?_
      exact deleteRows_steady d (ht _ rfl) (hconsults _ rfl) (eq_false_of_ne_true hview) h
    · exact .throw _
  · exact .throw _

theorem execMerge_steady {m : Merge} (ht : ∀ t ∈ Write.target (.merge m), t ∈ S)
    (hconsults : ∀ t ∈ Write.target (.merge m), fx.consults t ⊆ S)
    (h : Within cat S (readsWrite (.merge m))) :
    Steady S (execMerge ops wops cat fx n d m) := by
  unfold execMerge
  split
  · rename_i name opts htable
    have hname : objName name ∈ Write.target (.merge m) := by
      rw [Write.target, htable]
      rfl
    dsimp only
    split
    · exact .throw _
    · refine (look_lift_steady _).bind fun _ => (look_lift_steady _).bind fun arms => ?_
      exact mergeInto_steady d (ht _ hname) (hconsults _ hname) h _ arms
  · exact .throw _

/-- A write cannot tell apart databases that agree on its target, on what changing the target
consults, and on the tables behind the names it reads; and it leaves them in agreement. -/
theorem execWrite_steady {w : Write} (ht : ∀ t ∈ w.target, t ∈ S)
    (hconsults : ∀ t ∈ w.target, fx.consults t ⊆ S) (h : Within cat S (readsWrite w)) :
    Steady S (execWrite ops wops cat fx n d w) := by
  cases w with
  | insert i => exact execInsert_steady d ht hconsults h
  | update u => exact execUpdate_steady d ht hconsults h
  | delete del => exact execDelete_steady d ht hconsults h
  | merge m => exact execMerge_steady d ht hconsults h

end Statements

end Settled

end Docsql.Sql
