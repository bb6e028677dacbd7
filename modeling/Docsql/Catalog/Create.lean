import Docsql.Lib.StateExcept
import Docsql.Catalog.Refs

/-!
# CREATE keeps references

A new or replaced object leaves the rest of the catalog as it was.  What refers to it must
find in it what it found before, and what it refers to must be there.
-/

namespace Docsql.Catalog

open Sql (Query Rows)
open Lib

variable {s s' : Schema}

/-! ## An object gets a definition -/

/-- `s'` is `s` but for the object `name`, which is `e`. -/
structure Defined (s s' : Schema) (name : String) (e : Entry) : Prop where
  get : ∀ t, s'.get t = if t = name then some e else s.get t
  triggers : s'.triggers = s.triggers

namespace Defined

variable {name : String} {e : Entry}

theorem of_put (name : String) (e : Entry) : Defined s (s.put name e) name e :=
  ⟨fun t => s.get_put name t e, rfl⟩

theorem of_create (name : String) (columns : List String) (foreignKeys : List FkRef)
    (kind : Kind) : Defined s (s.create name columns foreignKeys kind) name
      ⟨s.next, columns, foreignKeys, kind⟩ :=
  ⟨fun t => s.get_create name t columns foreignKeys kind, rfl⟩

theorem get_self (h : Defined s s' name e) : s'.get name = some e := by
  rw [h.get, if_pos rfl]

theorem get_other (h : Defined s s' name e) {t : String} (ht : t ≠ name) :
    s'.get t = s.get t := by
  rw [h.get, if_neg ht]

theorem isSome (h : Defined s s' name e) {t : String} (ht : (s.get t).isSome) :
    (s'.get t).isSome := by
  by_cases hname : t = name
  · rw [hname, h.get_self]
    rfl
  · rwa [h.get_other hname]

/-- The object was there and is as before to those who refer to it, or it is new. -/
def Kept (s : Schema) (name : String) (e : Entry) : Prop :=
  ∀ old, s.get name = some old → e.id = old.id ∧ e.isView = old.isView

theorem acyclic_of_table (h : Defined s s' name e) (hview : e.isView = false)
    (hacyclic : RefGraph.Acyclic s.viewRefs) : RefGraph.Acyclic s'.viewRefs := by
  refine hacyclic.mono fun v refs hrefs => ?_
  obtain ⟨o, q, hget, hkind, rfl⟩ := Schema.viewRefs_eq_some hrefs
  by_cases hname : v = name
  · rw [hname, h.get_self] at hget
    cases hget
    rw [Entry.isView_of_kind hkind] at hview
    cases hview
  · rw [h.get_other hname] at hget
    exact Schema.viewRefs_of_view hget hkind

theorem viewRefs_of_view (h : Defined s s' name e) {q : Query} (hkind : e.kind = .view q) :
    s'.viewRefs = Function.update s.viewRefs name (some (Sql.namesQuery [] q)) := by
  funext v
  by_cases hname : v = name
  · subst hname
    rw [Function.update_self]
    exact Schema.viewRefs_of_view h.get_self hkind
  · rw [Function.update_of_ne hname]
    unfold Schema.viewRefs
    rw [h.get_other hname]

end Defined

theorem Inv.defined {name : String} {e : Entry} (h : Inv s) (hdef : Defined s s' name e)
    (hkept : Defined.Kept s name e)
    (hquery : ∀ q, e.query = some q → ∀ t ∈ Sql.namesQuery [] q, (s.get t).isSome)
    (hfks : ∀ fk ∈ e.foreignKeys, ∃ parent, s'.get fk.refTable = some parent ∧
      parent.isView = false ∧ fk.refCol ∈ parent.columns)
    (hcols : ∀ n o, s.get n = some o → n ≠ name → ∀ fk ∈ o.foreignKeys, fk.refTable = name →
      fk.refCol ∈ e.columns)
    (hacyclic : RefGraph.Acyclic s'.viewRefs) (hwalked : ∀ q, e.kind = .view q → Walked q) :
    Inv s' where
  queries := by
    intro n o q hget hq t ht
    by_cases hname : n = name
    · rw [hname, hdef.get_self] at hget
      cases hget
      exact hdef.isSome (hquery q hq t ht)
    · rw [hdef.get_other hname] at hget
      exact hdef.isSome (h.queries n o q hget hq t ht)
  triggers := by
    intro p hp
    rw [hdef.triggers] at hp
    obtain ⟨o, hget, hview, hid⟩ := h.triggers p hp
    by_cases hname : p.2.table = name
    · rw [hname] at hget ⊢
      obtain ⟨hid', hview'⟩ := hkept o hget
      exact ⟨e, hdef.get_self, hview'.trans hview, hid'.trans hid⟩
    · exact ⟨o, (hdef.get_other hname).trans hget, hview, hid⟩
  foreignKeys := by
    intro n o hget fk hfk
    by_cases hname : n = name
    · rw [hname, hdef.get_self] at hget
      cases hget
      exact hfks fk hfk
    · rw [hdef.get_other hname] at hget
      obtain ⟨parent, hparent, hview, hcol⟩ := h.foreignKeys n o hget fk hfk
      by_cases href : fk.refTable = name
      · rw [href] at hparent ⊢
        exact ⟨e, hdef.get_self, (hkept parent hparent).2.trans hview,
          hcols n o hget hname fk hfk href⟩
      · exact ⟨parent, (hdef.get_other href).trans hparent, hview, hcol⟩
  acyclic := hacyclic
  walked := by
    intro n o q hget hkind
    by_cases hname : n = name
    · rw [hname, hdef.get_self] at hget
      cases hget
      exact hwalked q hkind
    · rw [hdef.get_other hname] at hget
      exact h.walked n o q hget hkind

/-- Nothing refers to a name that is not there. -/
theorem Inv.unreferenced (h : Inv s) {name : String} (hnone : s.get name = none) {n : String}
    {o : Entry} (hget : s.get n = some o) {fk : FkRef} (hfk : fk ∈ o.foreignKeys) :
    fk.refTable ≠ name := by
  intro href
  obtain ⟨parent, hparent, -⟩ := h.foreignKeys n o hget fk hfk
  rw [href, hnone] at hparent
  cases hparent

theorem kept_of_none {name : String} {e : Entry} (hnone : s.get name = none) :
    Defined.Kept s name e := by
  intro old hold
  rw [hnone] at hold
  cases hold

/-- A table or a materialized view that is there gets other columns, or fewer foreign keys. -/
theorem Inv.altered (h : Inv s) {name : String} {e e' : Entry} (hget : s.get name = some e)
    (hid : e'.id = e.id) (hview : e.isView = false) (hview' : e'.isView = false)
    (hquery : ∀ q, e'.query = some q → ∀ t ∈ Sql.namesQuery [] q, (s.get t).isSome)
    (hfks : e'.foreignKeys ⊆ e.foreignKeys)
    (hcols : ∀ n o, s.get n = some o → ∀ fk ∈ o.foreignKeys, fk.refTable = name →
      fk.refCol ∈ e'.columns) : Inv (s.put name e') := by
  have hdef := Defined.of_put (s := s) name e'
  refine h.defined hdef ?_ hquery ?_ (fun n o hn _ => hcols n o hn)
    (hdef.acyclic_of_table hview' h.acyclic) fun q hq => ?_
  · intro old hold
    rw [hget] at hold
    cases hold
    exact ⟨hid, hview'.trans hview.symm⟩
  · intro fk hfk
    by_cases href : fk.refTable = name
    · rw [href]
      exact ⟨e', hdef.get_self, hview', hcols name e hget fk (hfks hfk) href⟩
    · rw [hdef.get_other href]
      exact h.foreignKeys name e hget fk (hfks hfk)
  · rw [Entry.isView_of_kind hq] at hview'
    cases hview'

/-! ## CREATE TABLE -/

theorem checkForeignKey_ok {name : String} {fk : FkRef} (h : checkForeignKey s name fk = .ok ())
    (hne : fk.refTable ≠ name) : ∃ parent, s.get fk.refTable = some parent ∧
      parent.isView = false ∧ fk.refCol ∈ parent.columns := by
  unfold checkForeignKey at h
  rw [if_neg hne] at h
  split at h
  · cases h
  · rename_i parent hparent
    split at h
    · cases h
    · rename_i hview
      split at h
      · cases h
      · rename_i hcol
        exact ⟨parent, hparent, eq_false_of_ne_true hview, not_not.1 hcol⟩

/-- A foreign key of a table on itself names a declared column. -/
def SelfKeysDeclared (name : String) (columns : List String) (foreignKeys : List FkRef) : Prop :=
  ∀ fk ∈ foreignKeys, fk.refTable = name → fk.refCol ∈ columns

theorem createTable_inv (h : Inv s) {name : String} {columns : List String}
    {foreignKeys : List FkRef} {ifNotExists : Bool}
    (hself : s.get name = none → SelfKeysDeclared name columns foreignKeys)
    (hexec : createTable s name columns foreignKeys ifNotExists = .ok s') : Inv s' := by
  obtain ⟨_, -, hexec⟩ := Except.bind_eq_ok_iff.1 hexec
  split at hexec
  · split at hexec
    · cases hexec
      exact h
    · cases hexec
  · rename_i hfree
    obtain ⟨_, hchecked, hexec⟩ := Except.bind_eq_ok_iff.1 hexec
    cases hexec
    have hnone : s.get name = none := by simpa using hfree
    have hdef := Defined.of_create (s := s) name columns foreignKeys .table
    refine h.defined hdef (kept_of_none hnone) nofun ?_ ?_ (hdef.acyclic_of_table rfl h.acyclic)
      nofun
    · intro fk hfk
      by_cases href : fk.refTable = name
      · rw [href]
        exact ⟨_, hdef.get_self, rfl, hself hnone fk hfk href⟩
      · rw [hdef.get_other href]
        exact checkForeignKey_ok (Sql.forM_ok hchecked fk hfk) href
    · intro n o hget _ fk hfk href
      exact absurd href (h.unreferenced hnone hget hfk)

variable {ops : DdlOps} {db : String → Rows}

/-- A new object that is no view and has no foreign keys. -/
theorem Inv.created (h : Inv s) {name : String} {columns : List String} {kind : Kind}
    (hnone : s.get name = none) (hkind : ∀ q, kind ≠ .view q)
    (hquery : ∀ q, kind = .matview q → ∀ t ∈ Sql.namesQuery [] q, (s.get t).isSome) :
    Inv (s.create name columns [] kind) := by
  have hdef := Defined.of_create (s := s) name columns [] kind
  have hview : (⟨s.next, columns, [], kind⟩ : Entry).isView = false := by
    refine eq_false_of_ne_true fun hview => ?_
    obtain ⟨q, hq⟩ := Entry.kind_of_isView hview
    exact hkind q hq
  refine h.defined hdef (kept_of_none hnone) ?_ nofun ?_ (hdef.acyclic_of_table hview h.acyclic)
    fun q hq => absurd hq (hkind q)
  · intro q hq
    exact hquery q ((Entry.kind_of_query hq).resolve_left (hkind q))
  · intro n o hget _ fk hfk href
    exact absurd href (h.unreferenced hnone hget hfk)

theorem createTableAs_inv (h : Inv s) {name : String} {q : Query} {ifNotExists : Bool}
    (hexec : createTableAs ops db s name q ifNotExists = .ok s') : Inv s' := by
  obtain ⟨_, -, hexec⟩ := Except.bind_eq_ok_iff.1 hexec
  split at hexec
  · split at hexec
    · cases hexec
      exact h
    · cases hexec
  · rename_i hfree
    obtain ⟨r, -, hexec⟩ := Except.bind_eq_ok_iff.1 hexec
    cases hexec
    exact h.created (by simpa using hfree) nofun nofun

/-! ## CREATE VIEW -/

/-- The budget of a cycle check is never used up: it fails on the view itself only. -/
theorem checkCycle_error {name e : String} {refs : List String}
    (h : checkCycle s name refs = .error e) :
    e = s!"view {name} cannot reference itself (through {name})" := by
  have hdrain : Lib.Worklist.drain (visitRef s name) "" s.tables.length
      { stack := refs.reverse } = .error e := by
    rcases Except.bind_eq_error_iff.1 h with hrun | ⟨out, -, hdone⟩
    · exact hrun
    · cases hdone
  have hitems (t : String) (next : List String)
      (hvisit : visitRef s name t = .ok (.expand next)) :
      t ∈ (s.catalog.map Prod.fst).toFinset := by
    unfold visitRef at hvisit
    split at hvisit
    · cases hvisit
    · split at hvisit
      · rename_i deeper hview
        exact List.mem_toFinset.2 (Sql.mem_of_viewBaseTables hview)
      · cases hvisit
  have hbudget : ((s.catalog.map Prod.fst).toFinset \ [].toFinset).card ≤ s.tables.length := by
    refine (Finset.card_le_card Finset.sdiff_subset).trans ?_
    refine (List.toFinset_card_le _).trans_eq ?_
    rw [List.length_map, Schema.catalog, List.length_map]
  obtain ⟨t, ht⟩ := Lib.Worklist.drain_error hitems hbudget hdrain
  unfold visitRef at ht
  split at ht
  · rename_i hname
    cases ht
    rw [hname]
  · split at ht <;> cases ht

/-- The names a replaced view leads to, without the view itself. -/
theorem checkCycle_ok (h : Inv s) {name : String} {refs : List String}
    (hcycle : checkCycle s name refs = .ok ()) :
    ∃ C : Set String, RefGraph.Closed s.viewRefs C ∧ name ∉ C ∧ ∀ t ∈ refs, t ∈ C := by
  obtain ⟨out, hdrain, -⟩ := Except.bind_eq_ok_iff.1 hcycle
  obtain ⟨seen, hinv, hmem⟩ := Lib.Worklist.drain_spec (s := { stack := refs.reverse })
    (fun t ht => absurd ht List.not_mem_nil) hdrain
  have hvisited {t : String} (ht : t ∈ seen) : ∃ v, visitRef s name t = .ok v := by
    rcases hinv t ht with ⟨hleaf, -⟩ | hstop | ⟨next, hexpand, -⟩
    · exact ⟨_, hleaf⟩
    · exact ⟨_, hstop⟩
    · exact ⟨_, hexpand⟩
  refine ⟨{t | t ∈ seen}, ?_, ?_, fun t ht => hmem t (.inr (List.mem_reverse.2 ht))⟩
  · rintro v hv w ⟨names, hnames, hw⟩
    obtain ⟨e, q, hget, hkind, rfl⟩ := Schema.viewRefs_eq_some hnames
    obtain ⟨bases, hbases, hbase⟩ := h.mem_bases hget hkind hw
    obtain ⟨visit, hvisit⟩ := hvisited hv
    have hexpand : visitRef s name v = .ok (.expand bases) := by
      unfold visitRef at hvisit ⊢
      split at hvisit
      · cases hvisit
      · rename_i hne
        rw [if_neg hne, hbases]
    rcases hinv v hv with ⟨hleaf, -⟩ | hstop | ⟨next, hnext, hpushed⟩
    · rw [hexpand] at hleaf
      cases hleaf
    · rw [hexpand] at hstop
      cases hstop
    · rw [hexpand] at hnext
      cases hnext
      exact (hpushed w hbase).resolve_right List.not_mem_nil
  · intro hname
    obtain ⟨visit, hvisit⟩ := hvisited hname
    rw [visitRef, if_pos rfl] at hvisit
    cases hvisit

theorem checkBody_ok {name : String} {q : Query} (hcheck : checkBody s name q = .ok ()) :
    (Sql.walkQuery s.catalog.tableExists q).ok = true ∧
      name ∉ (Sql.walkQuery s.catalog.tableExists q).names ∧
      ((s.get name).isSome = true →
        checkCycle s name (Sql.walkQuery s.catalog.tableExists q).names = .ok ()) := by
  unfold checkBody at hcheck
  obtain ⟨hok, hcheck⟩ := Except.guard_eq_ok hcheck
  obtain ⟨hself, hcheck⟩ := Except.guard_eq_ok hcheck
  refine ⟨by simpa using hok, hself, fun hex => ?_⟩
  rwa [if_pos hex] at hcheck

/-- The walker reports the whole body, and all of its names exist. -/
def Readable (s : Schema) (q : Query) : Prop :=
  Legible q ∧ ∀ t ∈ Sql.namesQuery [] q, (s.get t).isSome

/-- An object becomes a view, or another one. -/
theorem Inv.viewDefined (h : Inv s) {name : String} {e : Entry} {q : Query}
    (hdef : Defined s s' name e) (hkept : Defined.Kept s name e) (hkind : e.kind = .view q)
    (hfks : e.foreignKeys = []) (hread : Readable s q) (hcheck : checkBody s name q = .ok ()) :
    Inv s' := by
  obtain ⟨hok, hself, hcycle⟩ := checkBody_ok hcheck
  have hwalked : Walked q := .of_ok hread.1 hok
  refine h.defined hdef hkept ?_ ?_ ?_ ?_ ?_
  · intro q' hq'
    rw [Entry.query_of_view hkind] at hq'
    cases hq'
    exact hread.2
  · rw [hfks]
    nofun
  · intro n o hget _ fk hfk href
    obtain ⟨parent, hparent, hview, -⟩ := h.foreignKeys n o hget fk hfk
    have hsame := (hkept parent (href ▸ hparent)).2
    rw [Entry.isView_of_kind hkind, hview] at hsame
    cases hsame
  · rw [hdef.viewRefs_of_view hkind]
    cases hex : (s.get name).isSome with
    | true =>
      obtain ⟨C, hC, hname, hrefs⟩ := checkCycle_ok h (hcycle hex)
      exact h.acyclic.update hC hname fun t ht => hrefs t (hwalked.mem_names ht (hread.2 t ht))
    | false =>
      refine h.acyclic.insert ?_ ?_
      · rintro u ⟨refs, hrefs, hmem⟩
        obtain ⟨o, q', hget, hkind', rfl⟩ := Schema.viewRefs_eq_some hrefs
        have := h.queries u o q' hget (Entry.query_of_view hkind') name hmem
        rw [hex] at this
        cases this
      · intro hmem
        have := hread.2 name hmem
        rw [hex] at this
        cases this
  · intro q' hq'
    rw [hkind] at hq'
    cases hq'
    exact hwalked

theorem createView_inv (h : Inv s) {name : String} {q : Query} {orReplace ifNotExists : Bool}
    (hbody : ∀ r, runQuery ops db s { views := 1 } q = .ok r → Readable s q)
    (hexec : createView ops db s name q orReplace ifNotExists = .ok s') : Inv s' := by
  obtain ⟨_, -, hexec⟩ := Except.bind_eq_ok_iff.1 hexec
  split at hexec
  · rename_i e hget
    split at hexec
    · split at hexec
      · cases hexec
        exact h
      · cases hexec
    · split at hexec
      · cases hexec
      · rename_i hview
        obtain ⟨_, hcheck, hexec⟩ := Except.bind_eq_ok_iff.1 hexec
        obtain ⟨r, hrun, hexec⟩ := Except.bind_eq_ok_iff.1 hexec
        cases hexec
        have hkept : Defined.Kept s name
            { e with columns := [], foreignKeys := [], kind := .view q } := by
          intro old hold
          rw [hget] at hold
          cases hold
          exact ⟨rfl, (by simpa using hview : e.isView = true).symm⟩
        exact h.viewDefined (.of_put name _) hkept rfl rfl (hbody r hrun) hcheck
  · rename_i hnone
    obtain ⟨_, hcheck, hexec⟩ := Except.bind_eq_ok_iff.1 hexec
    obtain ⟨r, hrun, hexec⟩ := Except.bind_eq_ok_iff.1 hexec
    cases hexec
    exact h.viewDefined (.of_create name _ _ _) (kept_of_none hnone) rfl rfl (hbody r hrun) hcheck

/-! ## CREATE MATERIALIZED VIEW -/

/-- The query of a materialized view has all its names, and returns the columns that foreign
keys are on. -/
structure Refreshable (s : Schema) (name : String) (q : Query) (columns : List String) : Prop where
  names : ∀ t ∈ Sql.namesQuery [] q, (s.get t).isSome
  columns : ∀ n o, s.get n = some o → ∀ fk ∈ o.foreignKeys, fk.refTable = name →
    fk.refCol ∈ columns

theorem createMatview_inv (h : Inv s) {name : String} {q : Query} {orReplace ifNotExists : Bool}
    (hbody : ∀ r, runQuery ops db s {} q = .ok r → Refreshable s name q r.columns)
    (hexec : createMatview ops db s name q orReplace ifNotExists = .ok s') : Inv s' := by
  obtain ⟨_, -, hexec⟩ := Except.bind_eq_ok_iff.1 hexec
  split at hexec
  · rename_i e hget
    split at hexec
    · split at hexec
      · cases hexec
        exact h
      · cases hexec
    · split at hexec
      · cases hexec
      · rename_i hmatview
        obtain ⟨_, -, hexec⟩ := Except.bind_eq_ok_iff.1 hexec
        obtain ⟨r, hrun, hexec⟩ := Except.bind_eq_ok_iff.1 hexec
        cases hexec
        have hview : e.isView = false := Entry.isView_of_isMatview (by simpa using hmatview)
        refine h.altered hget rfl hview rfl (fun q' hq' => ?_) (List.Subset.refl _)
          (hbody r hrun).columns
        cases hq'
        exact (hbody r hrun).names
  · rename_i hnone
    obtain ⟨_, -, hexec⟩ := Except.bind_eq_ok_iff.1 hexec
    obtain ⟨r, hrun, hexec⟩ := Except.bind_eq_ok_iff.1 hexec
    cases hexec
    refine h.created hnone nofun fun q' hq' => ?_
    cases hq'
    exact (hbody r hrun).names

/-! ## Triggers -/

theorem createTrigger_inv (h : Inv s) {name table : String} {orReplace : Bool}
    (hexec : createTrigger s name table orReplace = .ok s') : Inv s' := by
  unfold createTrigger at hexec
  obtain ⟨-, hexec⟩ := Except.guard_eq_ok hexec
  split at hexec
  · cases hexec
  · rename_i e hget
    split at hexec
    · cases hexec
    · rename_i hview
      split at hexec
      · cases hexec
      · cases hexec
        refine {
          queries := h.queries
          triggers := fun p hp => ?_
          foreignKeys := h.foreignKeys
          acyclic := h.acyclic
          walked := h.walked }
        rcases mem_insertField hp with rfl | hold
        · exact ⟨e, hget, eq_false_of_ne_true hview, rfl⟩
        · exact h.triggers p hold

theorem dropTrigger_inv (h : Inv s) {names : List String} {ifExists : Bool}
    (hexec : dropTrigger s names ifExists = .ok s') : Inv s' := by
  obtain ⟨_, -, hexec⟩ := Except.bind_eq_ok_iff.1 hexec
  cases hexec
  exact {
    queries := h.queries
    triggers := fun p hp => h.triggers p (List.mem_of_mem_filter hp)
    foreignKeys := h.foreignKeys
    acyclic := h.acyclic
    walked := h.walked }

end Docsql.Catalog
