import Docsql.EncodeRoundTrip
import Docsql.Lib.RefGraph
import Docsql.Catalog.Ddl

/-!
# References in the catalog

`Sound` says that nothing in the catalog dangles and that no view leads back to itself.  What
an object is called, what kind of object it is and what it refers to is all read off `get`, so
each change of the catalog is described by what it does to `get`.
-/

namespace Docsql.Catalog

open Sql (Query)
open Lib

/-! ## Lists of entries -/

section Entries

variable {α β : Type}

theorem lookup_map_entries (f : String → α → β) (t : String) (l : List (String × α)) :
    (l.map fun p => (p.1, f p.1 p.2)).lookup t = (l.lookup t).map (f t) := by
  induction l with
  | nil => rfl
  | cons p rest ih =>
    rw [List.map_cons, List.lookup_cons, List.lookup_cons]
    by_cases htp : t = p.1
    · simp [htp]
    · rw [beq_eq_false_iff_ne.2 htp]
      exact ih

theorem lookup_filter_keys (gone : List String) (t : String) (l : List (String × α)) :
    (l.filter fun p => p.1 ∉ gone).lookup t = if t ∈ gone then none else l.lookup t := by
  induction l with
  | nil => simp
  | cons p rest ih =>
    by_cases hgone : p.1 ∈ gone
    · rw [List.filter_cons_of_neg (by simpa using hgone), ih, List.lookup_cons]
      by_cases htp : t = p.1
      · rw [htp, if_pos hgone, if_pos hgone]
      · rw [beq_eq_false_iff_ne.2 htp]
    · rw [List.filter_cons_of_pos (by simpa using hgone), List.lookup_cons, List.lookup_cons]
      by_cases htp : t = p.1
      · rw [htp, if_neg hgone, beq_self_eq_true]
      · rw [beq_eq_false_iff_ne.2 htp]
        exact ih

end Entries

namespace Schema

variable (s : Schema)

theorem get_put (name t : String) (e : Entry) :
    (s.put name e).get t = if t = name then some e else s.get t :=
  lookup_insertField name t e s.tables

theorem get_create (name t : String) (columns : List String) (foreignKeys : List FkRef)
    (kind : Kind) : (s.create name columns foreignKeys kind).get t =
      if t = name then some ⟨s.next, columns, foreignKeys, kind⟩ else s.get t :=
  s.get_put name t _

theorem get_mapEntries (f : String → Entry → Entry) (t : String) :
    (s.mapEntries f).get t = (s.get t).map (f t) :=
  lookup_map_entries f t s.tables

theorem get_removeAll (gone : List String) (t : String) :
    (s.removeAll gone).get t = if t ∈ gone then none else s.get t :=
  lookup_filter_keys gone t s.tables

theorem mem_names {n : String} {e : Entry} (h : s.get n = some e) : n ∈ s.names := by
  obtain ⟨before, after, hsplit, -⟩ := List.lookup_eq_some_iff.1 h
  rw [names, hsplit]
  simp

theorem catalog_get (t : String) : s.catalog.get t = (s.get t).map Entry.toMeta :=
  lookup_map_entries (fun _ => Entry.toMeta) t s.tables

theorem tableExists_catalog (t : String) : s.catalog.tableExists t = (s.get t).isSome := by
  rw [Sql.Catalog.tableExists, catalog_get, Option.isSome_map]

/-- The names in the query of a view. -/
def viewRefs (v : String) : Option (List String) :=
  (s.get v).bind fun e => match e.kind with
    | .view q => some (Sql.namesQuery [] q)
    | _ => none

variable {s}

theorem viewRefs_eq_some {v : String} {refs : List String} (h : s.viewRefs v = some refs) :
    ∃ e q, s.get v = some e ∧ e.kind = .view q ∧ refs = Sql.namesQuery [] q := by
  obtain ⟨e, hget, hrefs⟩ := Option.bind_eq_some_iff.1 h
  split at hrefs
  · rename_i q hkind
    cases hrefs
    exact ⟨e, q, hget, hkind, rfl⟩
  · cases hrefs

theorem viewRefs_of_view {v : String} {e : Entry} {q : Query} (hget : s.get v = some e)
    (hkind : e.kind = .view q) : s.viewRefs v = some (Sql.namesQuery [] q) := by
  unfold viewRefs
  rw [hget, Option.bind_some, hkind]

end Schema

/-! ## What it is for a catalog to be sound -/

/-- Every name in a stored query exists, every trigger is on the table it was made for, every
foreign key is on a column of a table, and no view leads back to itself. -/
structure Sound (s : Schema) : Prop where
  queries : ∀ n e q, s.get n = some e → e.query = some q →
    ∀ t ∈ Sql.namesQuery [] q, (s.get t).isSome
  triggers : ∀ p ∈ s.triggers, ∃ e, s.get p.2.table = some e ∧ e.isView = false ∧
    e.id = p.2.made
  foreignKeys : ∀ n e, s.get n = some e → ∀ fk ∈ e.foreignKeys, ∃ parent,
    s.get fk.refTable = some parent ∧ parent.isView = false ∧ fk.refCol ∈ parent.columns
  acyclic : RefGraph.Acyclic s.viewRefs

/-- The walker reports every name of the query, whatever is in the catalog. -/
def Legible (q : Query) : Prop := ∀ cat : Sql.Catalog, Sql.Reported cat q

/-- A view body is one the walker goes through and reports in full. -/
def Walked (q : Query) : Prop := Legible q ∧ ∀ objects, (Sql.walkQuery objects q).ok = true

/-- What statements rely on: the walker tells what the views read. -/
structure Inv (s : Schema) : Prop extends Sound s where
  walked : ∀ n e q, s.get n = some e → e.kind = .view q → Walked q

theorem Walked.of_ok {q : Query} {objects : String → Bool} (h : Legible q)
    (hok : (Sql.walkQuery objects q).ok = true) : Walked q := by
  refine ⟨h, fun objects' => ?_⟩
  unfold Sql.walkQuery at hok ⊢
  rw [Sql.walkQueryShadowed_ok objects' objects [] [] q]
  exact hok

/-- An existing name of the query is reported. -/
theorem Walked.mem_names {q : Query} (h : Walked q) {s : Schema} {t : String}
    (ht : t ∈ Sql.namesQuery [] q) (hex : (s.get t).isSome) :
    t ∈ (Sql.walkQuery s.catalog.tableExists q).names := by
  refine Sql.mem_walk_of_reported (h.2 _) (h.1 s.catalog) ?_ ?_
  · exact Sql.namesQuery_subset (List.Subset.refl []) q ht
  · rw [s.tableExists_catalog]
    exact hex

namespace Entry

variable {e : Entry} {q : Query}

theorem isView_of_kind (h : e.kind = .view q) : e.isView = true := by
  unfold isView
  rw [h]

theorem kind_of_isView (h : e.isView = true) : ∃ q, e.kind = .view q := by
  unfold isView at h
  split at h
  · rename_i q hkind
    exact ⟨q, hkind⟩
  · cases h

theorem isView_of_isMatview (h : e.isMatview = true) : e.isView = false := by
  unfold isMatview at h
  split at h
  · rename_i q hkind
    rw [isView, hkind]
  · cases h

theorem query_of_view (h : e.kind = .view q) : e.query = some q := by
  unfold query
  rw [h]

theorem kind_of_query (h : e.query = some q) : e.kind = .view q ∨ e.kind = .matview q := by
  unfold query at h
  split at h
  · cases h
  · rename_i q' hkind
    cases h
    exact .inl hkind
  · rename_i q' hkind
    cases h
    exact .inr hkind

end Entry

namespace Inv

variable {s : Schema}

theorem viewBaseTables (h : Inv s) {n : String} {e : Entry} {q : Query}
    (hget : s.get n = some e) (hkind : e.kind = .view q) :
    Sql.viewBaseTables s.catalog n = some (Sql.walkQuery s.catalog.tableExists q).names := by
  have hmeta : s.catalog.get n = some ⟨e.columns, some (.ok q)⟩ := by
    rw [s.catalog_get, hget]
    simp only [Option.map_some, Entry.toMeta, hkind]
  exact Sql.viewBaseTables_of_ok hmeta ((h.walked n e q hget hkind).2 _)

/-- Names in the body of a view are among its base tables. -/
theorem mem_bases (h : Inv s) {n t : String} {e : Entry} {q : Query}
    (hget : s.get n = some e) (hkind : e.kind = .view q) (ht : t ∈ Sql.namesQuery [] q) :
    ∃ bases, Sql.viewBaseTables s.catalog n = some bases ∧ t ∈ bases :=
  ⟨_, h.viewBaseTables hget hkind, (h.walked n e q hget hkind).mem_names ht
    (h.queries n e q hget (Entry.query_of_view hkind) t ht)⟩

end Inv

end Docsql.Catalog
