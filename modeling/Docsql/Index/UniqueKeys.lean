import Docsql.Index.UpdateContent
import Docsql.Lib.Supersede

/-!
# The unique keys of a row

What REPLACE asks the trees for.  A row hits a stored one if one of its keys is,
in the order of the tree, the key of the stored row there.  The batch filter goes
by the encodings of the keys instead, and it takes the key of a multi-column
index also from a row that fails the predicate of the index.
-/

namespace Docsql.Index

open StateExcept (Ends)
open Lib.Supersede (thin)

variable {Doc H : Type} (env : Env Doc) (heap : DocHeap Doc H)

/-- A key of the new row is the key of the stored one in the same tree. -/
def Hits (m : TableMeta) (u : Uniques Doc) (new stored : Doc) : Prop :=
  ∃ ks, uniqueKeys env u new = .ok ks ∧ ∃ e ∈ ks, ∃ k,
    keyIn env (specOf env m e.1) stored = some k ∧ cmpValues k e.2 = .eq

/-- A later row of the batch has a key with the same encoding. -/
def Shadowed (u : Uniques Doc) (doc : Doc) (later : List Doc) : Prop :=
  ∃ ks, batchKeys env u doc = .ok ks ∧ ∃ k ∈ ks, ∃ d ∈ later, ∃ ks',
    batchKeys env u d = .ok ks' ∧ k ∈ ks'

/-- All unique indexes are over columns, and their predicates are expressions. -/
structure Addressable (m : TableMeta) : Prop where
  plain : ∀ d ∈ m.indexDefs, d.unique = true → d.path = none
  parsed : ∀ d ∈ m.indexDefs, ∀ text, d.pred = some text → (env.parsePred text).isSome = true

variable {env heap} {m : TableMeta} {u : Uniques Doc} {specs : List (IdxSpec Doc)}
variable {doc : Doc} {k : String} {v : Value} {spec : IdxSpec Doc} {t : Table H}

/-! ## Keys of one row -/

theorem mem_partialKeys {ks : List (String × Value)} (h : partialKeys env doc specs = .ok ks) :
    (k, v) ∈ ks ↔ ∃ spec ∈ specs, spec.rootKey = k ∧ keyIn env spec doc = some v := by
  induction specs generalizing ks with
  | nil =>
    obtain rfl := Except.ok.inj h
    simp
  | cons spec specs ih =>
    rw [partialKeys] at h
    obtain ⟨pass, hpass, h⟩ := Except.bind_eq_ok_iff.mp h
    obtain ⟨rest, hrest, h⟩ := Except.bind_eq_ok_iff.mp h
    have hkeyIn : keyIn env spec doc = if pass then indexKeyOfSpec env doc spec else none := by
      rw [keyIn, hpass]
      cases pass <;> rfl
    rw [List.exists_mem_cons_iff, ← ih hrest, hkeyIn]
    cases hkey : indexKeyOfSpec env doc spec with
    | none =>
      rw [hkey] at h
      obtain rfl := Except.ok.inj h
      simp
    | some key =>
      rw [hkey] at h
      obtain rfl := Except.ok.inj h
      cases pass with
      | false => simp
      | true => simp [eq_comm]

theorem partialKeys_runs (env : Env Doc) (h : ∀ spec ∈ specs, ∃ pass, qualifies doc spec = .ok pass) :
    ∃ ks, partialKeys env doc specs = .ok ks := by
  induction specs with
  | nil => exact ⟨_, rfl⟩
  | cons spec specs ih =>
    obtain ⟨pass, hpass⟩ := h spec List.mem_cons_self
    obtain ⟨rest, hrest⟩ := ih fun s hs => h s (List.mem_cons_of_mem _ hs)
    rw [partialKeys, Except.bind_of_ok hpass, Except.bind_of_ok hrest]
    split
    · exact ⟨_, rfl⟩
    · exact ⟨_, rfl⟩

theorem mem_fullKeys : (k, v) ∈ fullKeys env u doc ↔
    (k ∈ u.indexed ∧ nonNull (env.get doc k) = some v) ∨
      ∃ spec ∈ u.composite, spec.rootKey = k ∧ indexKeyOfSpec env doc spec = some v := by
  unfold fullKeys
  rw [List.mem_append, List.mem_filterMap, List.mem_filterMap]
  refine or_congr ⟨?_, ?_⟩ ⟨?_, ?_⟩
  · rintro ⟨col, hcol, hmap⟩
    obtain ⟨v', hv', heq⟩ := Option.map_eq_some_iff.mp hmap
    obtain ⟨rfl, rfl⟩ := Prod.mk.inj heq
    exact ⟨hcol, hv'⟩
  · rintro ⟨hcol, hv⟩
    exact ⟨k, hcol, by rw [hv]; rfl⟩
  · rintro ⟨spec, hspec, hmap⟩
    obtain ⟨v', hv', heq⟩ := Option.map_eq_some_iff.mp hmap
    obtain ⟨rfl, rfl⟩ := Prod.mk.inj heq
    exact ⟨spec, hspec, rfl, hv'⟩
  · rintro ⟨spec, hspec, rfl, hv⟩
    exact ⟨spec, hspec, by rw [hv]; rfl⟩

theorem uniqueKeys_runs (h : ∀ spec ∈ u.partials, ∃ pass, qualifies doc spec = .ok pass) :
    ∃ ks, uniqueKeys env u doc = .ok ks := by
  obtain ⟨ks, hks⟩ := partialKeys_runs env h
  exact ⟨_, by rw [uniqueKeys, Except.bind_of_ok hks]⟩

theorem mem_uniqueKeys {ks : List (String × Value)} (h : uniqueKeys env u doc = .ok ks) :
    (k, v) ∈ ks ↔ (k ∈ u.indexed ∧ nonNull (env.get doc k) = some v) ∨
      (∃ spec ∈ u.composite, spec.rootKey = k ∧ indexKeyOfSpec env doc spec = some v) ∨
      ∃ spec ∈ u.partials, spec.rootKey = k ∧ keyIn env spec doc = some v := by
  obtain ⟨inPartial, hpart, h⟩ := Except.bind_eq_ok_iff.mp h
  obtain rfl := Except.ok.inj h
  rw [List.mem_append, mem_fullKeys, mem_partialKeys hpart, or_assoc]

/-! ## Unique trees of a table -/

section Sound

variable (h : Sound env heap True t)

include h

theorem Sound.mem_specs : spec ∈ t.specs env ↔
    ∃ k ∈ t.roots.map Prod.fst, specOf env t.tableMeta k = spec := by
  rw [h.specs_eq, List.mem_map]

theorem Sound.mem_indexed : k ∈ (t.uniques env).indexed ↔ k ∈ t.tableMeta.constraintCols := by
  refine List.mem_filter.trans (and_iff_left_of_imp fun hk => ?_)
  exact decide_eq_true (h.settled.constraints k hk).2

theorem Sound.specOf_indexed (hk : k ∈ (t.uniques env).indexed) :
    specOf env t.tableMeta k = ⟨k, [k], true, none, none⟩ := by
  have hcol := h.mem_indexed.mp hk
  rw [h.settled.specOf_column (h.settled.constraints k hcol).1, decide_eq_true hcol]

omit h in
theorem keyIn_column (k : String) (unique : Bool) :
    keyIn env ⟨k, [k], unique, none, none⟩ doc = nonNull (env.get doc k) := rfl

/-- Each key belongs to a unique tree of the table. -/
theorem Sound.root_of_mem {ks : List (String × Value)}
    (hks : uniqueKeys env (t.uniques env) doc = .ok ks) (hmem : (k, v) ∈ ks) :
    k ∈ t.roots.map Prod.fst ∧ (specOf env t.tableMeta k).unique = true := by
  have hspecs : ∀ spec ∈ t.specs env, spec.unique = true → spec.rootKey = k →
      k ∈ t.roots.map Prod.fst ∧ (specOf env t.tableMeta k).unique = true := by
    rintro spec hspec hu rfl
    obtain ⟨k, hk, rfl⟩ := h.mem_specs.mp hspec
    exact ⟨hk, hu⟩
  rcases (mem_uniqueKeys hks).mp hmem with ⟨hcol, -⟩ | ⟨spec, hspec, hroot, -⟩ |
    ⟨spec, hspec, hroot, -⟩
  · rw [h.specOf_indexed hcol]
    exact ⟨(h.settled.constraints k (h.mem_indexed.mp hcol)).2, rfl⟩
  · obtain ⟨hmem, hboth⟩ := List.mem_filter.mp hspec
    exact hspecs spec hmem (by simp_all) hroot
  · obtain ⟨hmem, hboth⟩ := List.mem_filter.mp hspec
    exact hspecs spec hmem (by simp_all) hroot

/-- The key of a row in a unique tree is among its unique keys. -/
theorem Sound.mem_of_keyIn (haddr : Addressable env t.tableMeta) {ks : List (String × Value)}
    (hks : uniqueKeys env (t.uniques env) doc = .ok ks) (hspec : spec ∈ t.specs env)
    (hu : spec.unique = true) (hin : keyIn env spec doc = some v) : (spec.rootKey, v) ∈ ks := by
  rw [mem_uniqueKeys hks]
  obtain ⟨k, hk, rfl⟩ := h.mem_specs.mp hspec
  have hrootKey : (specOf env t.tableMeta k).rootKey = k := rfl
  rw [hrootKey]
  rcases h.settled.filed k hk with hcol | ⟨d, hd, rfl, hroot⟩
  · have hcons : k ∈ t.tableMeta.constraintCols := by
      rw [h.settled.specOf_column hcol] at hu
      exact of_decide_eq_true hu
    rw [h.settled.specOf_column hcol, keyIn_column] at hin
    exact .inl ⟨h.mem_indexed.mpr hcons, hin⟩
  · have hform : specOf env t.tableMeta d.name =
        ⟨d.name, d.columns, d.unique, d.path, d.pred.bind env.parsePred⟩ := h.settled.specOf_name hd
    have hud : d.unique = true := by rwa [hform] at hu
    by_cases hpred : d.pred.isSome = true
    · -- a partial index
      obtain ⟨text, htext⟩ := Option.isSome_iff_exists.mp hpred
      refine .inr (.inr ⟨_, List.mem_filter.mpr ⟨hspec, ?_⟩, rfl, hin⟩)
      rw [hu, Bool.true_and, hform, htext]
      exact haddr.parsed d hd text htext
    · by_cases hlen : 1 < d.columns.length
      · refine .inr (.inl ⟨_, List.mem_filter.mpr ⟨hspec, ?_⟩, rfl, keyIn_le hin⟩)
        rw [hu, Bool.true_and, hform]
        exact decide_eq_true hlen
      · -- a column in the guise of an index
        have hhead : d.rootKey = d.columns.headD "" := by
          rw [IndexDef.rootKey, if_neg]
          rintro (hp | hl | hp)
          · rw [haddr.plain d hd hud] at hp
            cases hp
          · exact hlen hl
          · exact hpred hp
        obtain ⟨c, cs, hcs⟩ := List.exists_cons_of_ne_nil (h.settled.nonempty d hd)
        have hc : d.name = c := by rw [← hroot, hhead, hcs]; rfl
        exact absurd (h.settled.within d hd c (by simp [hcs])) (hc ▸ h.settled.apart d hd)

end Sound

/-! ## What the trees answer -/

theorem TreeOk.treeGet_iff {rows : List (ℕ × Doc)} {tree : Tree} {loc : ℕ}
    (h : TreeOk env True rows spec tree) (hu : spec.unique = true) :
    treeGet tree v = some loc ↔ ∃ row ∈ rows, row.1 = loc ∧ ∃ k,
      keyIn env spec row.2 = some k ∧ cmpValues k v = .eq := by
  constructor
  · intro hget
    obtain ⟨e, he, rfl⟩ := Option.map_eq_some_iff.mp hget
    obtain ⟨row, hrow, hentry⟩ := List.mem_filterMap.mp
      (h.perm.mem_iff.mp (List.mem_of_find?_eq_some he))
    obtain ⟨k, hk, rfl⟩ := Option.map_eq_some_iff.mp hentry
    exact ⟨row, hrow, rfl, k, hk, by simpa [sameKey] using List.find?_some he⟩
  · rintro ⟨row, hrow, rfl, k, hk, heq⟩
    have hmem : (k, row.1) ∈ tree :=
      h.perm.mem_iff.mpr (List.mem_filterMap.mpr ⟨row, hrow, entryOf_of_keyIn hk⟩)
    unfold treeGet
    cases hfind : tree.find? (sameKey v) with
    | none =>
      have hnot := List.find?_eq_none.mp hfind _ hmem
      simp [sameKey, heq] at hnot
    | some e =>
      have he : cmpValues e.1 v = .eq := by simpa [sameKey] using List.find?_some hfind
      have hsame : cmpValues e.1 k = .eq :=
        Std.TransCmp.eq_trans he (by rw [cmpValues_swap, heq]; rfl)
      by_contra hne
      have hdiff : e ≠ (k, row.1) := by
        rintro rfl
        exact hne rfl
      have : Std.Symm fun a b : Value × ℕ => cmpValues a.1 b.1 ≠ .eq :=
        ⟨fun _ _ => keys_differ_symm⟩
      exact (h.differ trivial hu).forall (List.mem_of_find?_eq_some hfind) hmem hdiff hsame

theorem lookupKeys_run (ks : List (String × Value)) (w : Work H) :
    lookupKeys ks w =
      (.ok (ks.filterMap fun e => (w.roots.lookup e.1).bind fun t => treeGet t e.2), w) := rfl

/-- The rows the keys of a new one find are those it hits. -/
theorem Sound.mem_lookupKeys (h : Sound env heap True t) {ks : List (String × Value)} {loc : ℕ}
    (hks : uniqueKeys env (t.uniques env) doc = .ok ks) :
    loc ∈ (ks.filterMap fun e => (t.roots.lookup e.1).bind fun tree => treeGet tree e.2) ↔
      ∃ row ∈ t.rows heap, row.1 = loc ∧ Hits env t.tableMeta (t.uniques env) doc row.2 := by
  have htree : ∀ e ∈ ks, ∃ tree, t.roots.lookup e.1 = some tree ∧
      TreeOk env True (t.rows heap) (specOf env t.tableMeta e.1) tree ∧
        (specOf env t.tableMeta e.1).unique = true := by
    rintro ⟨k, v⟩ he
    obtain ⟨hk, hu⟩ := h.root_of_mem hks he
    obtain ⟨tree, hlookup, hok⟩ := h.keeps _ (List.mem_map_of_mem hk)
    exact ⟨tree, hlookup, hok, hu⟩
  rw [List.mem_filterMap]
  constructor
  · rintro ⟨e, he, hget⟩
    obtain ⟨tree, hlookup, hok, hu⟩ := htree e he
    rw [hlookup, Option.bind_some, hok.treeGet_iff hu] at hget
    obtain ⟨row, hrow, hloc, k, hin, heq⟩ := hget
    exact ⟨row, hrow, hloc, ks, hks, e, he, k, hin, heq⟩
  · rintro ⟨row, hrow, hloc, ks', hks', e, he, k, hin, heq⟩
    obtain rfl := Except.ok.inj (hks.symm.trans hks')
    obtain ⟨tree, hlookup, hok, hu⟩ := htree e he
    refine ⟨e, he, ?_⟩
    rw [hlookup, Option.bind_some, hok.treeGet_iff hu]
    exact ⟨row, hrow, hloc, k, hin, heq⟩

/-! ## The plan of a batch -/

section Plan

variable {docs kept : List Doc} {fail : Prop}

theorem batchKeys_eq {ks : List (String × Value)} (h : uniqueKeys env u doc = .ok ks) :
    batchKeys env u doc = .ok (ks.filterMap fun e =>
      (encode env.codec e.2).toOption.map fun bytes => (e.1, bytes)) := by
  rw [batchKeys, Except.bind_of_ok h]

theorem uniqueKeys_of_batchKeys {bs : List (String × List UInt8)}
    (h : batchKeys env u doc = .ok bs) : ∃ ks, uniqueKeys env u doc = .ok ks := by
  obtain ⟨ks, hks, -⟩ := Except.bind_eq_ok_iff.mp h
  exact ⟨ks, hks⟩

open scoped Classical in
theorem keepLast_cons {bs : List (String × List UInt8)} {later : List (List (String × List UInt8))}
    (hdoc : batchKeys env u doc = .ok bs) (hlater : docs.mapM (batchKeys env u) = .ok later)
    (hkept : keepLast env u docs = .ok kept) :
    keepLast env u (doc :: docs) =
      .ok (if Shadowed env u doc docs then kept else doc :: kept) := by
  rw [keepLast, Except.bind_of_ok hdoc, Except.bind_of_ok hlater, Except.bind_of_ok hkept]
  refine congrArg _ (if_congr ?_ rfl rfl)
  rw [List.any_eq_true]
  constructor
  · rintro ⟨k, hk, hany⟩
    obtain ⟨ks', hks', hmem⟩ := List.any_eq_true.mp hany
    obtain ⟨d, hd, hrun⟩ := Except.exists_of_mapM_eq_ok hlater hks'
    exact ⟨bs, hdoc, k, hk, d, hd, ks', hrun, of_decide_eq_true hmem⟩
  · rintro ⟨bs', hdoc', k, hk, d, hd, ks', hrun, hmem⟩
    obtain rfl := Except.ok.inj (hdoc.symm.trans hdoc')
    refine ⟨k, hk, List.any_eq_true.mpr ⟨ks', ?_, decide_eq_true hmem⟩⟩
    obtain ⟨ks, hks, hrun'⟩ := Except.mem_of_mapM_eq_ok hlater hd
    rwa [Except.ok.inj (hrun.symm.trans hrun')]

open scoped Classical in
/-- The batch filter thins a batch whose keys can be computed. -/
theorem keepLast_runs (h : ∀ d ∈ docs, ∃ ks, uniqueKeys env u d = .ok ks) :
    keepLast env u docs = .ok (thin (Shadowed env u) docs) := by
  induction docs with
  | nil => rfl
  | cons doc docs ih =>
    obtain ⟨ks, hks⟩ := h doc List.mem_cons_self
    have hrest := fun d hd => h d (List.mem_cons_of_mem _ hd)
    have hkeys : ∀ d ∈ docs, ∃ bs, batchKeys env u d = .ok bs := by
      intro d hd
      obtain ⟨ks, hks⟩ := hrest d hd
      exact ⟨_, batchKeys_eq hks⟩
    obtain ⟨later, hlater⟩ := Except.mapM_runs hkeys
    rw [keepLast_cons (batchKeys_eq hks) hlater (ih hrest), thin]

theorem uniqueKeys_of_keepLast (h : keepLast env u docs = .ok kept) :
    ∀ d ∈ docs, ∃ ks, uniqueKeys env u d = .ok ks := by
  induction docs generalizing kept with
  | nil => simp
  | cons doc docs ih =>
    rw [keepLast] at h
    obtain ⟨bs, hbs, h⟩ := Except.bind_eq_ok_iff.mp h
    obtain ⟨later, -, h⟩ := Except.bind_eq_ok_iff.mp h
    obtain ⟨rest, hrest, -⟩ := Except.bind_eq_ok_iff.mp h
    exact List.forall_mem_cons.mpr ⟨uniqueKeys_of_batchKeys hbs, ih hrest⟩

/-- The stored rows in the way are those that some row of the batch hits. -/
theorem Sound.displacedBy_ends (h : Sound env heap True t)
    (hfail : fail ∨ ∀ d ∈ docs, ∃ ks, uniqueKeys env (t.uniques env) d = .ok ks) :
    Ends (displacedBy env (t.uniques env) docs) ⟨t.heap, t.roots⟩ fail fun locs w' =>
      w' = ⟨t.heap, t.roots⟩ ∧ ∀ loc, loc ∈ locs ↔ ∃ row ∈ t.rows heap, row.1 = loc ∧
        ∃ d ∈ docs, Hits env t.tableMeta (t.uniques env) d row.2 := by
  induction docs with
  | nil => exact .of_ok rfl ⟨rfl, by simp⟩
  | cons doc docs ih =>
    refine ends_after_except (hfail.imp_right fun hall => hall doc List.mem_cons_self)
      fun ks hks => ?_
    refine .after_ok (lookupKeys_run ks _) ?_
    refine (ih (hfail.imp_right fun hall d hd => hall d (List.mem_cons_of_mem _ hd))).bind ?_
    rintro locs w' ⟨rfl, hlocs⟩
    refine .of_ok rfl ⟨rfl, fun loc => ?_⟩
    rw [List.mem_append, h.mem_lookupKeys hks, hlocs]
    constructor
    · rintro (⟨row, hrow, hloc, hhit⟩ | ⟨row, hrow, hloc, d, hd, hhit⟩)
      · exact ⟨row, hrow, hloc, doc, List.mem_cons_self, hhit⟩
      · exact ⟨row, hrow, hloc, d, List.mem_cons_of_mem _ hd, hhit⟩
    · rintro ⟨row, hrow, hloc, d, hd, hhit⟩
      rcases List.mem_cons.mp hd with rfl | hd
      · exact .inl ⟨row, hrow, hloc, hhit⟩
      · exact .inr ⟨row, hrow, hloc, d, hd, hhit⟩

/-- A table without unique keys. -/
theorem uniqueKeys_of_isEmpty (hempty : u.isEmpty = true) : uniqueKeys env u doc = .ok [] := by
  obtain ⟨indexed, composite, partials⟩ := u
  simp only [Uniques.isEmpty, Bool.and_eq_true, List.isEmpty_iff] at hempty
  obtain ⟨⟨rfl, rfl⟩, rfl⟩ := hempty
  rfl

theorem thin_of_length_le {α : Type*} {p : α → List α → Prop} [∀ r rest, Decidable (p r rest)]
    (hnil : ∀ r, ¬p r []) {rs : List α} (hlen : rs.length ≤ 1) : thin p rs = rs := by
  match rs with
  | [] => rfl
  | [r] => rw [thin, if_neg (hnil r), thin]

theorem not_shadowed_nil (doc : Doc) : ¬Shadowed env u doc [] := by
  rintro ⟨ks, -, k, -, d, hd, -⟩
  cases hd

open scoped Classical in
theorem thin_of_isEmpty (hempty : u.isEmpty = true) (docs : List Doc) :
    thin (Shadowed env u) docs = docs := by
  induction docs with
  | nil => rfl
  | cons doc docs ih =>
    rw [thin, if_neg, ih]
    rintro ⟨bs, hbs, k, hk, -⟩
    rw [batchKeys_eq (uniqueKeys_of_isEmpty hempty)] at hbs
    obtain rfl := Except.ok.inj hbs
    cases hk

open scoped Classical in
/-- What REPLACE inserts and what it removes for it. -/
theorem Sound.planReplace_ends (h : Sound env heap True t)
    (hfail : fail ∨ ∀ d ∈ docs, ∃ ks, uniqueKeys env (t.uniques env) d = .ok ks) :
    Ends (planReplace env heap t docs) ⟨t.heap, t.roots⟩ fail fun plan w' =>
      w' = ⟨t.heap, t.roots⟩ ∧ plan.1 = thin (Shadowed env (t.uniques env)) docs ∧
        ∀ loc, loc ∈ plan.2 ↔ ∃ row ∈ t.rows heap, row.1 = loc ∧
          ∃ d ∈ plan.1, Hits env t.tableMeta (t.uniques env) d row.2 := by
  have hthin : 1 < docs.length ∨ thin (Shadowed env (t.uniques env)) docs = docs := by
    rcases Nat.lt_or_ge 1 docs.length with hlen | hlen
    · exact .inl hlen
    · exact .inr (thin_of_length_le not_shadowed_nil hlen)
  unfold planReplace
  dsimp only
  split
  · have hkeep : fail ∨ ∃ kept, (if 1 < docs.length then keepLast env (t.uniques env) docs
        else .ok docs) = .ok kept := by
      refine hfail.imp_right fun hall => ?_
      split
      · exact ⟨_, keepLast_runs hall⟩
      · exact ⟨_, rfl⟩
    refine ends_after_except hkeep fun kept hkept => ?_
    have heq : kept = thin (Shadowed env (t.uniques env)) docs := by
      split at hkept
      · exact (Except.ok.inj
          ((keepLast_runs (uniqueKeys_of_keepLast hkept)).symm.trans hkept)).symm
      · rename_i hlen
        rw [hthin.resolve_left hlen]
        exact (Except.ok.inj hkept).symm
    have hsub : kept ⊆ docs := heq ▸ (Lib.Supersede.thin_sublist docs).subset
    refine (h.displacedBy_ends (hfail.imp_right fun hall d hd => hall d (hsub hd))).bind ?_
    rintro locs w' ⟨rfl, hlocs⟩
    exact .of_ok rfl ⟨rfl, heq, hlocs⟩
  · rename_i hempty
    have hempty : (t.uniques env).isEmpty = true := by simpa using hempty
    have hcols : t.tableMeta.constraintCols = [] := by
      refine List.eq_nil_iff_forall_not_mem.mpr fun k hk => ?_
      have hmem := h.mem_indexed.mpr hk
      simp only [Uniques.isEmpty, Bool.and_eq_true, List.isEmpty_iff] at hempty
      rw [hempty.1.1] at hmem
      cases hmem
    rw [if_neg fun hlegacy => hlegacy.1 hcols]
    refine .of_ok rfl ⟨rfl, (thin_of_isEmpty hempty docs).symm, fun loc => ?_⟩
    refine iff_of_false List.not_mem_nil ?_
    rintro ⟨row, -, -, d, -, ks, hks, e, he, -⟩
    rw [uniqueKeys_of_isEmpty hempty] at hks
    obtain rfl := Except.ok.inj hks
    cases he

end Plan

end Docsql.Index
