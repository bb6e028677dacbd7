import Docsql.Index.UniqueKeys

/-!
# INSERT OR REPLACE

Rows in the way go first, then each new row lands in the heap and in the trees.
What the statement leaves, and when it succeeds.
-/

namespace Docsql.Index

open StateExcept (Ends forEach)

variable {Doc H : Type} {env : Env Doc} {heap : DocHeap Doc H} {fail : Prop}
variable {rows rest : List (ℕ × Doc)} {w : Work H} {loc : ℕ} {doc : Doc} {t t' : Table H}

/-! ## Rows in the way -/

theorem lookup_isSome_of_mem {before : List (ℕ × Doc)} (h : loc ∈ before.map Prod.fst) :
    (before.lookup loc).isSome = true := by
  rw [Option.isSome_iff_ne_none, Ne, List.lookup_eq_none_iff]
  intro hnone
  obtain ⟨e, he, rfl⟩ := List.mem_map.mp h
  simpa using hnone e he

theorem docsAt_locs {before : List (ℕ × Doc)} {locs : List ℕ}
    (h : ∀ loc ∈ locs, loc ∈ before.map Prod.fst) : (docsAt before locs).map Prod.fst = locs := by
  induction locs with
  | nil => rfl
  | cons loc locs ih =>
    obtain ⟨d, hd⟩ := Option.isSome_iff_exists.mp
      (lookup_isSome_of_mem (h loc List.mem_cons_self))
    have hrest := ih fun l hl => h l (List.mem_cons_of_mem _ hl)
    unfold docsAt at hrest ⊢
    rw [List.filterMap_cons, hd]
    exact congrArg (loc :: ·) hrest

open scoped Classical in
/-- The rows picked out by a property of their documents go. -/
theorem Sound.displace_ends (h : Sound env heap True t) {locs : List ℕ} (gone : Doc → Prop)
    (hlocs : ∀ loc, loc ∈ locs ↔ ∃ row ∈ t.rows heap, row.1 = loc ∧ gone row.2)
    (hfail : fail ∨ Roomy env ∧ Obliging heap) :
    Ends (displace env heap t locs fun _ => .ok ()) ⟨t.heap, t.roots⟩ fail fun _ w' =>
      ∃ rows', rows'.map Prod.snd = (t.docs heap).filter (fun d => ¬gone d) ∧
        Between env heap True (t.specs env) (t.roots.map Prod.fst) [] rows' w' := by
  have hdistinct : ((t.rows heap).map Prod.fst).Nodup := heap.distinct t.heap
  unfold displace
  split
  · rename_i hnil
    refine .of_ok rfl ⟨t.rows heap, (List.filter_eq_self.mpr fun d hd => ?_).symm, h.start⟩
    obtain ⟨row, hrow, rfl⟩ := List.mem_map.mp hd
    refine decide_eq_true fun hgone => ?_
    have hmem := (hlocs row.1).mpr ⟨row, hrow, rfl, hgone⟩
    rw [hnil] at hmem
    cases hmem
  · refine .after_read ?_
    refine .after_except rfl ?_
    generalize hsorted : locs.toFinset.sort (· ≤ ·) = sorted
    have hmem : ∀ loc, loc ∈ sorted ↔ loc ∈ locs := fun loc => by
      rw [← hsorted, Finset.mem_sort, List.mem_toFinset]
    have hnodup : sorted.Nodup := hsorted ▸ Finset.sort_nodup _ _
    generalize hbefore : (heap.live t.heap).filter (fun e =>
      (Heap.unpackLoc e.1).1 ∈ sorted.map fun loc => (Heap.unpackLoc loc).1) = before
    have hin : ∀ loc ∈ sorted, loc ∈ before.map Prod.fst := by
      intro loc hloc
      obtain ⟨row, hrow, rfl, -⟩ := (hlocs loc).mp ((hmem loc).mp hloc)
      refine List.mem_map_of_mem (hbefore ▸ List.mem_filter.mpr ⟨hrow, decide_eq_true ?_⟩)
      exact List.mem_map_of_mem hloc
    have hstored : ∀ e ∈ before, e ∈ t.rows heap := fun e he =>
      List.mem_of_mem_filter (hbefore ▸ he)
    have htargets := docsAt_locs hin
    have hpicked : Picked (t.rows heap) (docsAt before sorted) :=
      ⟨by rw [htargets]; exact hnodup, fun e he => hstored e (mem_docsAt he)⟩
    have hfound : fail ∨ (True ∧ Roomy env) ∧ Obliging heap ∧ ∀ e ∈ t.rows heap,
        (Heap.unpackLoc e.1).1 ∈ ((docsAt before sorted).map Prod.fst).map
          (fun loc => (Heap.unpackLoc loc).1) → (before.lookup e.1).isSome = true := by
      refine hfail.imp_right fun hok => ⟨⟨trivial, hok.1⟩, hok.2, fun e he hpage => ?_⟩
      refine lookup_isSome_of_mem (List.mem_map_of_mem (hbefore ▸ List.mem_filter.mpr ⟨he, ?_⟩))
      exact decide_eq_true (htargets ▸ hpage)
    have hremove := h.removeDocs_ends hpicked hstored hfound
    rw [htargets] at hremove
    refine hremove.mono id ?_
    rintro _ w' ⟨rows', hdocs, hbetween⟩
    refine ⟨rows', hdocs.trans ?_, hbetween⟩
    rw [others, htargets, Table.docs, List.filter_map]
    refine congrArg _ (List.filter_congr fun e he => decide_eq_decide.mpr (not_congr ?_))
    rw [hmem, hlocs]
    constructor
    · rintro ⟨row, hrow, hloc, hgone⟩
      rwa [← eq_of_same_loc hdistinct hrow he hloc]
    · exact fun hgone => ⟨e, he, rfl, hgone⟩

/-! ## A new row in the trees -/

/-- The constraint columns in which the document has a value. -/
def valued (env : Env Doc) (cols : List String) (doc : Doc) : List String :=
  cols.filter fun col => (nonNull (env.get doc col)).isSome

/-- A row the table can hold at all: the predicates of its indexes can be told, and
no column in which the row has a value is listed twice among the constraints. -/
structure Fit (env : Env Doc) (t : Table H) (doc : Doc) : Prop where
  decided : ∀ spec ∈ t.specs env, ∃ pass, qualifies doc spec = .ok pass
  once : (valued env (t.uniques env).indexed doc).Nodup

/-- Trees of columns that are done hold the new row. -/
def Partly (env : Env Doc) (specs : List (IdxSpec Doc)) (done : List String)
    (row : ℕ × Doc) (rest : List (ℕ × Doc)) (w : Work H) : Prop :=
  ∀ spec ∈ specs, ∃ tree, w.roots.lookup spec.rootKey = some tree ∧
    TreeOk env True (if spec.rootKey ∈ done then row :: rest else rest) spec tree

variable {specs : List (IdxSpec Doc)} {done cols : List String}

theorem valued_append (cols more : List String) (doc : Doc) :
    valued env (cols ++ more) doc = valued env cols doc ++ valued env more doc :=
  List.filter_append ..

theorem Partly.skip (h : Partly env specs done (loc, doc) rest w) {col : String}
    (hcol : ∀ spec ∈ specs, spec.rootKey = col → keyIn env spec doc = none) :
    Partly env specs (done ++ [col]) (loc, doc) rest w := by
  intro spec hspec
  obtain ⟨tree, hlookup, hok⟩ := h spec hspec
  refine ⟨tree, hlookup, ?_⟩
  by_cases hdone : spec.rootKey ∈ done
  · rw [if_pos hdone] at hok
    rwa [if_pos (List.mem_append_left _ hdone)]
  · rw [if_neg hdone] at hok
    split
    · rename_i hmem
      have heq : spec.rootKey = col := by simpa [hdone] using hmem
      exact (treeOk_cons_of_none (hcol spec hspec heq)).mpr hok
    · exact hok

/-- The step of one constraint column. -/
theorem addColumn_ends {col : String} {v : Value} (h : Partly env specs done (loc, doc) rest w)
    (hspec : (⟨col, [col], true, none, none⟩ : IdxSpec Doc) ∈ specs)
    (honly : ∀ spec ∈ specs, spec.rootKey = col → spec = ⟨col, [col], true, none, none⟩)
    (hv : nonNull (env.get doc col) = some v)
    (hfail : fail ∨ Admits env rest (⟨col, [col], true, none, none⟩ : IdxSpec Doc) doc ∧
      col ∉ done) :
    Ends (addEntry env col v loc true) w fail fun _ w' =>
      (Partly env specs (done ++ [col]) (loc, doc) rest w' ∧ Touched [col] w w') ∧ col ∉ done := by
  have hin : keyIn env ⟨col, [col], true, none, none⟩ doc = some v := hv
  obtain ⟨tree, hlookup, hok⟩ := h _ hspec
  by_cases hdone : col ∈ done
  · -- the tree has the key already
    rw [if_pos hdone] at hok
    have hmem : (v, loc) ∈ tree := hok.perm.mem_iff.mpr
      (List.mem_filterMap.mpr ⟨_, List.mem_cons_self, entryOf_of_keyIn hin⟩)
    have hfailed : fail := hfail.resolve_right fun hok' => hok'.2 hdone
    refine .after_ok (treeOf_eq hlookup) (ends_after_except (.inl hfailed) fun tree' hins => ?_)
    exact absurd (cmpValues_self v) ((treeInsert_ok hins).2 rfl _ hmem)
  · rw [if_neg hdone] at hok
    refine (addEntry_ends hlookup hok hin (hfail.imp_right And.left)).mono id ?_
    rintro _ w' ⟨tree', hok', hwrote⟩
    refine ⟨⟨fun spec hs => ?_, hwrote.touched⟩, hdone⟩
    by_cases hroot : spec.rootKey = col
    · obtain rfl := honly spec hs hroot
      exact ⟨tree', hwrote.tree, by rwa [if_pos (List.mem_append_right _ (by simp))]⟩
    · obtain ⟨other, hother, hkept⟩ := h spec hs
      refine ⟨other, (hwrote.other _ hroot).trans hother, ?_⟩
      simpa [hroot] using hkept

theorem addColumns_ends (h : Partly env specs done (loc, doc) rest w)
    (hcols : ∀ col ∈ cols, (⟨col, [col], true, none, none⟩ : IdxSpec Doc) ∈ specs ∧
      ∀ spec ∈ specs, spec.rootKey = col → spec = ⟨col, [col], true, none, none⟩)
    (honce : (valued env done doc).Nodup)
    (hfail : fail ∨ (∀ spec ∈ specs, Admits env rest spec doc) ∧
      (valued env (done ++ cols) doc).Nodup) :
    Ends (forEach (fun col => match nonNull (env.get doc col) with
      | none => return ()
      | some v => addEntry env col v loc true) cols) w fail fun _ w' =>
      (Partly env specs (done ++ cols) (loc, doc) rest w' ∧ Touched cols w w') ∧
        (valued env (done ++ cols) doc).Nodup := by
  induction cols generalizing done w with
  | nil =>
    rw [List.append_nil]
    exact .of_ok rfl ⟨⟨h, .refl⟩, honce⟩
  | cons col cols ih =>
    obtain ⟨hspec, honly⟩ := hcols col List.mem_cons_self
    have hrest := fun c hc => hcols c (List.mem_cons_of_mem _ hc)
    have hassoc : done ++ col :: cols = (done ++ [col]) ++ cols := by simp
    rw [hassoc] at hfail ⊢
    have hfirst : Ends (match nonNull (env.get doc col) with
        | none => return ()
        | some v => addEntry env col v loc true) w fail fun _ w₁ =>
        (Partly env specs (done ++ [col]) (loc, doc) rest w₁ ∧ Touched [col] w w₁) ∧
          (valued env (done ++ [col]) doc).Nodup := by
      cases hv : nonNull (env.get doc col) with
      | none =>
        have hnone : valued env [col] doc = [] := by simp [valued, hv]
        refine .of_ok rfl ⟨⟨h.skip fun spec hs hroot => ?_, .refl⟩, ?_⟩
        · rw [honly spec hs hroot]
          exact hv
        · rwa [valued_append, hnone, List.append_nil]
      | some v =>
        have hsome : valued env [col] doc = [col] := by simp [valued, hv]
        have hnew : (valued env (done ++ [col]) doc).Nodup ↔ col ∉ done := by
          rw [valued_append, hsome, List.nodup_append_comm, List.singleton_append,
            List.nodup_cons, and_iff_left honce]
          simp [valued, hv]
        refine (addColumn_ends h hspec honly hv (hfail.imp_right fun hok => ⟨hok.1 _ hspec,
          hnew.mp ?_⟩)).mono id fun _ w₁ hw => ⟨hw.1, hnew.mpr hw.2⟩
        rw [valued_append] at hok
        exact (List.nodup_append.mp hok.2).1
    refine hfirst.bind ?_
    rintro _ w₁ ⟨⟨h₁, htouched₁⟩, honce₁⟩
    refine (ih h₁ hrest honce₁ hfail).mono id ?_
    rintro _ w₂ ⟨⟨h₂, htouched₂⟩, honce₂⟩
    exact ⟨⟨h₂, (htouched₁.mono (by simp)).trans (htouched₂.mono (by simp))⟩, honce₂⟩

/-- A row whose entries have been added was judged by every predicate. -/
theorem reindexInsert_decided :
    Ends (reindexInsert env specs doc loc) w True fun _ _ =>
      ∀ spec ∈ specs, ∃ pass, qualifies doc spec = .ok pass := by
  induction specs generalizing w with
  | nil => exact .of_ok rfl (by simp)
  | cons spec specs ih =>
    have hone : Ends (indexTree env doc loc spec) w True fun _ _ =>
        ∃ pass, qualifies doc spec = .ok pass :=
      ends_after_except (.inl trivial) fun pass hpass => .of_forall ⟨pass, hpass⟩
    refine hone.bind fun _ w₁ hpass => ih.mono id fun _ _ hall => ?_
    exact List.forall_mem_cons.mpr ⟨hpass, hall⟩

theorem Sound.column_specs (h : Sound env heap True t) :
    ∀ col ∈ (t.uniques env).indexed,
      (⟨col, [col], true, none, none⟩ : IdxSpec Doc) ∈ t.specs env ∧
        ∀ spec ∈ t.specs env, spec.rootKey = col → spec = ⟨col, [col], true, none, none⟩ := by
  intro col hcol
  rw [← h.specOf_indexed hcol]
  refine ⟨h.mem_specs.mpr ⟨col, ?_, rfl⟩, fun spec hspec hroot => ?_⟩
  · exact (h.settled.constraints col (h.mem_indexed.mp hcol)).2
  · obtain ⟨k, -, rfl⟩ := h.mem_specs.mp hspec
    exact congrArg _ hroot

theorem Sound.indexRow_ends (h : Sound env heap True t)
    (hkeeps : Keeps env True (t.specs env) rest w)
    (hfail : fail ∨ (∀ spec ∈ t.specs env, Admits env rest spec doc) ∧
      (valued env (t.uniques env).indexed doc).Nodup) :
    Ends (indexRow env t doc loc) w fail fun _ w' =>
      (Keeps env True (t.specs env) ((loc, doc) :: rest) w' ∧ w'.heap = w.heap ∧
        w'.roots.map Prod.fst = w.roots.map Prod.fst) ∧ Fit env t doc := by
  have hstart : Partly env (t.specs env) [] (loc, doc) rest w := by
    simpa [Partly, Keeps] using hkeeps
  refine (addColumns_ends hstart h.column_specs List.nodup_nil hfail).bind ?_
  rintro _ w₁ ⟨⟨hpartly, htouched₁⟩, honce⟩
  rw [List.nil_append] at hpartly honce
  have hothers : Keeps env True ((t.specs env).filter fun s => s.rootKey ∉ (t.uniques env).indexed)
      rest w₁ := by
    intro spec hspec
    obtain ⟨hmem, hnot⟩ := List.mem_filter.mp hspec
    obtain ⟨tree, hlookup, hok⟩ := hpartly spec hmem
    rw [if_neg (of_decide_eq_true hnot)] at hok
    exact ⟨tree, hlookup, hok⟩
  have hnodup : (((t.specs env).filter fun s => s.rootKey ∉ (t.uniques env).indexed).map
      IdxSpec.rootKey).Nodup := h.rootKeys_nodup.sublist (List.filter_sublist.map _)
  refine ((reindexInsert_ends hnodup hothers (hfail.imp_right fun hok spec hspec =>
    hok.1 spec (List.mem_of_mem_filter hspec))).and reindexInsert_decided).mono id ?_
  rintro _ w₂ ⟨⟨hkept, htouched₂⟩, hdecided⟩
  refine ⟨⟨fun spec hspec => ?_, htouched₂.heap.trans htouched₁.heap,
    htouched₂.keys.trans htouched₁.keys⟩, ⟨fun spec hspec => ?_, honce⟩⟩
  · by_cases hcol : spec.rootKey ∈ (t.uniques env).indexed
    · obtain ⟨tree, hlookup, hok⟩ := hpartly spec hspec
      rw [if_pos hcol] at hok
      refine ⟨tree, (htouched₂.other _ fun hmem => ?_).trans hlookup, hok⟩
      obtain ⟨other, hother, hroot⟩ := List.mem_map.mp hmem
      exact of_decide_eq_true (List.mem_filter.mp hother).2 (hroot ▸ hcol)
    · exact hkept spec (List.mem_filter.mpr ⟨hspec, decide_eq_true hcol⟩)
  · by_cases hcol : spec.rootKey ∈ (t.uniques env).indexed
    · rw [(h.column_specs _ hcol).2 spec hspec rfl]
      exact ⟨true, rfl⟩
    · exact hdecided spec (List.mem_filter.mpr ⟨hspec, decide_eq_true hcol⟩)

/-! ## The rows of a batch -/

theorem Fit.uniqueKeys_runs (h : Fit env t doc) :
    ∃ ks, uniqueKeys env (t.uniques env) doc = .ok ks :=
  Index.uniqueKeys_runs fun spec hspec => h.decided spec (List.mem_of_mem_filter hspec)

/-- A row that hits none of the indexed ones has its place in every tree. -/
theorem Sound.admits (h : Sound env heap True t) (haddr : Addressable env t.tableMeta)
    (hroomy : Roomy env) (hfit : Fit env t doc)
    (hfree : ∀ row ∈ rows, ¬Hits env t.tableMeta (t.uniques env) doc row.2) :
    ∀ spec ∈ t.specs env, Admits env rows spec doc := by
  refine fun spec hspec => ⟨hroomy, hfit.decided spec hspec, fun hu key hin e he heq => ?_⟩
  obtain ⟨row, hrow, hentry⟩ := List.mem_filterMap.mp he
  obtain ⟨k, hk, rfl⟩ := Option.map_eq_some_iff.mp hentry
  obtain ⟨ks, hks⟩ := hfit.uniqueKeys_runs
  refine hfree row hrow ⟨ks, hks, _, h.mem_of_keyIn haddr hks hspec hu hin, k, ?_, heq⟩
  obtain ⟨k', -, rfl⟩ := h.mem_specs.mp hspec
  exact hk

theorem Sound.insertRows_ends (h : Sound env heap True t) (haddr : Addressable env t.tableMeta)
    (req : InsertReq Doc) (hreq : req.policy = .replace) {docs : List Doc} {out : Placed Doc}
    {keys : List String} (hbetween : Between env heap True (t.specs env) keys [] rows w)
    (hfail : fail ∨ (Roomy env ∧ Obliging heap) ∧ (∀ d ∈ docs, Fit env t d) ∧
      (∀ d ∈ docs, ∀ row ∈ rows, ¬Hits env t.tableMeta (t.uniques env) d row.2) ∧
        docs.Pairwise fun a b => ¬Hits env t.tableMeta (t.uniques env) b a) :
    Ends (insertRows env heap t req docs out) w fail fun _ w' =>
      (∃ rows', (rows'.map Prod.snd).Perm (docs ++ rows.map Prod.snd) ∧
        Between env heap True (t.specs env) keys [] rows' w') ∧ ∀ d ∈ docs, Fit env t d := by
  induction docs generalizing rows w out with
  | nil => exact .of_ok rfl ⟨⟨rows, List.Perm.refl _, hbetween⟩, by simp⟩
  | cons doc docs ih =>
    have hnone : conflictFor env t req doc w = (.ok none, w) := by
      rw [conflictFor, if_neg (by simp [hreq])]
      rfl
    refine .after_ok hnone ?_
    refine (insertRow_ends hbetween doc (hfail.imp_right fun hok => hok.1.2)).bind ?_
    rintro loc w₁ h₁
    refine (h.indexRow_ends h₁.keeps (hfail.imp_right fun hok =>
      ⟨h.admits haddr hok.1.1 (hok.2.1 doc List.mem_cons_self)
        (hok.2.2.1 doc List.mem_cons_self),
        (hok.2.1 doc List.mem_cons_self).once⟩)).bind ?_
    rintro _ w₂ ⟨⟨hkeeps₂, hheap₂, hkeys₂⟩, hfit⟩
    have h₂ : Between env heap True (t.specs env) keys [] ((loc, doc) :: rows) w₂ :=
      ⟨by rw [hheap₂]; exact h₁.stored, hkeeps₂, hkeys₂.trans h₁.keys⟩
    refine (ih h₂ (hfail.imp_right ?_)).mono id ?_
    · rintro ⟨hok, hfits, hfree, hapart⟩
      obtain ⟨hfirst, hrest⟩ := List.pairwise_cons.mp hapart
      refine ⟨hok, fun d hd => hfits d (List.mem_cons_of_mem _ hd), fun d hd => ?_, hrest⟩
      exact List.forall_mem_cons.mpr ⟨hfirst d hd, hfree d (List.mem_cons_of_mem _ hd)⟩
    · rintro _ w₃ ⟨⟨rows', hdocs, h₃⟩, hfits⟩
      refine ⟨⟨rows', hdocs.trans ?_, h₃⟩, List.forall_mem_cons.mpr ⟨hfit, hfits⟩⟩
      exact List.perm_middle

end Docsql.Index
