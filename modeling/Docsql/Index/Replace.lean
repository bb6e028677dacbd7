import Docsql.Index.InsertContent
import Docsql.Index.ListHeap

/-!
# REPLACE with several rows

One INSERT OR REPLACE against its rows one at a time.  The comment on the batch
filter promises the semantics of single rows; the filter compares encodings where
the trees compare values, and it drops a row before the stored rows in the way of
that row are looked for.
-/

namespace Docsql.Index

open StateExcept (Ends)
open Lib.Supersede (thin supersede untouched DrivenOut mem_untouched)

section Statement

variable {Doc H : Type} (env : Env Doc) (heap : DocHeap Doc H)

/-- INSERT OR REPLACE into a table without triggers and foreign keys. -/
def replaceReq (docs : List Doc) : InsertReq Doc where
  docs := docs
  policy := .replace
  target := none
  selects _ _ := .ok true
  merge _ new := .ok new
  checkDisplaced _ := .ok ()
  checkFinal _ _ := .ok ()

/-- One statement for each row. -/
def replaceEach (t : Table H) (docs : List Doc) : Except String (Table H) :=
  docs.foldlM (fun t doc => execInsert env heap t (replaceReq [doc])) t

/-- The batch goes through and leaves what its rows leave one by one. -/
def FoldsReplace (t : Table H) (docs : List Doc) : Prop :=
  ∃ t₁ t₂, execInsert env heap t (replaceReq docs) = .ok t₁ ∧
    replaceEach env heap t docs = .ok t₂ ∧ (t₁.docs heap).Perm (t₂.docs heap)

/-- Later rows of the batch with the encoding of a key of a row are the later rows
that hit it, and a stored row that is hit is hit by a row that none shadows. -/
structure Foldable (t : Table H) (docs : List Doc) : Prop where
  fit : ∀ d ∈ docs, Fit env t d
  thinned : ∀ front d back, docs = front ++ d :: back →
    (Shadowed env (t.uniques env) d back ↔
      DrivenOut (Hits env t.tableMeta (t.uniques env)) d back)
  covered : ∀ s ∈ t.docs heap, (∃ d ∈ docs, Hits env t.tableMeta (t.uniques env) d s) →
    ∃ front d back, docs = front ++ d :: back ∧ ¬Shadowed env (t.uniques env) d back ∧
      Hits env t.tableMeta (t.uniques env) d s

/-- No row has a key of a multi-column index whose predicate it fails. -/
def Gated (t : Table H) (docs : List Doc) : Prop :=
  ∀ d ∈ docs, ∀ ks, uniqueKeys env (t.uniques env) d = .ok ks → ∀ e ∈ ks,
    keyIn env (specOf env t.tableMeta e.1) d = some e.2

end Statement

variable {Doc H : Type} {env : Env Doc} {heap : DocHeap Doc H} {fail : Prop}
variable {t t' : Table H} {docs : List Doc}

/-! ## One statement -/

open scoped Classical in
theorem Sound.execReplace_ends (h : Sound env heap True t) (haddr : Addressable env t.tableMeta)
    (hfail : fail ∨ (Roomy env ∧ Obliging heap) ∧ (∀ d ∈ docs, Fit env t d) ∧
      (thin (Shadowed env (t.uniques env)) docs).Pairwise
        fun a b => ¬Hits env t.tableMeta (t.uniques env) b a) :
    Ends (do
      let plan ← planInsert env heap t (replaceReq docs)
      displace env heap t plan.2 (replaceReq docs).checkDisplaced
      let out ← insertRows env heap t (replaceReq docs) plan.1 {}
      StateExcept.fromExcept ((replaceReq docs).checkFinal out.placed out.updated)
      let w ← StateExcept.read
      StateExcept.fromExcept (legacyCheck env t ((heap.live w.heap).map Prod.snd)))
      ⟨t.heap, t.roots⟩ fail fun _ w' => ∃ rows',
        ((rows'.map Prod.snd).Perm (thin (Shadowed env (t.uniques env)) docs ++
          untouched (Hits env t.tableMeta (t.uniques env))
            (thin (Shadowed env (t.uniques env)) docs) (t.docs heap)) ∧
              ∀ d ∈ thin (Shadowed env (t.uniques env)) docs, Fit env t d) ∧
        Between env heap True (t.specs env) (t.roots.map Prod.fst) [] rows' w' := by
  have hplan : planInsert env heap t (replaceReq docs) = planReplace env heap t docs := rfl
  rw [hplan]
  refine (h.planReplace_ends (hfail.imp_right fun hok d hd =>
    (hok.2.1 d hd).uniqueKeys_runs)).bind ?_
  rintro ⟨kept, locs⟩ w₁ ⟨rfl, hkept, hlocs⟩
  dsimp only at hkept hlocs ⊢
  rw [← hkept]
  refine (h.displace_ends (fun s => ∃ r ∈ kept, Hits env t.tableMeta (t.uniques env) r s) hlocs
    (hfail.imp_right And.left)).bind ?_
  rintro _ w₂ ⟨rows₂, hdocs₂, h₂⟩
  have hleft : rows₂.map Prod.snd =
      untouched (Hits env t.tableMeta (t.uniques env)) kept (t.docs heap) :=
    hdocs₂.trans (List.filter_congr fun d _ => by simp)
  have hrows : fail ∨ (Roomy env ∧ Obliging heap) ∧ (∀ d ∈ kept, Fit env t d) ∧
      (∀ d ∈ kept, ∀ row ∈ rows₂, ¬Hits env t.tableMeta (t.uniques env) d row.2) ∧
        kept.Pairwise fun a b => ¬Hits env t.tableMeta (t.uniques env) b a := by
    refine hfail.imp_right ?_
    rintro ⟨hok, hfits, hapart⟩
    refine ⟨hok, fun d hd => ?_, fun d hd row hrow => ?_, hkept ▸ hapart⟩
    · exact hfits d ((Lib.Supersede.thin_sublist docs).subset (hkept ▸ hd))
    · have hmem : row.2 ∈ rows₂.map Prod.snd := List.mem_map_of_mem hrow
      rw [hleft] at hmem
      exact (mem_untouched.mp hmem).2 d hd
  refine (h.insertRows_ends haddr (replaceReq docs) rfl h₂ hrows).bind ?_
  rintro out w₃ ⟨⟨rows₃, hdocs₃, h₃⟩, hfits⟩
  refine .after_except rfl (.after_read ?_)
  have hlegacy : legacyCheck env t ((heap.live w₃.heap).map Prod.snd) = .ok () := by
    rw [legacyCheck, if_pos]
    exact List.all_eq_true.mpr fun col hcol => decide_eq_true (h.settled.constraints col hcol).2
  rw [hlegacy]
  exact .of_ok rfl ⟨rows₃, ⟨hleft ▸ hdocs₃, hfits⟩, h₃⟩

open scoped Classical in
/-- What a statement that goes through leaves. -/
theorem Sound.execReplace (h : Sound env heap True t) (haddr : Addressable env t.tableMeta)
    (hrun : execInsert env heap t (replaceReq docs) = .ok t') :
    (Sound env heap True t' ∧ t'.tableMeta = t.tableMeta ∧
      t'.roots.map Prod.fst = t.roots.map Prod.fst) ∧
    (∀ d ∈ thin (Shadowed env (t.uniques env)) docs, Fit env t d) ∧
      (t'.docs heap).Perm (thin (Shadowed env (t.uniques env)) docs ++
        untouched (Hits env t.tableMeta (t.uniques env))
          (thin (Shadowed env (t.uniques env)) docs) (t.docs heap)) := by
  obtain ⟨hsame, rows, ⟨hdocs, hfits⟩, hperm⟩ := h.commit (fun rows => rows.Perm _ ∧ _)
    (h.execReplace_ends haddr (.inl trivial)) hrun
  exact ⟨hsame, hfits, hperm.trans hdocs⟩

open scoped Classical in
theorem Sound.execReplace_runs (h : Sound env heap True t) (haddr : Addressable env t.tableMeta)
    (hroomy : Roomy env) (hobliging : Obliging heap) (hfit : ∀ d ∈ docs, Fit env t d)
    (hapart : (thin (Shadowed env (t.uniques env)) docs).Pairwise
      fun a b => ¬Hits env t.tableMeta (t.uniques env) b a) :
    ∃ t', execInsert env heap t (replaceReq docs) = .ok t' := by
  have hok : False ∨ (Roomy env ∧ Obliging heap) ∧ (∀ d ∈ docs, Fit env t d) ∧
      (thin (Shadowed env (t.uniques env)) docs).Pairwise
        fun a b => ¬Hits env t.tableMeta (t.uniques env) b a :=
    .inr ⟨⟨hroomy, hobliging⟩, hfit, hapart⟩
  obtain ⟨_, w, hrun, -⟩ := (h.execReplace_ends haddr hok).succeeds id
  exact ⟨_, by rw [execInsert, Table.commit, hrun]⟩

/-! ## One row after the other -/

theorem uniques_congr (env : Env Doc) (hmeta : t'.tableMeta = t.tableMeta)
    (hkeys : t'.roots.map Prod.fst = t.roots.map Prod.fst) :
    t'.uniques env = t.uniques env ∧ t'.specs env = t.specs env := by
  have hspecs : t'.specs env = t.specs env := by rw [Table.specs, hmeta, hkeys, Table.specs]
  refine ⟨?_, hspecs⟩
  rw [Table.uniques, Table.uniques, hspecs, hmeta, hkeys]

open scoped Classical in
theorem Sound.replaceOne (h : Sound env heap True t) (haddr : Addressable env t.tableMeta)
    {doc : Doc} (hrun : execInsert env heap t (replaceReq [doc]) = .ok t') :
    (Sound env heap True t' ∧ t'.tableMeta = t.tableMeta ∧
      t'.roots.map Prod.fst = t.roots.map Prod.fst) ∧ Fit env t doc ∧
      (t'.docs heap).Perm
        (supersede (Hits env t.tableMeta (t.uniques env)) (t.docs heap) doc) := by
  have hthin : thin (Shadowed env (t.uniques env)) [doc] = [doc] :=
    thin_of_length_le not_shadowed_nil le_rfl
  obtain ⟨hsame, hfits, hperm⟩ := h.execReplace haddr hrun
  rw [hthin] at hfits hperm
  refine ⟨hsame, hfits doc List.mem_cons_self, hperm.trans (List.Perm.of_eq ?_)⟩
  rw [supersede, List.singleton_append]
  exact congrArg _ (List.filter_congr fun d _ => by simp)

open scoped Classical in
/-- The rows go through one by one if each is fit, and then the last ones stay. -/
theorem Sound.replaceEach (h : Sound env heap True t) (haddr : Addressable env t.tableMeta)
    (hrun : replaceEach env heap t docs = .ok t') :
    (∀ d ∈ docs, Fit env t d) ∧ (t'.docs heap).Perm
      (docs.foldl (supersede (Hits env t.tableMeta (t.uniques env))) (t.docs heap)) := by
  induction docs generalizing t with
  | nil =>
    obtain rfl := Except.ok.inj hrun
    exact ⟨by simp, List.Perm.refl _⟩
  | cons doc docs ih =>
    rw [Index.replaceEach, List.foldlM_cons] at hrun
    obtain ⟨t₁, hone, hrest⟩ := Except.bind_eq_ok_iff.mp hrun
    obtain ⟨⟨hsound, hmeta, hkeys⟩, hfit, hperm⟩ := h.replaceOne haddr hone
    obtain ⟨huniques, hspecs⟩ := uniques_congr env hmeta hkeys
    obtain ⟨hfits, hfold⟩ := ih hsound (hmeta ▸ haddr) hrest
    rw [hmeta, huniques] at hfold
    refine ⟨List.forall_mem_cons.mpr ⟨hfit, fun d hd => ?_⟩, hfold.trans ?_⟩
    · obtain ⟨hdecided, honce⟩ := hfits d hd
      exact ⟨hspecs ▸ hdecided, huniques ▸ honce⟩
    · exact Lib.Supersede.foldl_supersede_perm hperm docs

theorem Sound.replaceEach_runs (h : Sound env heap True t) (haddr : Addressable env t.tableMeta)
    (hroomy : Roomy env) (hobliging : Obliging heap) (hfit : ∀ d ∈ docs, Fit env t d) :
    ∃ t', Index.replaceEach env heap t docs = .ok t' := by
  classical
  induction docs generalizing t with
  | nil => exact ⟨t, rfl⟩
  | cons doc docs ih =>
    have hthin : thin (Shadowed env (t.uniques env)) [doc] = [doc] :=
      thin_of_length_le not_shadowed_nil le_rfl
    obtain ⟨hdoc, hdocs⟩ := List.forall_mem_cons.mp hfit
    have hfirst : ∀ d ∈ [doc], Fit env t d := by simpa using hdoc
    obtain ⟨t₁, hone⟩ := h.execReplace_runs haddr hroomy hobliging hfirst
      (by rw [hthin]; exact List.pairwise_singleton _ _)
    obtain ⟨⟨hsound, hmeta, hkeys⟩, -, -⟩ := h.replaceOne haddr hone
    obtain ⟨huniques, hspecs⟩ := uniques_congr env hmeta hkeys
    obtain ⟨t', hrest⟩ := ih hsound (hmeta ▸ haddr) fun d hd =>
      ⟨hspecs ▸ (hdocs d hd).decided, huniques ▸ (hdocs d hd).once⟩
    exact ⟨t', by rw [Index.replaceEach, List.foldlM_cons, Except.bind_of_ok hone]; exact hrest⟩

/-! ## Encodings and values -/

theorem wf_indexKeyOf (hwf : ∀ doc col v, env.get doc col = some v → v.WF) {doc : Doc}
    {cols : List String} {v : Value} (h : indexKeyOf env doc cols = some v) : v.WF := by
  have hone : ∀ col v, nonNull (env.get doc col) = some v → v.WF := by
    intro col v hv
    refine hwf doc col v ?_
    unfold nonNull at hv
    split at hv
    · cases hv
    · exact hv
  have hall : ∀ {cols : List String} {vs : List Value},
      cols.mapM (fun col => nonNull (env.get doc col)) = some vs → wfItems vs := by
    intro cols
    induction cols with
    | nil =>
      intro vs hvs
      obtain rfl := Option.some.inj hvs
      trivial
    | cons col cols ih =>
      intro vs hvs
      rw [List.mapM_cons] at hvs
      obtain ⟨v, hv, hvs⟩ := Option.bind_eq_some_iff.mp hvs
      obtain ⟨rest, hrest, hvs⟩ := Option.bind_eq_some_iff.mp hvs
      obtain rfl := Option.some.inj hvs
      exact ⟨hone col v hv, ih hrest⟩
  match cols, h with
  | [col], h => exact hone col v h
  | _ :: _ :: _, h =>
    obtain ⟨vs, hvs, rfl⟩ := Option.map_eq_some_iff.mp h
    exact hall hvs

theorem Sound.path_eq_none (h : Sound env heap True t) (haddr : Addressable env t.tableMeta)
    {spec : IdxSpec Doc} (hspec : spec ∈ t.specs env) (hu : spec.unique = true) :
    spec.path = none := by
  obtain ⟨k, hk, rfl⟩ := h.mem_specs.mp hspec
  rcases h.settled.filed k hk with hcol | ⟨d, hd, rfl, -⟩
  · rw [h.settled.specOf_column hcol]
  · rw [h.settled.specOf_name hd] at hu ⊢
    exact haddr.plain d hd hu

theorem Sound.wf_of_mem (h : Sound env heap True t) (haddr : Addressable env t.tableMeta)
    (hwf : ∀ doc col v, env.get doc col = some v → v.WF) {doc : Doc} {k : String} {v : Value}
    {ks : List (String × Value)} (hks : uniqueKeys env (t.uniques env) doc = .ok ks)
    (hmem : (k, v) ∈ ks) : v.WF := by
  have hspec : ∀ spec ∈ t.specs env, spec.unique = true →
      indexKeyOfSpec env doc spec = some v → v.WF := by
    intro spec hspec hu hkey
    rw [indexKeyOfSpec, h.path_eq_none haddr hspec hu] at hkey
    exact wf_indexKeyOf hwf hkey
  rcases (mem_uniqueKeys hks).mp hmem with ⟨-, hv⟩ | ⟨spec, hin, -, hv⟩ | ⟨spec, hin, -, hv⟩
  · exact wf_indexKeyOf hwf (show indexKeyOf env doc [k] = some v from hv)
  · obtain ⟨hin, hboth⟩ := List.mem_filter.mp hin
    exact hspec spec hin (by simp_all) hv
  · obtain ⟨hin, hboth⟩ := List.mem_filter.mp hin
    exact hspec spec hin (by simp_all) (keyIn_le hv)

theorem mem_batchKeys {u : Uniques Doc} {doc : Doc} {bs : List (String × List UInt8)}
    (h : batchKeys env u doc = .ok bs) {k : String} {bytes : List UInt8} (hmem : (k, bytes) ∈ bs) :
    ∃ ks v, uniqueKeys env u doc = .ok ks ∧ (k, v) ∈ ks ∧ encode env.codec v = .ok bytes := by
  obtain ⟨ks, hks⟩ := uniqueKeys_of_batchKeys h
  obtain rfl := Except.ok.inj (h.symm.trans (batchKeys_eq hks))
  obtain ⟨⟨k', v⟩, he, hmap⟩ := List.mem_filterMap.mp hmem
  obtain ⟨bytes', hbytes, heq⟩ := Option.map_eq_some_iff.mp hmap
  obtain ⟨rfl, rfl⟩ := Prod.mk.inj heq
  refine ⟨ks, v, hks, he, ?_⟩
  cases henc : encode env.codec v with
  | error e =>
    rw [henc] at hbytes
    cases hbytes
  | ok out =>
    rw [henc] at hbytes
    exact congrArg _ (Option.some.inj hbytes)

/-- A row that is shadowed is hit, if it stands in every tree it has a key for. -/
theorem Sound.drivenOut_of_shadowed (h : Sound env heap True t)
    (haddr : Addressable env t.tableMeta)
    (hwf : ∀ doc col v, env.get doc col = some v → v.WF) {doc : Doc} {back : List Doc}
    (hgated : ∀ ks, uniqueKeys env (t.uniques env) doc = .ok ks → ∀ e ∈ ks,
      keyIn env (specOf env t.tableMeta e.1) doc = some e.2)
    (hshadow : Shadowed env (t.uniques env) doc back) :
    DrivenOut (Hits env t.tableMeta (t.uniques env)) doc back := by
  obtain ⟨bs, hbs, ⟨k, bytes⟩, hmem, d, hd, bs', hbs', hmem'⟩ := hshadow
  obtain ⟨ks, v, hks, hv, henc⟩ := mem_batchKeys hbs hmem
  obtain ⟨ks', v', hks', hv', henc'⟩ := mem_batchKeys hbs' hmem'
  have hdecode := decode_of_encode (h.wf_of_mem haddr hwf hks hv) henc
  rw [decode_of_encode (h.wf_of_mem haddr hwf hks' hv') henc'] at hdecode
  obtain rfl := Except.ok.inj hdecode
  exact ⟨d, hd, ks', hks', (k, v'), hv', v', hgated ks hks (k, v') hv, cmpValues_self v'⟩

/-! ## A table with a key and a unique column -/

/-- Rows of whole numbers. -/
abbrev NumberRow := List (String × Int64)

def numberEnv : Env NumberRow where
  codec := rustDecimal
  get row col := (row.lookup col).map Value.int
  insert row _ _ := row
  remove row col := row.filter fun e => e.1 ≠ col
  objectKey _ := []
  jsonPathKey _ _ _ := none
  parsePred _ := none
  renameIdent text _ _ := text
  refuses _ _ := none

def member (id email : Int64) : NumberRow := [("id", id), ("email", email)]

/-- `CREATE TABLE members (id INT PRIMARY KEY, email INT UNIQUE)` with one row. -/
def membersTable : Table (ListHeap NumberRow) where
  tableMeta := ⟨"members", ["id", "email"], some "id", ["email"], ["email"], []⟩
  heap := ⟨[(1, member 1 100)], by simp⟩
  roots := [("id", [(.int 1, 1)]), ("email", [(.int 100, 1)])]

theorem membersTable_settled :
    Settled membersTable.tableMeta (membersTable.roots.map Prod.fst) where
  distinct := by decide
  names := by decide
  apart := by simp [membersTable]
  nonempty := by simp [membersTable]
  within := by simp [membersTable]
  constraints := by decide
  treed := by simp [membersTable]
  filed := by decide
  enforced := by simp [membersTable]

theorem membersTable_sound : Sound numberEnv (listHeap NumberRow) True membersTable := by
  refine ⟨membersTable_settled, fun spec hspec => ?_⟩
  have hcases : spec = ⟨"id", ["id"], true, none, none⟩ ∨
      spec = ⟨"email", ["email"], true, none, none⟩ := by
    simpa [membersTable, specOf, TableMeta.indexColumnsOf, TableMeta.rootKeyUnique,
      TableMeta.defNamed] using hspec
  rcases hcases with rfl | rfl
  · exact ⟨_, rfl, List.Perm.refl _, fun _ _ => List.pairwise_singleton _ _⟩
  · exact ⟨_, rfl, List.Perm.refl _, fun _ _ => List.pairwise_singleton _ _⟩

theorem membersTable_addressable : Addressable numberEnv membersTable.tableMeta :=
  ⟨by simp [membersTable], by simp [membersTable]⟩

theorem numberEnv_wf : ∀ row col v, numberEnv.get row col = some v → v.WF := by
  intro row col v h
  obtain ⟨i, -, rfl⟩ := Option.map_eq_some_iff.mp h
  trivial

theorem numberEnv_roomy : Roomy numberEnv := fun _ _ => rfl

theorem listHeap_obliging (Doc : Type) : Obliging (listHeap Doc) where
  inserts _ _ := ⟨_, rfl⟩
  removes _ _ _ := ⟨_, rfl⟩
  nearby := by
    intro locs h moves h' hrun m hm
    obtain ⟨rfl, -⟩ := Prod.mk.inj (Except.ok.inj hrun)
    cases hm

theorem uniqueKeys_member (id email : Int64) :
    uniqueKeys numberEnv (membersTable.uniques numberEnv) (member id email) =
      .ok [("id", .int id), ("email", .int email)] := by
  rfl

theorem hits_member (id email id' email' : Int64) :
    Hits numberEnv membersTable.tableMeta (membersTable.uniques numberEnv) (member id email)
      (member id' email') ↔ id' = id ∨ email' = email := by
  have hcmp : ∀ i j : Int64, cmpValues (.int i) (.int j) = .eq ↔ i = j := fun i j => by
    rw [cmpValues, compare_eq_iff_eq, Int64.toInt_inj]
  constructor
  · rintro ⟨ks, hks, e, he, k, hin, heq⟩
    rw [uniqueKeys_member] at hks
    obtain rfl := Except.ok.inj hks
    rcases List.mem_pair.mp he with rfl | rfl
    · obtain rfl := Option.some.inj (show some (Value.int id') = some k from hin)
      exact .inl ((hcmp _ _).mp heq)
    · obtain rfl := Option.some.inj (show some (Value.int email') = some k from hin)
      exact .inr ((hcmp _ _).mp heq)
  · rintro (rfl | rfl)
    · exact ⟨_, uniqueKeys_member _ _, _, List.mem_cons_self, _, rfl, cmpValues_self _⟩
    · exact ⟨_, uniqueKeys_member _ _, _, List.mem_cons_of_mem _ List.mem_cons_self, _, rfl,
        cmpValues_self _⟩

theorem fit_member (id email : Int64) : Fit numberEnv membersTable (member id email) := by
  refine ⟨fun spec hspec => ?_, ?_⟩
  · obtain ⟨k, -, rfl⟩ := membersTable_sound.mem_specs.mp hspec
    exact ⟨true, rfl⟩
  · change ["id", "email"].Nodup
    decide

/-! ## The batch and its rows -/

end Docsql.Index
