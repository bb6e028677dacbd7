import Docsql.Index.Content

/-!
# The trees after a statement

INSERT, UPDATE, DELETE and MERGE work on the heap and the trees in turns.  What
holds between two calls: the stored rows are the indexed rows and some rows
whose entries are out of the trees for the time being.
-/

namespace Docsql.Index

open StateExcept (Ends forEach)
open Heap (applyMoves unpackLoc)

variable {Doc H : Type} {env : Env Doc} {heap : DocHeap Doc H} {strict fail : Prop}
variable {specs : List (IdxSpec Doc)} {rows rest pend : List (ℕ × Doc)} {w : Work H} {loc : ℕ}
variable {doc : Doc}

/-- The stored rows are the pending and the indexed ones. -/
structure Between (env : Env Doc) (heap : DocHeap Doc H) (strict : Prop)
    (specs : List (IdxSpec Doc)) (keys : List String) (pend rows : List (ℕ × Doc)) (w : Work H) :
    Prop where
  stored : (heap.live w.heap).Perm (pend ++ rows)
  keeps : Keeps env strict specs rows w
  keys : w.roots.map Prod.fst = keys

variable {keys : List String}

theorem Between.nodup (h : Between env heap strict specs keys pend rows w) :
    ((pend ++ rows).map Prod.fst).Nodup :=
  (h.stored.map Prod.fst).nodup_iff.mp (heap.distinct w.heap)

theorem Between.touched {rows' : List (ℕ × Doc)} {ks : List String} {w' : Work H}
    (h : Between env heap strict specs keys pend rows w) (hw : Touched ks w w')
    (hpend : (pend ++ rows).Perm (rest ++ rows')) (hkeeps : Keeps env strict specs rows' w') :
    Between env heap strict specs keys rest rows' w' :=
  ⟨by rw [hw.heap]; exact h.stored.trans hpend, hkeeps, hw.keys.trans h.keys⟩

/-! ## Heap calls -/

/-- A heap that takes every document, gives up every row it has, and moves only
rows that shared a page with one it gave up. -/
structure Obliging (heap : DocHeap Doc H) : Prop where
  inserts : ∀ doc h, ∃ r, heap.insert doc h = .ok r
  removes : ∀ locs h, (∀ loc ∈ locs, loc ∈ (heap.live h).map Prod.fst) →
    ∃ r, heap.removeMany locs h = .ok r
  nearby : ∀ {locs h moves h'}, heap.removeMany locs h = .ok (moves, h') → ∀ m ∈ moves,
    m.1 ∈ (heap.live h).map Prod.fst ∧ (unpackLoc m.1).1 ∈ locs.map fun loc => (unpackLoc loc).1

theorem liftHeap_ends {α : Type} (call : H → Except String (α × H))
    (hfail : fail ∨ ∃ r, call w.heap = .ok r) :
    Ends (liftHeap call) w fail fun a w' =>
      ∃ h, call w.heap = .ok (a, h) ∧ w' = { w with heap := h } := by
  cases hcall : call w.heap with
  | error e =>
    refine .of_error (by rw [liftHeap, hcall]) (hfail.resolve_right ?_)
    rw [hcall]
    rintro ⟨r, hr⟩
    cases hr
  | ok r => exact .of_ok (by rw [liftHeap, hcall]) ⟨r.2, rfl, rfl⟩

theorem Keeps.heap_update (h : Keeps env strict specs rows w) (h' : H) :
    Keeps env strict specs rows { w with heap := h' } := h

theorem insertRow_ends (h : Between env heap strict specs keys pend rows w) (doc : Doc)
    (hfail : fail ∨ Obliging heap) :
    Ends (liftHeap (heap.insert doc)) w fail fun loc w' =>
      Between env heap strict specs keys ((loc, doc) :: pend) rows w' := by
  refine (liftHeap_ends (w := w) (heap.insert doc)
    (hfail.imp_right fun hobliging => hobliging.inserts doc w.heap)).mono id ?_
  rintro loc w' ⟨h', hcall, rfl⟩
  exact ⟨(heap.insert_live hcall).trans (h.stored.cons _), h.keeps, h.keys⟩

/-! ## Removing rows -/

/-- The entries of some rows are taken out. -/
theorem unindex_ends (hnodup : (specs.map IdxSpec.rootKey).Nodup) {gone : List (ℕ × Doc)}
    (hdistinct : ((gone ++ rows).map Prod.fst).Nodup)
    (h : Keeps env strict specs (gone ++ rows) w) :
    Ends (forEach (fun e => reindexRemove env specs e.2 e.1) gone) w fail fun _ w' =>
      Keeps env strict specs rows w' ∧ Touched (specs.map IdxSpec.rootKey) w w' := by
  induction gone generalizing w with
  | nil => exact .of_ok rfl ⟨h, .refl⟩
  | cons e gone ih =>
    obtain ⟨hloc, hdistinct⟩ := List.nodup_cons.mp hdistinct
    refine (reindexRemove_ends hnodup h hloc).bind ?_
    rintro _ w₁ ⟨h₁, htouched₁⟩
    refine (ih hdistinct h₁).mono id ?_
    rintro _ w₂ ⟨h₂, htouched₂⟩
    exact ⟨h₂, htouched₁.trans htouched₂⟩

theorem carry_append (gone : List ℕ) (moves : List (ℕ × ℕ)) (xs ys : List (ℕ × Doc)) :
    carry gone moves (xs ++ ys) = carry gone moves xs ++ carry gone moves ys := by
  simp [carry]

theorem carry_eq_nil {gone : List ℕ} {moves : List (ℕ × ℕ)}
    (h : ∀ e ∈ rows, e.1 ∈ gone) : carry gone moves rows = [] := by
  rw [carry, List.filter_eq_nil_iff.mpr fun e he => by simpa using h e he, List.map_nil]

theorem carry_eq_shift {gone : List ℕ} {moves : List (ℕ × ℕ)}
    (h : ∀ e ∈ rows, e.1 ∉ gone) : carry gone moves rows = shift moves rows := by
  rw [carry, List.filter_eq_self.mpr fun e he => by simpa using h e he, shift]

theorem shift_map_snd (moves : List (ℕ × ℕ)) (rows : List (ℕ × Doc)) :
    (shift moves rows).map Prod.snd = rows.map Prod.snd := by
  simp [shift]

theorem mem_of_lookup {before : List (ℕ × Doc)} (h : before.lookup loc = some doc) :
    (loc, doc) ∈ before := by
  induction before with
  | nil => cases h
  | cons e before ih =>
    rw [List.lookup_cons] at h
    split at h
    · rename_i hbeq
      rw [Option.some.injEq] at h
      rw [← h, beq_iff_eq.mp hbeq]
      exact List.mem_cons_self
    · exact List.mem_cons_of_mem _ (ih h)

/-- Rows are removed from the heap and the trees. -/
theorem removeDocs_ends (hnodup : (specs.map IdxSpec.rootKey).Nodup)
    {targets before : List (ℕ × Doc)}
    (h : Between env heap strict specs keys [] (targets ++ rows) w)
    (hbefore : ∀ e ∈ before, e ∈ heap.live w.heap)
    (hfail : fail ∨ (strict ∧ Roomy env) ∧ Obliging heap ∧ ∀ e ∈ heap.live w.heap,
      (unpackLoc e.1).1 ∈ (targets.map Prod.fst).map (fun loc => (unpackLoc loc).1) →
        (before.lookup e.1).isSome = true) :
    Ends (removeDocs env heap specs targets before (targets.map Prod.fst)) w fail fun _ w' =>
      ∃ rows', rows'.map Prod.snd = rows.map Prod.snd ∧
        Between env heap strict specs keys [] rows' w' := by
  have hdistinct := h.nodup
  rw [List.nil_append, List.map_append] at hdistinct
  have hapart := (List.nodup_append.mp hdistinct).2.2
  have hkept : ∀ e ∈ rows, e.1 ∉ targets.map Prod.fst := fun e he hgone =>
    hapart _ hgone _ (List.mem_map_of_mem he) rfl
  have hlocs : ∀ loc ∈ targets.map Prod.fst, loc ∈ (heap.live w.heap).map Prod.fst := by
    intro loc hloc
    rw [(h.stored.map Prod.fst).mem_iff]
    simp [hloc]
  refine (liftHeap_ends _ (hfail.imp_right fun hok => hok.2.1.removes _ _ hlocs)).bind ?_
  rintro moves w₁ ⟨h', hcall, rfl⟩
  obtain ⟨hlive, horder⟩ := heap.removeMany_live hlocs hcall
  have hstored : (heap.live h').Perm (shift moves rows) := by
    refine hlive.trans ((h.stored.filter _).map _ |>.trans ?_)
    change (carry (targets.map Prod.fst) moves (targets ++ rows)).Perm _
    rw [carry_append, carry_eq_nil fun e he => List.mem_map_of_mem he, carry_eq_shift hkept]
    exact List.Perm.refl _
  -- the trees first lose the entries of the targets, then follow the moves
  refine (unindex_ends hnodup (List.map_append ▸ hdistinct)
    (h.keeps.heap_update h')).bind ?_
  rintro _ w₂ ⟨hkeeps₂, htouched₂⟩
  have hbefore₂ : ∀ m ∈ moves, ∀ d, before.lookup m.1 = some d → (m.1, d) ∈ rows := by
    intro m hm d hd
    have hmem := h.stored.mem_iff.mp (hbefore _ (mem_of_lookup hd))
    rcases List.mem_append.mp (List.nil_append _ ▸ hmem) with hgone | hmem
    · exact absurd (List.mem_map.mpr ⟨_, hgone, rfl⟩) (horder.kept m hm)
    · exact hmem
  have hend : ((shift moves rows).map Prod.fst).Nodup :=
    (hstored.map Prod.fst).nodup_iff.mp (heap.distinct h')
  have hrows : (rows.map Prod.fst).Nodup := (List.nodup_append.mp hdistinct).2.1
  have hmoves : fail ∨ (strict ∧ Roomy env) ∧ ∀ m ∈ moves, (before.lookup m.1).isSome = true := by
    refine hfail.imp_right fun ⟨hok, hobliging, hall⟩ => ⟨hok, fun m hm => ?_⟩
    obtain ⟨hmem, hpage⟩ := hobliging.nearby hcall m hm
    obtain ⟨e, he, heq⟩ := List.mem_map.mp hmem
    exact heq ▸ hall e he (heq ▸ hpage)
  refine (repoints_ends hnodup horder hrows hend hbefore₂ hkeeps₂ hmoves).mono id ?_
  rintro _ w₃ ⟨hkeeps₃, htouched₃⟩
  refine ⟨shift moves rows, shift_map_snd moves rows, ?_, hkeeps₃, ?_⟩
  · rw [htouched₃.heap, htouched₂.heap]
    exact hstored
  · rw [htouched₃.keys, htouched₂.keys]
    exact h.keys

/-! ## Replacing rows -/

theorem applyMoves_filter {moves : List (ℕ × ℕ)} {p : ℕ → Bool} (h : p loc = true) :
    applyMoves (moves.filter fun m => p m.1) loc = applyMoves moves loc := by
  induction moves with
  | nil => rfl
  | cons m moves ih =>
    obtain ⟨o, n⟩ := m
    rw [List.filter_cons]
    by_cases hloc : loc = o
    · subst hloc
      rw [if_pos h, applyMoves_cons, applyMoves_cons, if_pos rfl, if_pos rfl]
    · split
      · rw [applyMoves_cons, applyMoves_cons, if_neg hloc, if_neg hloc, ih]
      · rw [applyMoves_cons, if_neg hloc, ih]

theorem Orderly.filter {gone : List ℕ} {moves : List (ℕ × ℕ)} (h : Orderly gone moves)
    (p : ℕ × ℕ → Bool) : Orderly gone (moves.filter p) :=
  ⟨h.starts.sublist (List.filter_sublist.map _), h.apart.sublist List.filter_sublist,
    fun m hm => h.kept m (List.mem_of_mem_filter hm)⟩

/-- One row is replaced while others are pending. -/
theorem replaceRow_ends (hnodup : (specs.map IdxSpec.rootKey).Nodup) {old : Doc}
    (h : Between env heap strict specs keys ((loc, old) :: pend) rows w) (new : Doc) :
    Ends (replaceRow env heap specs loc new (pend.map Prod.fst)) w True fun moves w' =>
      ∃ placed, Between env heap strict specs keys (shift moves pend)
        ((placed, new) :: shift moves rows) w' := by
  have hdistinct := h.nodup
  rw [List.cons_append, List.map_cons, List.map_append, List.nodup_cons] at hdistinct
  obtain ⟨hloc, hrest⟩ := hdistinct
  have hapart := (List.nodup_append.mp hrest).2.2
  refine .after_read ?_
  refine (liftHeap_ends _ (.inl trivial)).bind ?_
  rintro out w₁ ⟨h', hcall, rfl⟩
  have hmem : loc ∈ (heap.live w.heap).map Prod.fst := by
    rw [(h.stored.map Prod.fst).mem_iff]
    exact List.mem_cons_self
  obtain ⟨hlive, horder⟩ := heap.replace_live hmem hcall
  have hstored : (heap.live h').Perm
      ((out.placed, new) :: (shift out.moved pend ++ shift out.moved rows)) := by
    refine hlive.trans (List.Perm.cons _ ((h.stored.filter _).map _ |>.trans ?_))
    change (carry [loc] out.moved ([(loc, old)] ++ (pend ++ rows))).Perm _
    have hself : carry [loc] out.moved [(loc, old)] = [] := carry_eq_nil (by simp)
    rw [carry_append, hself, carry_eq_shift, shift, shift, shift, List.map_append]
    · exact List.Perm.refl _
    · intro e he hin
      rw [← List.map_append] at hloc
      exact hloc (List.mem_map.mpr ⟨e, he, List.mem_singleton.mp hin⟩)
  have hpass : ∀ e ∈ rows, decide (e.1 ≠ loc ∧ e.1 ∉ pend.map Prod.fst) = true := by
    intro e he
    refine decide_eq_true ⟨fun heq => ?_, fun hin => ?_⟩
    · exact hloc (List.mem_append_right _ (List.mem_map.mpr ⟨e, he, heq⟩))
    · exact hapart _ hin _ (List.mem_map_of_mem he) rfl
  have hshift : shift (out.moved.filter fun m => m.1 ≠ loc ∧ m.1 ∉ pend.map Prod.fst) rows =
      shift out.moved rows := by
    refine List.map_congr_left fun e he => ?_
    rw [applyMoves_filter (p := fun l => decide (l ≠ loc ∧ l ∉ pend.map Prod.fst)) (hpass e he)]
  have hbefore : ∀ m ∈ out.moved.filter fun m => m.1 ≠ loc ∧ m.1 ∉ pend.map Prod.fst, ∀ d,
      ((heap.live w.heap).filter fun e => (unpackLoc e.1).1 = (unpackLoc loc).1).lookup m.1 =
        some d → (m.1, d) ∈ rows := by
    intro m hm d hd
    obtain ⟨hne, hpend⟩ := of_decide_eq_true (List.mem_filter.mp hm).2
    have hin := h.stored.mem_iff.mp (List.mem_of_mem_filter (mem_of_lookup hd))
    rcases List.mem_append.mp hin with hin | hin
    · rcases List.mem_cons.mp hin with heq | hin
      · exact absurd (congrArg Prod.fst heq) hne
      · exact absurd (List.mem_map.mpr ⟨_, hin, rfl⟩) hpend
    · exact hin
  have hends := (hstored.map Prod.fst).nodup_iff.mp (heap.distinct h')
  rw [List.map_cons, List.map_append] at hends
  have hend : ((shift out.moved rows).map Prod.fst).Nodup :=
    (List.nodup_append.mp (List.nodup_cons.mp hends).2).2.1
  refine (repoints_ends hnodup (horder.filter _) (List.nodup_append.mp hrest).2.1
    (hshift ▸ hend) hbefore (h.keeps.heap_update h') (.inl trivial)).bind ?_
  rintro _ w₂ ⟨hkeeps₂, htouched₂⟩
  rw [hshift] at hkeeps₂
  refine (reindexInsert_ends hnodup hkeeps₂ (.inl trivial)).bind ?_
  rintro _ w₃ ⟨hkeeps₃, htouched₃⟩
  refine .of_ok rfl ⟨out.placed, ?_, hkeeps₃, ?_⟩
  · rw [htouched₃.heap, htouched₂.heap]
    exact hstored.trans List.perm_middle.symm
  · rw [htouched₃.keys, htouched₂.keys]
    exact h.keys

/-- The new images land one after the other. -/
theorem applyImages_ends (hnodup : (specs.map IdxSpec.rootKey).Nodup)
    {images : List (ℕ × Doc)} (hlocs : images.map Prod.fst = pend.map Prod.fst)
    (h : Between env heap strict specs keys pend rows w) :
    Ends (applyImages env heap specs images) w True fun _ w' =>
      ∃ rows', (rows'.map Prod.snd).Perm (images.map Prod.snd ++ rows.map Prod.snd) ∧
        Between env heap strict specs keys [] rows' w' := by
  induction hlen : images.length generalizing images pend rows w with
  | zero =>
    obtain rfl := List.eq_nil_of_length_eq_zero hlen
    obtain rfl : pend = [] := List.map_eq_nil_iff.mp hlocs.symm
    rw [applyImages]
    exact .of_ok rfl ⟨rows, List.Perm.refl _, h⟩
  | succ n ih =>
    obtain ⟨⟨loc, new⟩, images, rfl⟩ := List.exists_cons_of_length_eq_add_one hlen
    obtain _ | ⟨⟨loc', old⟩, pend⟩ := pend
    · cases hlocs
    obtain ⟨hloc, hrest⟩ := List.cons_eq_cons.mp hlocs
    obtain rfl : loc = loc' := hloc
    rw [applyImages, hrest]
    refine (replaceRow_ends hnodup h new).bind ?_
    rintro moves w₁ ⟨placed, h₁⟩
    have hlocs₁ : (shift moves images).map Prod.fst = (shift moves pend).map Prod.fst := by
      have hmap : ∀ rows : List (ℕ × Doc),
          (shift moves rows).map Prod.fst = (rows.map Prod.fst).map (applyMoves moves) := by
        intro rows
        simp [shift]
      rw [hmap, hmap, hrest]
    have hlen₁ : (shift moves images).length = n := by simpa [shift] using hlen
    refine (ih hlocs₁ h₁ hlen₁).mono id ?_
    rintro _ w₂ ⟨rows', hdocs, h₂⟩
    refine ⟨rows', hdocs.trans ?_, h₂⟩
    rw [shift_map_snd, List.map_cons, List.map_cons, shift_map_snd]
    exact List.perm_middle

theorem forEach_map {α β : Type} (f : β → WorkM H Unit) (g : α → β) (xs : List α) :
    forEach f (xs.map g) = forEach (fun x => f (g x)) xs := by
  induction xs with
  | nil => rfl
  | cons x xs ih =>
    rw [List.map_cons, forEach, forEach, ih]

/-- An update: the old images of the rows it changes are among those indexed. -/
theorem applyUpdates_ends (hnodup : (specs.map IdxSpec.rootKey).Nodup)
    {updates : List (ℕ × Doc × Doc)}
    (h : Between env heap strict specs keys []
      ((updates.map fun u => (u.1, u.2.1)) ++ rows) w) :
    Ends (applyUpdates env heap specs updates) w True fun _ w' =>
      ∃ rows', (rows'.map Prod.snd).Perm
          ((updates.map fun u => u.2.2) ++ rows.map Prod.snd) ∧
        Between env heap strict specs keys [] rows' w' := by
  have hloop := forEach_map (H := H) (fun e : ℕ × Doc => reindexRemove env specs e.2 e.1)
    (fun u : ℕ × Doc × Doc => (u.1, u.2.1)) updates
  unfold applyUpdates
  rw [← hloop]
  refine (unindex_ends hnodup (List.nil_append _ ▸ h.nodup) h.keeps).bind ?_
  rintro _ w₁ ⟨hkeeps, htouched⟩
  have h₁ : Between env heap strict specs keys (updates.map fun u => (u.1, u.2.1)) rows w₁ :=
    h.touched htouched (List.Perm.refl _) hkeeps
  have hlocs : (updates.map fun u => (u.1, u.2.2)).map Prod.fst =
      (updates.map fun u => (u.1, u.2.1)).map Prod.fst := by
    simp
  refine (applyImages_ends hnodup hlocs h₁).mono id ?_
  rintro _ w₂ ⟨rows', hdocs, h₂⟩
  rw [List.map_map] at hdocs
  exact ⟨rows', hdocs, h₂⟩

end Docsql.Index

/-!
# Tables whose trees are what their names say

The tree under a key is found by the key alone.  What follows is said for tables
where no index has the name of a column, so that a key is either a column or the
name of one index.
-/

namespace Docsql.Index

variable {Doc H : Type} {env : Env Doc} {heap : DocHeap Doc H} {strict : Prop}
variable {m : TableMeta} {keys : List String} {k : String} {d : IndexDef}

/-- The trees a table has are those of its columns and its definitions. -/
structure Settled (m : TableMeta) (keys : List String) : Prop where
  distinct : keys.Nodup
  names : (m.indexDefs.map IndexDef.name).Nodup
  apart : ∀ d ∈ m.indexDefs, d.name ∉ m.columns
  nonempty : ∀ d ∈ m.indexDefs, d.columns ≠ []
  within : ∀ d ∈ m.indexDefs, ∀ c ∈ d.columns, c ∈ m.columns
  constraints : ∀ c ∈ m.constraintCols, c ∈ m.columns ∧ c ∈ keys
  treed : ∀ d ∈ m.indexDefs, d.rootKey ∈ keys
  filed : ∀ k ∈ keys, k ∈ m.columns ∨ ∃ d ∈ m.indexDefs, d.name = k ∧ d.rootKey = k
  enforced : ∀ d ∈ m.indexDefs, d.unique = true → d.rootKey ∈ m.columns → d.rootKey ∈ m.unique

theorem defNamed_mem (h : m.defNamed k = some d) : d ∈ m.indexDefs ∧ d.name = k :=
  ⟨List.mem_of_find?_eq_some h, by simpa using List.find?_some h⟩

namespace Settled

variable (h : Settled m keys)

include h

theorem defNamed_column (hk : k ∈ m.columns) : m.defNamed k = none := by
  refine List.find?_eq_none.mpr fun d hd => ?_
  simpa using fun heq : d.name = k => h.apart d hd (heq ▸ hk)

theorem defNamed_name (hd : d ∈ m.indexDefs) : m.defNamed d.name = some d := by
  cases hfound : m.defNamed d.name with
  | none => simpa using List.find?_eq_none.mp hfound d hd
  | some d' =>
    obtain ⟨hmem, hname⟩ := defNamed_mem hfound
    rw [List.inj_on_of_nodup_map h.names hmem hd hname]

theorem indexColumnsOf_column (hk : k ∈ m.columns) : m.indexColumnsOf k = [k] := by
  rw [TableMeta.indexColumnsOf, h.defNamed_column hk]
  exact if_pos (.inl hk)

theorem indexColumnsOf_name (hd : d ∈ m.indexDefs) : m.indexColumnsOf d.name = d.columns := by
  rw [TableMeta.indexColumnsOf, h.defNamed_name hd]

/-- The names tell the columns of every tree. -/
theorem indexColumnsOf_ne_nil (hk : k ∈ keys) : m.indexColumnsOf k ≠ [] := by
  rcases h.filed k hk with hcol | ⟨d, hd, rfl, -⟩
  · rw [h.indexColumnsOf_column hcol]
    exact List.cons_ne_nil _ _
  · rw [h.indexColumnsOf_name hd]
    exact h.nonempty d hd

theorem idxSpecs_eq : idxSpecs env m keys = keys.map (specOf env m) := by
  rw [idxSpecs, List.filter_eq_self.mpr fun k hk => by simpa using h.indexColumnsOf_ne_nil hk]

/-- The tree of a column. -/
theorem specOf_column (hk : k ∈ m.columns) :
    specOf env m k = ⟨k, [k], decide (k ∈ m.constraintCols), none, none⟩ := by
  have hunique : m.rootKeyUnique k = decide (k ∈ m.constraintCols) := by
    unfold TableMeta.rootKeyUnique TableMeta.constraintCols
    by_cases hc : m.primaryKey = some k ∨ k ∈ m.unique
    · rw [if_pos hc]
      rcases hc with hc | hc
      · simp [hc]
      · simp [hc]
    · rw [if_neg hc]
      have hnone : m.indexDefs.any (fun d => d.name = k ∧ d.unique) = false := by
        refine List.any_eq_false.mpr fun d hd => ?_
        simpa using fun heq : d.name = k => (h.apart d hd (heq ▸ hk)).elim
      have hpk : k ∉ m.primaryKey.toList := fun hmem => hc (.inl (by simpa using hmem))
      rw [hnone, eq_comm, decide_eq_false_iff_not, List.mem_append]
      exact fun hin => hin.elim hpk fun hin => hc (.inr hin)
  rw [specOf, h.indexColumnsOf_column hk, h.defNamed_column hk, hunique]
  rfl

/-- The tree of a definition that is filed under its name. -/
theorem specOf_name (hd : d ∈ m.indexDefs) :
    specOf env m d.name =
      ⟨d.name, d.columns, d.unique, d.path, d.pred.bind env.parsePred⟩ := by
  have hunique : m.rootKeyUnique d.name = d.unique := by
    unfold TableMeta.rootKeyUnique
    rw [if_neg]
    · have hany : m.indexDefs.any (fun d' => d'.name = d.name ∧ d'.unique) = true ↔
          d.unique = true := by
        rw [List.any_eq_true]
        refine ⟨?_, fun hu => ⟨d, hd, by simp [hu]⟩⟩
        rintro ⟨d', hd', hboth⟩
        obtain ⟨hname, hu⟩ := of_decide_eq_true hboth
        rwa [List.inj_on_of_nodup_map h.names hd' hd hname] at hu
      exact Bool.eq_iff_iff.mpr hany
    · intro hc
      have hmem : d.name ∈ m.constraintCols := by
        rcases hc with hc | hc
        · simp [TableMeta.constraintCols, hc]
        · simp [TableMeta.constraintCols, hc]
      exact h.apart d hd (h.constraints _ hmem).1
  rw [specOf, h.indexColumnsOf_name hd, h.defNamed_name hd, hunique]
  rfl

end Settled

/-- A table that is settled and whose trees hold the entries of its documents. -/
structure Sound (env : Env Doc) (heap : DocHeap Doc H) (strict : Prop) (t : Table H) : Prop where
  settled : Settled t.tableMeta (t.roots.map Prod.fst)
  keeps : Keeps env strict ((t.roots.map Prod.fst).map (specOf env t.tableMeta)) (t.rows heap)
    ⟨t.heap, t.roots⟩

variable {t : Table H}

theorem Sound.specs_eq (h : Sound env heap strict t) :
    t.specs env = (t.roots.map Prod.fst).map (specOf env t.tableMeta) :=
  h.settled.idxSpecs_eq

theorem map_rootKey_specOf (keys : List String) :
    (keys.map (specOf env m)).map IdxSpec.rootKey = keys := by
  rw [List.map_map]
  exact List.map_id keys

theorem Sound.rootKeys_nodup (h : Sound env heap strict t) :
    ((t.specs env).map IdxSpec.rootKey).Nodup := by
  rw [h.specs_eq, map_rootKey_specOf]
  exact h.settled.distinct

/-- A statement starts with every stored row indexed. -/
theorem Sound.start (h : Sound env heap strict t) :
    Between env heap strict (t.specs env) (t.roots.map Prod.fst) [] (t.rows heap)
      ⟨t.heap, t.roots⟩ :=
  ⟨List.Perm.refl _, h.specs_eq ▸ h.keeps, rfl⟩

/-- A statement that ends so leaves a table as sound as it was. -/
theorem Sound.commit {α : Type} {run : WorkM H α} {t' : Table H}
    (h : Sound env heap strict t) (docs : List Doc → Prop)
    (hrun : StateExcept.Ends run ⟨t.heap, t.roots⟩ True fun _ w => ∃ rows,
      docs (rows.map Prod.snd) ∧
        Between env heap strict (t.specs env) (t.roots.map Prod.fst) [] rows w)
    (hcommit : t.commit run = .ok t') :
    (Sound env heap strict t' ∧ t'.tableMeta = t.tableMeta ∧
      t'.roots.map Prod.fst = t.roots.map Prod.fst) ∧
        ∃ rows, docs rows ∧ (t'.docs heap).Perm rows := by
  unfold Table.commit at hcommit
  rcases hw : run ⟨t.heap, t.roots⟩ with ⟨e | a, w⟩
  · rw [hw] at hcommit
    cases hcommit
  · rw [hw] at hcommit
    obtain rfl := Except.ok.inj hcommit
    obtain ⟨rows, hdocs, hend⟩ := hrun.ok hw
    have hlive := hend.stored
    rw [List.nil_append] at hlive
    refine ⟨⟨⟨?_, ?_⟩, rfl, hend.keys⟩, _, hdocs, hlive.map Prod.snd⟩
    · rw [show w.roots.map Prod.fst = t.roots.map Prod.fst from hend.keys]
      exact h.settled
    · rw [show w.roots.map Prod.fst = t.roots.map Prod.fst from hend.keys]
      exact (h.specs_eq ▸ hend.keeps).congr hlive.symm

end Docsql.Index
