import Docsql.Autoinc.Numbering
import Docsql.Lib.StateExcept

/-!
# The watermark over one statement

A cached watermark is ahead of the live ids.  A statement that starts with it and has room below
the largest integer leaves it so, and an `INSERT` generates ids that are new.
-/

namespace Docsql.Autoinc

/-- The cached watermark is above the live ids; at the top it may equal the largest integer. -/
def TableOk (table : Table) (cached : Option Int64) : Prop :=
  ∀ n, cached = some n → ∀ i ∈ idsOf table.autoinc table.docs,
    i < n ∨ i = Int64.maxValue ∧ n = Int64.maxValue

/-- The watermark counted without bound. -/
def exactStart (ids : List Int64) : Option Int64 → ℤ
  | some n => if Int64.maxValue ∈ ids then Int64.maxValue.toInt + 1 else n.toInt
  | none => (maxId ids).toInt + 1

/-- What a row of an `INSERT` says about its id. -/
def rowId (autoinc : Option String) (columns : List String) (row : List Value) : RowId :=
  match autoinc with
  | none => .other
  | some col => if col ∈ columns then .ofField row[columns.idxOf col]? else .generated

/-- Counting on does not lead past the largest integer: no id is generated there, and a table
with that id has its watermark cached. -/
def Statement.Roomy (table : Table) (cached : Option Int64) : Statement → Prop
  | insert s =>
    (cached = none → maxId (idsOf table.autoinc table.docs) ≠ Int64.maxValue) ∧
      ∀ i ∈ generatedIds (exactStart (idsOf table.autoinc table.docs) cached)
        (s.rows.map (rowId table.autoinc s.columns)), i ≤ Int64.maxValue.toInt
  | merge _ => cached = none → maxId (idsOf table.autoinc table.docs) ≠ Int64.maxValue
  | _ => True

/-! ## The start of a statement -/

variable {table : Table} {cached : Option Int64} {col : String}

theorem autoincNextFor_follows (hok : TableOk table cached)
    (hroom : cached = none → maxId (idsOf table.autoinc table.docs) ≠ Int64.maxValue) :
    Follows (autoincNextFor table cached)
        (exactStart (idsOf table.autoinc table.docs) cached) ∧
      Below (exactStart (idsOf table.autoinc table.docs) cached)
        (idsOf table.autoinc table.docs) := by
  unfold Follows
  cases cached with
  | none =>
    have hsucc := toInt_succ (hroom rfl)
    have hle := Int64.toInt_le (maxId (idsOf table.autoinc table.docs) + 1)
    refine ⟨?_, fun i hi => ?_⟩
    · change (maxId _ + 1).toInt = min ((maxId _).toInt + 1) _
      omega
    · exact Int.lt_add_one_iff.mpr (le_maxId hi)
  | some n =>
    have hle := Int64.toInt_le n
    change n.toInt = min (ite _ _ _) _ ∧ Below (ite _ _ _) _
    split_ifs with hmax
    · refine ⟨?_, fun i _ => Int.lt_add_one_iff.mpr (Int64.toInt_le i)⟩
      rcases hok n rfl _ hmax with hlt | ⟨-, rfl⟩
      · have := Int64.lt_iff_toInt_lt.mp hlt
        omega
      · omega
    · refine ⟨by omega, fun i hi => ?_⟩
      rcases hok n rfl i hi with hlt | ⟨rfl, -⟩
      · exact Int64.lt_iff_toInt_lt.mp hlt
      · exact absurd hi hmax

/-- Ids below the exact watermark are good for the machine watermark that follows it. -/
theorem ok_of_below {next n : Int64} {exact : ℤ} {ids : List Int64} (hfollows : Follows next exact)
    (hbelow : Below exact ids) (hle : next.toInt ≤ n.toInt) {i : Int64} (hi : i ∈ ids) :
    i < n ∨ i = Int64.maxValue ∧ n = Int64.maxValue := by
  have hlt := hbelow i hi
  have htop := Int64.toInt_le i
  have htop' := Int64.toInt_le n
  unfold Follows at hfollows
  by_cases heq : i = Int64.maxValue
  · subst heq
    exact .inr ⟨rfl, Int64.toInt_inj.mp (by omega)⟩
  · have hne : i.toInt ≠ Int64.maxValue.toInt := fun h => heq (Int64.toInt_inj.mp h)
    exact .inl (Int64.lt_iff_toInt_lt.mpr (by omega))

/-- Looking the watermark up leaves it ahead. -/
theorem TableOk.starts {s : Statement} (hok : TableOk table cached) (hroom : s.Roomy table cached) :
    TableOk table (s.starts table cached) := by
  have hnext (hcold : cached = none → maxId (idsOf table.autoinc table.docs) ≠ Int64.maxValue) :
      TableOk table (some (autoincNextFor table cached)) := by
    obtain ⟨hfollows, hbelow⟩ := autoincNextFor_follows hok hcold
    rintro n ⟨⟩ i hi
    exact ok_of_below hfollows hbelow le_rfl hi
  cases s with
  | insert s => exact hnext hroom.1
  | merge s =>
    unfold Statement.starts
    split_ifs
    · exact hnext hroom
    · exact hok
  | update s => exact hok
  | delete s => exact hok
  | rewrite s => exact hok

/-! ## The rows of an INSERT -/

theorem docOf_eq {columns : List String} {row : List Value} (h : row.length = columns.length)
    (hcol : col ∈ columns) : docOf columns row col = row[columns.idxOf col]? := by
  unfold docOf
  induction columns generalizing row with
  | nil => cases hcol
  | cons c columns ih =>
    cases row with
    | nil => cases h
    | cons v row =>
      rw [List.zip_cons_cons, List.lookup_cons]
      by_cases heq : col = c
      · subst heq
        rw [beq_self_eq_true, List.idxOf_cons_self]
        rfl
      · rw [beq_eq_false_iff_ne.mpr heq, List.idxOf_cons_ne _ (Ne.symm heq)]
        exact ih (Nat.succ.inj h) (List.mem_of_ne_of_mem heq hcol)

/-- The document of a row has the id that the row asks for. -/
theorem assignRow_id {columns : List String} {next : Int64} {row : List Value}
    (h : row.length = columns.length) :
    (∃ v, docOf (insertColumns (some col) columns) (assignRow (some col) columns next row).1 col =
      some v) ∧
    idOf col (docOf (insertColumns (some col) columns) (assignRow (some col) columns next row).1) =
      (rowId (some col) columns row).id next ∧
    (assignRow (some col) columns next row).2 = (rowId (some col) columns row).advance next := by
  unfold insertColumns rowId assignRow
  by_cases hcol : col ∈ columns
  · simp only [if_pos hcol]
    have hlt : columns.idxOf col < row.length := h ▸ List.idxOf_lt_length_iff.mpr hcol
    have hget : row[columns.idxOf col]? = some row[columns.idxOf col] :=
      List.getElem?_eq_getElem hlt
    have hset (v : Value) : docOf columns (row.set (columns.idxOf col) v) col = some v := by
      rw [docOf_eq ((List.length_set ..).trans h) hcol, List.getElem?_set_self hlt]
    rw [hget]
    generalize hv : row[columns.idxOf col] = v at hget
    have hsame : docOf columns row col = some v := (docOf_eq h hcol).trans hget
    cases v with
    | null => exact ⟨⟨_, hset _⟩, by rw [idOf, hset]; rfl, rfl⟩
    | int i => exact ⟨⟨_, hsame⟩, by rw [idOf, hsame]; rfl, rfl⟩
    | _ => exact ⟨⟨_, hsame⟩, by rw [idOf, hsame]; rfl, rfl⟩
  · simp only [if_neg hcol]
    have hdoc : docOf (columns ++ [col]) (row ++ [Value.int next]) col = some (.int next) := by
      have hidx : (columns ++ [col]).idxOf col = row.length := by
        rw [List.idxOf_append_of_notMem hcol, h, List.idxOf_cons_self, Nat.add_zero]
      rw [docOf_eq (by simp [h]) (by simp), hidx, List.getElem?_append_right le_rfl]
      simp
    exact ⟨⟨_, hdoc⟩, by rw [idOf, hdoc]; rfl, rfl⟩

theorem InsertStmt.documents_numbered {s : InsertStmt} {next next' : Int64} {docs : List Doc}
    (h : s.documents (some col) next = some (docs, next')) :
    Numbered col next (s.rows.map (rowId (some col) s.columns)) docs next' := by
  unfold documents at h
  split_ifs at h with hlen
  obtain ⟨docs', hdocs, heq⟩ := Option.bind_eq_some_iff.mp h
  cases heq
  clear h
  have hlen' : ∀ row ∈ s.rows, row.length = s.columns.length := fun row hrow =>
    of_decide_eq_true (List.all_eq_true.mp hlen row hrow)
  clear hlen
  generalize s.rows = rows at hdocs hlen'
  induction rows generalizing next docs with
  | nil =>
    cases hdocs
    exact .nil
  | cons row rows ih =>
    change List.mapM _ (_ :: _) = _ at hdocs
    rw [List.mapM_cons] at hdocs
    obtain ⟨d, hd, hdocs⟩ := Option.bind_eq_some_iff.mp hdocs
    obtain ⟨rest, hrest, heq⟩ := Option.bind_eq_some_iff.mp hdocs
    cases heq
    obtain ⟨⟨v, hv⟩, hid, hadvance⟩ := @assignRow_id col s.columns next row (hlen' row List.mem_cons_self)
    refine .cons ?_ ?_
    · rw [← hid]
      exact idOf_congr ((s.complete_keeps _ _ _ _ hd hv).trans hv.symm)
    · rw [← hadvance]
      exact ih hrest fun r hr => hlen' r (List.mem_cons_of_mem _ hr)

/-! ## The rows of a MERGE -/

theorem mergeRows_numbered {next : Int64} {rows : List Doc} {complete : Doc → Option Doc}
    (hkeeps : ∀ d d' c v, complete d = some d' → d c = some v → d' c = some v) {docs : List Doc}
    (h : (mergeRows col next rows).1.mapM complete = some docs) :
    Numbered col next (rows.map fun d => .ofField (d col)) docs (mergeRows col next rows).2.1 := by
  induction rows generalizing next docs with
  | nil =>
    cases h
    exact .nil
  | cons d rows ih =>
    have hstep {d' : Doc} {next' : Int64} {v : Value} (hv : d' col = some v)
        (hdocs : (d' :: (mergeRows col next' rows).1).mapM complete = some docs)
        (hid : idOf col d' = (RowId.ofField (d col)).id next)
        (hadvance : next' = (RowId.ofField (d col)).advance next) :
        Numbered col next ((d :: rows).map fun d => .ofField (d col)) docs
          (mergeRows col next' rows).2.1 := by
      rw [List.mapM_cons] at hdocs
      obtain ⟨x, hx, hdocs⟩ := Option.bind_eq_some_iff.mp hdocs
      obtain ⟨rest, hrest, heq⟩ := Option.bind_eq_some_iff.mp hdocs
      cases heq
      refine .cons ?_ (hadvance ▸ ih hrest)
      rw [← hid]
      exact idOf_congr ((hkeeps _ _ _ _ hx hv).trans hv.symm)
    have hset : Function.update d col (some (Value.int next)) col = some (.int next) :=
      Function.update_self ..
    unfold mergeRows at h ⊢
    generalize hfield : d col = field at h hstep ⊢
    rcases field with - | v
    · exact hstep hset h (by rw [idOf, hset]; rfl) rfl
    · cases v with
      | null => exact hstep hset h (by rw [idOf, hset]; rfl) rfl
      | int i => exact hstep hfield h (by rw [idOf, hfield]; rfl) rfl
      | _ => exact hstep hfield h (by rw [idOf, hfield]; rfl) rfl

/-! ## What a statement leaves -/

theorem keepAt_subset {α : Type} {p : ℕ → Bool} {xs : List α} : keepAt p xs ⊆ xs := by
  intro x hx
  obtain ⟨y, hy, rfl⟩ := List.mem_map.mp hx
  exact List.fst_mem_of_mem_zipIdx (List.mem_of_mem_filter hy)

/-- An assignment of other columns leaves the id. -/
theorem idOf_setFields {cols : List String} {values : List Value} (h : col ∉ cols) (d : Doc) :
    idOf col (setFields cols values d) = idOf col d := by
  unfold setFields
  induction cols generalizing values d with
  | nil => rfl
  | cons c cols ih =>
    cases values with
    | nil => rfl
    | cons v values =>
      obtain ⟨hne, hnot⟩ := not_or.mp (List.mem_cons.not.mp h)
      rw [List.zip_cons_cons, List.foldl_cons, ih hnot]
      exact idOf_congr (Function.update_of_ne hne _ _)

theorem mem_ids_of_updateDocs {assigned : List String} {change : ℕ → Option (List Value)}
    {docs : List Doc} (h : (∃ i < docs.length, (change i).isSome) → col ∉ assigned) {i : Int64}
    (hi : i ∈ (updateDocs assigned change docs).filterMap (idOf col)) :
    i ∈ docs.filterMap (idOf col) := by
  obtain ⟨d, hd, hid⟩ := List.mem_filterMap.mp hi
  obtain ⟨k, hk, rfl⟩ := List.mem_mapIdx.mp hd
  refine List.mem_filterMap.mpr ⟨docs[k], List.getElem_mem hk, ?_⟩
  split at hid
  · rename_i values hchange
    rwa [idOf_setFields (h ⟨k, hk, by rw [hchange]; rfl⟩)] at hid
  · exact hid

/-- Every row behind an `INSERT` has the id of an old row or of one that is placed. -/
theorem InsertStmt.placeRows_ids {s : InsertStmt} {staged docs staged' placed : List Doc}
    (hassigned : ∀ cols, s.assigned = some cols → col ∉ cols)
    (h : s.placeRows staged docs = some (staged', placed)) :
    (∀ d ∈ staged', ∃ d₀ ∈ staged ++ placed, idOf col d = idOf col d₀) ∧ placed ⊆ docs := by
  induction docs generalizing staged placed with
  | nil =>
    cases h
    exact ⟨fun d hd => ⟨d, List.mem_append_left _ hd, rfl⟩, List.nil_subset _⟩
  | cons d docs ih =>
    unfold placeRows at h
    split at h
    · cases h
    · obtain ⟨hids, hsub⟩ := ih h
      exact ⟨hids, fun x hx => List.mem_cons_of_mem _ (hsub hx)⟩
    · split at h
      · rename_i values cols existing hcols hget
        obtain ⟨hids, hsub⟩ := ih h
        refine ⟨fun x hx => ?_, fun x hx => List.mem_cons_of_mem _ (hsub hx)⟩
        obtain ⟨d₀, hd₀, heq⟩ := hids x hx
        rcases List.mem_append.mp hd₀ with hmem | hmem
        · rcases List.mem_or_eq_of_mem_set hmem with hold | rfl
          · exact ⟨d₀, List.mem_append_left _ hold, heq⟩
          · rw [idOf_setFields (hassigned _ hcols)] at heq
            exact ⟨existing, List.mem_append_left _ (List.mem_of_getElem? hget), heq⟩
        · exact ⟨d₀, List.mem_append_right _ hmem, heq⟩
      · cases h
    · obtain ⟨out, hout, heq⟩ := Option.bind_eq_some_iff.mp h
      cases heq
      obtain ⟨hids, hsub⟩ := ih hout
      refine ⟨fun x hx => ?_, List.cons_subset_cons d hsub⟩
      obtain ⟨d₀, hd₀, heq⟩ := hids x hx
      refine ⟨d₀, ?_, heq⟩
      rwa [List.append_assoc, List.singleton_append] at hd₀

theorem le_usedIds (placed : List Doc) (next : Int64) :
    next.toInt ≤ (usedIds col placed next).toInt := by
  rw [usedIds, toInt_max]
  exact le_max_right _ _

/-- The cache behind a statement, from the entry it starts with. -/
def Write.leaves (w : Write) (cached : Option Int64) : Option Int64 :=
  w.atEnd.apply (w.atCommit.apply cached)

theorem insert_leaves {s : InsertStmt} {w : Write} (hok : TableOk table cached)
    (hroom : (Statement.insert s).Roomy table cached)
    (h : (Statement.insert s).plan table cached = some w) :
    TableOk ⟨w.autoinc, w.docs⟩ (w.leaves ((Statement.insert s).starts table cached)) := by
  obtain ⟨⟨docs, next'⟩, hdocs, h⟩ := Option.bind_eq_some_iff.mp h
  obtain ⟨⟨staged, placed⟩, hwrite, h⟩ := Option.bind_eq_some_iff.mp h
  cases h
  obtain ⟨hfollows, hbelow⟩ := autoincNextFor_follows hok hroom.1
  change TableOk ⟨table.autoinc, staged⟩ ((insertMark table.autoinc s.assigned placed next').apply _)
  obtain ⟨autoinc, rows⟩ := table
  cases autoinc with
  | none => exact fun n _ i hi => nomatch hi
  | some col =>
    rw [insertMark]
    split_ifs with htouched
    · exact nofun
    · have hassigned (cols : List String) (hcols : s.assigned = some cols) : col ∉ cols := by
        intro hmem
        rw [hcols] at htouched
        exact htouched (decide_eq_true hmem)
      obtain ⟨hids, hsub⟩ := s.placeRows_ids hassigned hwrite
      obtain ⟨hnew, hfollows'⟩ := (InsertStmt.documents_numbered hdocs).ids_below hfollows
      have hall : Below (exactEnd (exactStart (idsOf (some col) rows) cached)
          (s.rows.map (rowId (some col) s.columns))) (staged.filterMap (idOf col)) := by
        intro i hi
        obtain ⟨d, hd, hid⟩ := List.mem_filterMap.mp hi
        obtain ⟨d₀, hd₀, heq⟩ := hids d hd
        rw [heq] at hid
        rcases List.mem_append.mp hd₀ with hold | hplaced
        · exact (hbelow i (List.mem_filterMap.mpr ⟨d₀, keepAt_subset hold, hid⟩)).trans_le
            (le_exactEnd _ _)
        · exact hnew i (List.mem_filterMap.mpr ⟨d₀, keepAt_subset (hsub hplaced), hid⟩)
      rintro n ⟨⟩ i hi
      exact ok_of_below hfollows' hall (le_usedIds placed next') hi

theorem update_leaves {s : UpdateStmt} {w : Write} (hok : TableOk table cached)
    (h : (Statement.update s).plan table cached = some w) :
    TableOk ⟨w.autoinc, w.docs⟩ (w.leaves cached) := by
  cases h
  obtain ⟨autoinc, rows⟩ := table
  cases autoinc with
  | none => exact fun n _ i hi => nomatch hi
  | some col =>
    by_cases hmem : col ∈ s.assigned
    · have htouched : (some col).any (fun col => col ∈ s.assigned) = true := decide_eq_true hmem
      intro n hn
      rw [Write.leaves, htouched] at hn
      cases hn
    · have htouched : (some col).any (fun col => col ∈ s.assigned) = false :=
        decide_eq_false hmem
      intro n hn i hi
      rw [Write.leaves, htouched] at hn
      exact hok n hn i (mem_ids_of_updateDocs (fun _ => hmem) hi)

/-- Without a mark of its own a `MERGE` inserts no ids and changes none. -/
theorem merge_leaves {s : MergeStmt} {w : Write} (hok : TableOk table cached)
    (hroom : (Statement.merge s).Roomy table cached)
    (h : (Statement.merge s).plan table cached = some w) :
    TableOk ⟨w.autoinc, w.docs⟩ (w.leaves ((Statement.merge s).starts table cached)) := by
  obtain ⟨⟨docs, next', explicit⟩, hins, h⟩ := Option.bind_eq_some_iff.mp h
  cases h
  have hstart := hok.starts (s := .merge s) hroom
  obtain ⟨hfollows, hbelow⟩ := autoincNextFor_follows hok hroom
  obtain ⟨autoinc, rows⟩ := table
  cases autoinc with
  | none => exact fun n _ i hi => nomatch hi
  | some col =>
    intro n hn
    change (mergeMark (some col) _ docs next').apply _ = some n at hn
    rw [mergeMark] at hn
    obtain ⟨docs', hdocs, heq⟩ := Option.bind_eq_some_iff.mp hins
    obtain ⟨rfl, hout⟩ := Prod.mk.inj (Option.some.inj heq)
    obtain ⟨rfl, rfl⟩ := Prod.ext_iff.mp hout
    obtain ⟨hnew, hfollows'⟩ := (mergeRows_numbered s.complete_keeps hdocs).ids_below hfollows
    by_cases hmutated : (((rows.mapIdx fun i _ => (s.change i).isSome).any id &&
        (some col).any fun col => col ∈ s.assigned) ||
          (mergeRows col (autoincNextFor ⟨some col, rows⟩ cached) s.rows).2.2) = true
    · rw [if_pos hmutated] at hn
      cases hn
    rw [if_neg hmutated] at hn
    have hold (i : Int64) (hi : i ∈ (updateDocs s.assigned s.change rows).filterMap (idOf col)) :
        i ∈ rows.filterMap (idOf col) := by
      refine mem_ids_of_updateDocs ?_ hi
      rintro ⟨k, hk, hsome⟩ hmem
      have hmatched : (rows.mapIdx fun i _ => (s.change i).isSome).any id = true :=
        List.any_eq_true.mpr ⟨_, List.mem_mapIdx.mpr ⟨k, hk, rfl⟩, hsome⟩
      refine hmutated (Bool.or_eq_true_iff.mpr (.inl ?_))
      exact Bool.and_eq_true_iff.mpr ⟨hmatched, decide_eq_true hmem⟩
    intro i hi
    change i ∈ (updateDocs s.assigned s.change rows ++ docs').filterMap (idOf col) at hi
    rw [List.filterMap_append] at hi
    split_ifs at hn with hsome
    · cases hn
      have hall : Below (exactEnd (exactStart (idsOf (some col) rows) cached)
          (s.rows.map fun d => .ofField (d col)))
          ((updateDocs s.assigned s.change rows).filterMap (idOf col) ++
            docs'.filterMap (idOf col)) := by
        intro i hi
        rcases List.mem_append.mp hi with hi | hi
        · exact (hbelow i (hold i hi)).trans_le (le_exactEnd _ _)
        · exact hnew i hi
      exact ok_of_below hfollows' hall le_rfl hi
    · rcases List.mem_append.mp hi with hi | hi
      · exact hstart n hn i (hold i hi)
      · obtain ⟨d, hd, hid⟩ := List.mem_filterMap.mp hi
        exact absurd (List.any_eq_true.mpr ⟨d, hd, by rw [hid]; rfl⟩) hsome

/-- A statement that starts with a watermark ahead of the ids, and has room, leaves it so. -/
theorem plan_leaves {s : Statement} {w : Write} (hok : TableOk table cached)
    (hroom : s.Roomy table cached) (h : s.plan table cached = some w) :
    TableOk ⟨w.autoinc, w.docs⟩ (w.leaves (s.starts table cached)) := by
  cases s with
  | insert s => exact insert_leaves hok hroom h
  | update s => exact update_leaves hok h
  | merge s => exact merge_leaves hok hroom h
  | delete s =>
    cases h
    exact nofun
  | rewrite s =>
    cases h
    exact nofun

/-- The ids that an `INSERT` generates are new. -/
theorem insert_fresh {s : InsertStmt} {docs : List Doc} {next : Int64} (hok : TableOk table cached)
    (hroom : (Statement.insert s).Roomy table cached) (hcol : table.autoinc = some col)
    (h : s.documents table.autoinc (autoincNextFor table cached) = some (docs, next)) :
    FreshAmong col table.docs (s.rows.map (rowId table.autoinc s.columns)) docs := by
  obtain ⟨hfollows, hbelow⟩ := autoincNextFor_follows hok hroom.1
  have hrows := hroom.2
  obtain ⟨autoinc, rows⟩ := table
  cases hcol
  exact (InsertStmt.documents_numbered h).fresh hfollows hrows hbelow

end Docsql.Autoinc
