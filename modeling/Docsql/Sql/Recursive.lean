import Docsql.RowIdentity
import Docsql.Sql.Exec
import Mathlib.Logic.Relation

/-!
# Recursive CTEs

The rows of the anchor are the first working table, and every round runs the arm on the rows
that the round before added.  UNION drops a row whose bytes were seen, UNION ALL keeps every row
and ends when the arm gives none.
-/

namespace Docsql.Sql.Recursive

/-! ## The loop -/

section Loop

variable (codec : DecimalCodec) (name : String) (distinct : Bool)
  (aliasColumns : Option (List String)) (columns : List String)
  (arm : List Object → Except String QueryResult)

def maxRows : ℕ := 100000

def docKey (doc : Object) : List UInt8 := valueKey codec (.object doc)

/-- The columns are those of the alias, if it has any. -/
def toDocs (rows : List (List Value)) : List Object :=
  rows.map fun row =>
    ((aliasColumns.getD columns).zip row).foldl (fun doc p => insertField p.1 p.2 doc) []

/-- `next` becomes the working table of the next round. -/
structure Collected where
  seen : List (List UInt8)
  all : List Object
  next : List Object

def Collected.push (c : Collected) (doc : Object) : Collected :=
  ⟨docKey codec doc :: c.seen, c.all ++ [doc], c.next ++ [doc]⟩

/-- The rows of the anchor. -/
def seed : Collected → List Object → Collected
  | c, [] => c
  | c, doc :: docs =>
    if distinct = true ∧ docKey codec doc ∈ c.seen then seed c docs
    else seed (c.push codec doc) docs

/-- The rows of a round. -/
def absorb : Collected → List Object → Except String Collected
  | c, [] => .ok c
  | c, doc :: docs =>
    if distinct = true ∧ docKey codec doc ∈ c.seen then absorb c docs
    else if maxRows < (c.push codec doc).all.length then
      .error s!"recursive CTE {name} exceeded the 100000-row budget (UNION ALL cycle?)"
    else absorb (c.push codec doc) docs

def rounds : ℕ → Collected → Except String (List Object)
  | 0, c =>
    if c.next = [] then .ok c.all
    else .error s!"recursive CTE {name} did not converge within 100 iterations (UNION ALL cycle?)"
  | k + 1, c =>
    if c.next = [] then .ok c.all
    else do
      let r ← arm c.next
      if r.columns.length ≠ columns.length then
        .error (s!"recursive arm produces {r.columns.length} columns but the anchor " ++
          s!"produces {columns.length}")
      else
        let c ← absorb codec name distinct { c with next := [] }
          (toDocs aliasColumns columns r.rows)
        rounds k c

/-- `materialize_recursive_cte` after the anchor was run. -/
def materializeRecursiveCte (anchor : QueryResult) : Except String (List Object) :=
  rounds codec name distinct aliasColumns anchor.columns arm maxIterations
    (seed codec distinct ⟨[], [], []⟩ (toDocs aliasColumns anchor.columns anchor.rows))

end Loop

variable {codec : DecimalCodec} {name : String} {distinct : Bool}
  {aliasColumns : Option (List String)} {columns : List String}
  {arm : List Object → Except String QueryResult} {c c' : Collected} {docs : List Object}

/-! ## What a round gives -/

/-- The arm turns a working table into documents. -/
def Gives (aliasColumns : Option (List String)) (columns : List String)
    (arm : List Object → Except String QueryResult) (working docs : List Object) : Prop :=
  ∃ r, arm working = .ok r ∧ r.columns.length = columns.length ∧
    toDocs aliasColumns columns r.rows = docs

theorem absorb_eq_seed (h : absorb codec name distinct c docs = .ok c') :
    c' = seed codec distinct c docs := by
  induction docs generalizing c with
  | nil => exact (Except.ok.inj h).symm
  | cons doc docs ih =>
    rw [absorb] at h
    rw [seed]
    split at h
    · rename_i hseen
      rw [if_pos hseen]
      exact ih h
    · rename_i hseen
      rw [if_neg hseen]
      split at h
      · cases h
      · exact ih h

/-- A run of the loop ends with nothing to work on, or goes on after a round. -/
theorem rounds_ok {k : ℕ} {all : List Object}
    (h : rounds codec name distinct aliasColumns columns arm k c = .ok all) :
    (c.next = [] ∧ all = c.all) ∨
      (c.next ≠ [] ∧ ∃ k' docs, k = k' + 1 ∧ Gives aliasColumns columns arm c.next docs ∧
        rounds codec name distinct aliasColumns columns arm k'
          (seed codec distinct { c with next := [] } docs) = .ok all) := by
  cases k with
  | zero =>
    rw [rounds] at h
    split at h
    · rename_i hnext
      exact .inl ⟨hnext, (Except.ok.inj h).symm⟩
    · cases h
  | succ k =>
    rw [rounds] at h
    split at h
    · rename_i hnext
      exact .inl ⟨hnext, (Except.ok.inj h).symm⟩
    · rename_i hnext
      right
      refine ⟨hnext, k, ?_⟩
      obtain ⟨r, hr, h⟩ := Except.bind_eq_ok_iff.mp h
      split at h
      · cases h
      · rename_i hcols
        obtain ⟨c', hc', h⟩ := Except.bind_eq_ok_iff.mp h
        rw [absorb_eq_seed hc'] at h
        exact ⟨_, rfl, ⟨r, hr, not_not.mp hcols, rfl⟩, h⟩

/-! ## UNION ALL -/

/-- A working table with the results of the rounds after it, until one is empty. -/
inductive Unrolls (gives : List Object → List Object → Prop) : List Object → List Object → Prop
  | done : Unrolls gives [] []
  | round {working docs rest : List Object} (hworking : working ≠ []) (h : gives working docs)
      (hrest : Unrolls gives docs rest) : Unrolls gives working (working ++ rest)

theorem seed_all : seed codec false c docs =
    ⟨(docs.map (docKey codec)).reverse ++ c.seen, c.all ++ docs, c.next ++ docs⟩ := by
  induction docs generalizing c with
  | nil => simp [seed]
  | cons doc docs ih =>
    rw [seed, if_neg (fun h => by cases h.1), ih]
    simp [Collected.push]

theorem rounds_unroll {k : ℕ} {old all : List Object} (hc : c.all = old ++ c.next)
    (h : rounds codec name false aliasColumns columns arm k c = .ok all) :
    ∃ unrolled, Unrolls (Gives aliasColumns columns arm) c.next unrolled ∧
      all = old ++ unrolled := by
  induction k generalizing c old with
  | zero =>
    rcases rounds_ok h with ⟨hnext, rfl⟩ | ⟨-, k', docs, hk, -⟩
    · rw [hnext] at hc ⊢
      exact ⟨[], .done, hc⟩
    · cases hk
  | succ k ih =>
    rcases rounds_ok h with ⟨hnext, rfl⟩ | ⟨hnext, k', docs, hk, hgives, hrest⟩
    · rw [hnext] at hc ⊢
      exact ⟨[], .done, hc⟩
    · obtain rfl := Nat.succ.inj hk
      rw [seed_all] at hrest
      obtain ⟨unrolled, hunrolls, hall⟩ := ih (congrArg (· ++ docs) hc) hrest
      refine ⟨c.next ++ unrolled, .round hnext hgives hunrolls, ?_⟩
      rw [hall, List.append_assoc]

/-- UNION ALL returns the rows of the anchor and of all rounds. -/
theorem recursive_cte_all {anchor : QueryResult} {all : List Object}
    (h : materializeRecursiveCte codec name false aliasColumns arm anchor = .ok all) :
    Unrolls (Gives aliasColumns anchor.columns arm)
      (toDocs aliasColumns anchor.columns anchor.rows) all := by
  rw [materializeRecursiveCte, seed_all] at h
  obtain ⟨unrolled, hunrolls, hall⟩ := rounds_unroll (List.nil_append _).symm h
  rwa [hall]

/-! ## UNION -/

/-- The keys seen are those of the rows, which are there once each. -/
structure Kept (codec : DecimalCodec) (c : Collected) : Prop where
  seen : ∀ k, k ∈ c.seen ↔ ∃ d ∈ c.all, docKey codec d = k
  nodup : c.all.Nodup

theorem Kept.push {doc : Object} (h : Kept codec c) (hnew : docKey codec doc ∉ c.seen) :
    Kept codec (c.push codec doc) where
  seen k := by
    simp only [Collected.push, List.mem_cons, List.mem_append, List.not_mem_nil, or_false, h.seen]
    constructor
    · rintro (rfl | ⟨d, hd, hk⟩)
      · exact ⟨doc, .inr rfl, rfl⟩
      · exact ⟨d, .inl hd, hk⟩
    · rintro ⟨d, hd | rfl, hk⟩
      · exact .inr ⟨d, hd, hk⟩
      · exact .inl hk.symm
  nodup := by
    apply List.nodup_append.mpr
    refine ⟨h.nodup, List.nodup_singleton doc, ?_⟩
    rintro d hd e he rfl
    rw [List.mem_singleton] at he
    exact hnew ((h.seen _).mpr ⟨d, hd, he ▸ rfl⟩)

/-- The rows that are new, and every row has its key seen after. -/
theorem seed_fresh (h : Kept codec c) (docs : List Object) :
    ∃ fresh, Kept codec (seed codec true c docs) ∧
      (seed codec true c docs).all = c.all ++ fresh ∧
      (seed codec true c docs).next = c.next ++ fresh ∧ fresh ⊆ docs ∧
      ∀ doc ∈ docs, ∃ d ∈ c.all ++ fresh, docKey codec d = docKey codec doc := by
  induction docs generalizing c with
  | nil =>
    refine ⟨[], h, by simp [seed], by simp [seed], List.nil_subset [], fun d hd => ?_⟩
    cases hd
  | cons doc docs ih =>
    rw [seed]
    split
    · rename_i hseen
      obtain ⟨fresh, hkept, hall, hnext, hsub, hkeys⟩ := ih h
      refine ⟨fresh, hkept, hall, hnext, List.subset_cons_of_subset doc hsub, ?_⟩
      intro e he
      rcases List.mem_cons.mp he with rfl | he
      · obtain ⟨d, hd, hk⟩ := (h.seen _).mp hseen.2
        exact ⟨d, List.mem_append_left fresh hd, hk⟩
      · exact hkeys e he
    · rename_i hnew
      obtain ⟨fresh, hkept, hall, hnext, hsub, hkeys⟩ := ih (h.push fun hk => hnew ⟨rfl, hk⟩)
      have happend (xs : List Object) : xs ++ [doc] ++ fresh = xs ++ doc :: fresh :=
        List.append_assoc xs [doc] fresh
      refine ⟨doc :: fresh, hkept, hall.trans (happend _), hnext.trans (happend _),
        List.cons_subset_cons doc hsub, ?_⟩
      intro e he
      rcases List.mem_cons.mp he with rfl | he
      · exact ⟨e, List.mem_append_right _ List.mem_cons_self, rfl⟩
      · obtain ⟨d, hd, hk⟩ := hkeys e he
        exact ⟨d, happend c.all ▸ hd, hk⟩

/-- The rows that the anchor leads to. -/
def Reached (Derives : Object → Object → Prop) (anchors : List Object) (doc : Object) : Prop :=
  ∃ a ∈ anchors, Relation.ReflTransGen Derives a doc

section Fixpoint

variable {Derives : Object → Object → Prop} {anchors : List Object}

/-- Only the working table may lead to rows that are not there yet. -/
structure Closing (codec : DecimalCodec) (Derives : Object → Object → Prop)
    (anchors : List Object) (c : Collected) : Prop where
  kept : Kept codec c
  reached : ∀ d ∈ c.all, Reached Derives anchors d
  anchored : anchors ⊆ c.all
  next : c.next ⊆ c.all
  closed : ∀ d ∈ c.all, d ∉ c.next → ∀ e, Derives d e → e ∈ c.all

theorem Closing.round (h : Closing codec Derives anchors c)
    (hdocs : ∀ doc, doc ∈ docs ↔ ∃ d ∈ c.next, Derives d doc)
    (hkey : ∀ d e, Reached Derives anchors d → Reached Derives anchors e →
      docKey codec d = docKey codec e → d = e) :
    Closing codec Derives anchors (seed codec true { c with next := [] } docs) := by
  obtain ⟨fresh, hkept, hall, hnext, hsub, hkeys⟩ :=
    seed_fresh (c := { c with next := [] }) ⟨h.kept.seen, h.kept.nodup⟩ docs
  have hderived : ∀ d ∈ docs, Reached Derives anchors d := by
    intro e he
    obtain ⟨d, hd, hde⟩ := (hdocs e).mp he
    obtain ⟨a, ha, had⟩ := h.reached d (h.next hd)
    exact ⟨a, ha, had.tail hde⟩
  have hreached : ∀ d ∈ c.all ++ fresh, Reached Derives anchors d := by
    intro d hd
    rcases List.mem_append.mp hd with hd | hd
    · exact h.reached d hd
    · exact hderived d (hsub hd)
  constructor
  · exact hkept
  · rwa [hall]
  · rw [hall]
    exact List.subset_append_of_subset_left fresh h.anchored
  · rw [hall, hnext]
    exact List.subset_append_right c.all fresh
  · rw [hall, hnext]
    intro d hd hnew e hde
    have hold : d ∈ c.all := (List.mem_append.mp hd).resolve_right hnew
    by_cases hworking : d ∈ c.next
    · have he := (hdocs e).mpr ⟨d, hworking, hde⟩
      obtain ⟨f, hf, hk⟩ := hkeys e he
      rwa [← hkey f e (hreached f hf) (hderived e he) hk]
    · exact List.mem_append_left fresh (h.closed d hold hworking e hde)

/-- With no working table left, the rows are the least set around the anchor. -/
theorem Closing.least (h : Closing codec Derives anchors c) (hnext : c.next = []) :
    c.all.Nodup ∧ ∀ doc, doc ∈ c.all ↔ Reached Derives anchors doc := by
  refine ⟨h.kept.nodup, fun doc => ⟨h.reached doc, ?_⟩⟩
  rintro ⟨a, ha, had⟩
  induction had with
  | refl => exact h.anchored ha
  | tail _ hde ih =>
    apply h.closed _ ih
    · rw [hnext]
      exact List.not_mem_nil
    · exact hde

theorem Closing.run {k : ℕ} {all : List Object} (h : Closing codec Derives anchors c)
    (hdist : ∀ working docs, Gives aliasColumns columns arm working docs →
      ∀ doc, doc ∈ docs ↔ ∃ d ∈ working, Derives d doc)
    (hkey : ∀ d e, Reached Derives anchors d → Reached Derives anchors e →
      docKey codec d = docKey codec e → d = e)
    (hrun : rounds codec name true aliasColumns columns arm k c = .ok all) :
    all.Nodup ∧ ∀ doc, doc ∈ all ↔ Reached Derives anchors doc := by
  induction k generalizing c with
  | zero =>
    rcases rounds_ok hrun with ⟨hnext, rfl⟩ | ⟨-, k', docs, hk, -⟩
    · exact h.least hnext
    · cases hk
  | succ k ih =>
    rcases rounds_ok hrun with ⟨hnext, rfl⟩ | ⟨-, k', docs, hk, hgives, hrest⟩
    · exact h.least hnext
    · obtain rfl := Nat.succ.inj hk
      exact ih (h.round (hdist _ _ hgives) hkey) hrest

end Fixpoint

/-- The arm works on each row alone, and the rows that the anchor leads to can be encoded. -/
theorem recursive_cte_least {anchor : QueryResult} {all : List Object}
    (Derives : Object → Object → Prop)
    (hdist : ∀ working docs, Gives aliasColumns anchor.columns arm working docs →
      ∀ doc, doc ∈ docs ↔ ∃ d ∈ working, Derives d doc)
    (henc : ∀ doc, Reached Derives (toDocs aliasColumns anchor.columns anchor.rows) doc →
      (Value.object doc).WF ∧ ∃ bs, encode codec (.object doc) = .ok bs)
    (h : materializeRecursiveCte codec name true aliasColumns arm anchor = .ok all) :
    all.Nodup ∧ ∀ doc, doc ∈ all ↔
      Reached Derives (toDocs aliasColumns anchor.columns anchor.rows) doc := by
  have hkey : ∀ d e, Reached Derives (toDocs aliasColumns anchor.columns anchor.rows) d →
      Reached Derives (toDocs aliasColumns anchor.columns anchor.rows) e →
      docKey codec d = docKey codec e → d = e := by
    intro d e hd he hsame
    obtain ⟨hwd, hencd⟩ := henc d hd
    obtain ⟨hwe, hence⟩ := henc e he
    exact Value.object.inj ((valueKey_eq_iff hwd hwe hencd hence).mp hsame)
  obtain ⟨fresh, hkept, hall, hnext, hsub, hkeys⟩ :=
    seed_fresh (show Kept codec ⟨[], [], []⟩ from ⟨fun k => by simp, List.nodup_nil⟩)
      (toDocs aliasColumns anchor.columns anchor.rows)
  rw [List.nil_append] at hall hnext hkeys
  have hreached : ∀ d ∈ toDocs aliasColumns anchor.columns anchor.rows,
      Reached Derives (toDocs aliasColumns anchor.columns anchor.rows) d :=
    fun d hd => ⟨d, hd, .refl⟩
  refine Closing.run ⟨hkept, ?_, ?_, ?_, ?_⟩ hdist hkey h
  · rw [hall]
    exact fun d hd => hreached d (hsub hd)
  · rw [hall]
    intro d hd
    obtain ⟨f, hf, hk⟩ := hkeys d hd
    rwa [← hkey f d (hreached f (hsub hf)) (hreached d hd) hk]
  · rw [hall, hnext]
    exact List.Subset.refl fresh
  · rw [hall, hnext]
    intro d hd hnew
    exact absurd hd hnew

/-! ## One row that leads to a second -/

def isOne : Object → Bool
  | [("n", .int i)] => i == 1
  | _ => false

def oneToTwo (working : List Object) : Except String QueryResult :=
  .ok ⟨["n"], (working.filter isOne).map fun _ => [.int 2]⟩

theorem recursive_cte_all_oneToTwo :
    Unrolls (Gives none ["n"] oneToTwo) (toDocs none ["n"] [[.int 1]])
      [[("n", .int 1)], [("n", .int 2)]] := by
  have hrun : materializeRecursiveCte rustDecimal "t" false none oneToTwo
      ⟨["n"], [[.int 1]]⟩ = .ok [[("n", .int 1)], [("n", .int 2)]] := rfl
  exact recursive_cte_all hrun

theorem gives_oneToTwo (working docs : List Object) (h : Gives none ["n"] oneToTwo working docs)
    (doc : Object) :
    doc ∈ docs ↔ ∃ d ∈ working, isOne d = true ∧ doc = [("n", .int 2)] := by
  obtain ⟨r, hr, -, rfl⟩ := h
  cases hr
  rw [toDocs, List.map_map, List.mem_map]
  constructor
  · rintro ⟨d, hd, rfl⟩
    obtain ⟨hd, hone⟩ := List.mem_filter.mp hd
    exact ⟨d, hd, hone, rfl⟩
  · rintro ⟨d, hd, hone, rfl⟩
    exact ⟨d, List.mem_filter.mpr ⟨hd, hone⟩, rfl⟩

theorem recursive_cte_least_oneToTwo :
    ([[("n", .int 1)], [("n", .int 2)]] : List Object).Nodup ∧
      ∀ doc, doc ∈ ([[("n", .int 1)], [("n", .int 2)]] : List Object) ↔
        Reached (fun d e => isOne d = true ∧ e = [("n", .int 2)])
          (toDocs none ["n"] [[.int 1]]) doc := by
  have hrun : materializeRecursiveCte rustDecimal "t" true none oneToTwo ⟨["n"], [[.int 1]]⟩ =
      .ok [[("n", .int 1)], [("n", .int 2)]] := rfl
  refine recursive_cte_least _ gives_oneToTwo ?_ hrun
  rintro doc ⟨a, ha, had⟩
  rcases had.cases_tail with rfl | ⟨d, -, -, rfl⟩
  · have hone : doc = [("n", .int 1)] := List.mem_singleton.mp ha
    rw [hone]
    exact ⟨by simp [Value.WF, wfFields, SortedKeys], _, rfl⟩
  · exact ⟨by simp [Value.WF, wfFields, SortedKeys], _, rfl⟩

end Docsql.Sql.Recursive
