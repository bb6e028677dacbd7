import Docsql.Lib.Readiness

/-!
# The order of tables and views in a dump

A table comes after the tables that its foreign keys are on, a view after the views that its
body reads.  Both orders are found greedily; what is on a cycle comes last.
-/

namespace Docsql.Dump

open Lib.Readiness

/-! ## Tables -/

section Tables

variable (names : List String) (parents : String → List String)

/-- The foreign keys of a table are on itself, on tables that are not dumped, and on tables that
came before. -/
def tableReady (out : List String) (n : String) : Bool :=
  (parents n).all fun p => p == n || !names.contains p || out.contains p

/-- A round takes the first table that is ready, so the rounds are no more than the tables. -/
def tableRounds : ℕ → List String → List String → List String
  | 0, out, remaining => out ++ remaining
  | k + 1, out, remaining =>
    match remaining.find? (tableReady names parents out) with
    | some n => tableRounds k (out ++ [n]) (remaining.eraseP (tableReady names parents out))
    | none => out ++ remaining

/-- `fk_dependency_order`; `parents` gives the `ref_table` of each foreign key. -/
def fkDependencyOrder : List String := tableRounds names parents names.length [] names

end Tables

/-! ## Views -/

section Views

variable (names : List String) (deps : String → List String)

/-- One walk over the views takes all that are ready by then. -/
def viewPass (names : List String) (deps : String → List String) (out : List String) :
    List String :=
  names.foldl
    (fun out n => if !out.contains n && (deps n).all out.contains then out ++ [n] else out) out

/-- A pass that takes no view is the last one. -/
def viewRounds : ℕ → List String → List String
  | 0, out => out
  | k + 1, out =>
    if out.length < names.length then
      let next := viewPass names deps out
      if next.length = out.length then out ++ names.filter fun n => !out.contains n
      else viewRounds k next
    else out

/-- `view_dependency_order`; `deps` gives the views that a body reads. -/
def viewDependencyOrder : List String := viewRounds names deps names.length []

end Views

variable {names : List String} {parents deps : String → List String}

/-! ## What they are ready for -/

/-- The tables that `n` refers to are there. -/
def Referable (names : List String) (parents : String → List String) (done : Set String)
    (n : String) : Prop :=
  ∀ p ∈ parents n, p = n ∨ p ∉ names ∨ p ∈ done

/-- The views that `n` reads are there. -/
def Readable (deps : String → List String) (done : Set String) (n : String) : Prop :=
  ∀ d ∈ deps n, d ∈ done

theorem referable_mono : Lasting (Referable names parents) := by
  intro done done' hle n h p hp
  exact (h p hp).imp_right (.imp_right fun hdone => hle hdone)

theorem readable_mono : Lasting (Readable deps) :=
  fun _ _ hle _ h d hd => hle (h d hd)

theorem tableReady_iff {out : List String} {n : String} :
    tableReady names parents out n = true ↔ Referable names parents {p | p ∈ out} n := by
  simp [tableReady, Referable, or_assoc]

/-! ## The rounds -/

theorem perm_eraseP {p : String → Bool} {l : List String} {n : String} (h : l.find? p = some n) :
    l.Perm (n :: l.eraseP p) := by
  induction l with
  | nil => cases h
  | cons m l ih =>
    by_cases hm : p m = true
    · rw [List.find?_cons_of_pos hm] at h
      cases h
      rw [List.eraseP_cons_of_pos hm]
    · rw [List.find?_cons_of_neg hm] at h
      rw [List.eraseP_cons_of_neg hm]
      exact ((ih h).cons m).trans (.swap n m _)

theorem tableRounds_greedy {rounds : ℕ} {out remaining : List String}
    (hrounds : rounds = remaining.length) (hperm : (out ++ remaining).Perm names)
    (hturn : InTurn (Referable names parents) ∅ out) :
    Greedy (Referable names parents) names (tableRounds names parents rounds out remaining) := by
  induction rounds generalizing out remaining with
  | zero =>
    obtain rfl := List.length_eq_zero_iff.mp hrounds.symm
    rw [tableRounds]
    rw [List.append_nil] at hperm ⊢
    exact .of_inTurn hperm hturn
  | succ k ih =>
    rw [tableRounds]
    split
    · rename_i n hfind
      have hready := List.find?_some hfind
      have hsplit := perm_eraseP hfind
      apply ih
      · have hlength := hsplit.length_eq
        rw [List.length_cons] at hlength
        omega
      · rw [List.append_assoc]
        exact (hsplit.symm.append_left out).trans hperm
      · apply inTurn_concat.mpr
        rw [Set.empty_union]
        exact ⟨hturn, tableReady_iff.mp hready⟩
    · rename_i hfind
      refine ⟨hperm, out, remaining, rfl, hturn, fun n hn hready => ?_⟩
      by_contra hout
      have hleft : n ∈ remaining :=
        (List.mem_append.mp (hperm.mem_iff.mpr hn)).resolve_left hout
      exact List.find?_eq_none.mp hfind n hleft (tableReady_iff.mpr hready)

theorem fkDependencyOrder_greedy (names : List String) (parents : String → List String) :
    Greedy (Referable names parents) names (fkDependencyOrder names parents) :=
  tableRounds_greedy rfl (.refl names) trivial

/-- What a pass makes of the views taken so far. -/
structure Taken (names : List String) (deps : String → List String) (out next : List String) :
    Prop where
  kept : out <+: next
  items : ∀ n ∈ next, n ∈ out ∨ n ∈ names
  nodup : out.Nodup → next.Nodup
  turn : InTurn (Readable deps) ∅ out → InTurn (Readable deps) ∅ next
  stuck : next.length = out.length → ∀ n ∈ names, Readable deps {d | d ∈ out} n → n ∈ out

theorem viewPass_taken (names : List String) (deps : String → List String) (out : List String) :
    Taken names deps out (viewPass names deps out) := by
  induction names generalizing out with
  | nil =>
    exact ⟨List.prefix_refl out, fun n hn => .inl hn, id, id, fun _ n hn => by cases hn⟩
  | cons m names ih =>
    show Taken (m :: names) deps out (viewPass names deps
      (if !out.contains m && (deps m).all out.contains then out ++ [m] else out))
    split
    · rename_i hm
      obtain ⟨hnew, hready⟩ : m ∉ out ∧ Readable deps {d | d ∈ out} m := by
        simpa [Readable] using hm
      have h := ih (out ++ [m])
      refine ⟨(List.prefix_append out [m]).trans h.kept, fun n hn => ?_, fun hout => ?_,
        fun hturn => ?_, fun hlength => ?_⟩
      · rcases h.items n hn with hn | hn
        · rcases List.mem_append.mp hn with hn | hn
          · exact .inl hn
          · rw [List.mem_singleton.mp hn]
            exact .inr List.mem_cons_self
        · exact .inr (List.mem_cons_of_mem m hn)
      · apply h.nodup
        rw [← List.concat_eq_append]
        exact hout.concat hnew
      · apply h.turn
        apply inTurn_concat.mpr
        rw [Set.empty_union]
        exact ⟨hturn, hready⟩
      · have hle := h.kept.length_le
        rw [hlength, List.length_append, List.length_singleton] at hle
        omega
    · rename_i hm
      have h := ih out
      refine ⟨h.kept, fun n hn => (h.items n hn).imp_right (List.mem_cons_of_mem m), h.nodup,
        h.turn, fun hlength n hn hready => ?_⟩
      rcases List.mem_cons.mp hn with rfl | hn
      · by_contra hout
        apply hm
        simpa [Readable, hout] using hready
      · exact h.stuck hlength n hn hready

/-- Views taken once each, and as many as there are. -/
theorem perm_of_length_le {out : List String} (hnodup : out.Nodup) (hout : out ⊆ names)
    (hlength : names.length ≤ out.length) : out.Perm names :=
  (List.subperm_of_subset hnodup hout).perm_of_length_le hlength

theorem viewRounds_greedy {rounds : ℕ} {out : List String} (hnames : names.Nodup)
    (hrounds : names.length ≤ rounds + out.length) (hnodup : out.Nodup) (hout : out ⊆ names)
    (hturn : InTurn (Readable deps) ∅ out) :
    Greedy (Readable deps) names (viewRounds names deps rounds out) := by
  induction rounds generalizing out with
  | zero =>
    rw [viewRounds]
    exact .of_inTurn (perm_of_length_le hnodup hout (by omega)) hturn
  | succ k ih =>
    rw [viewRounds]
    split
    · rename_i hshort
      have h := viewPass_taken names deps out
      simp only
      split
      · rename_i hlast
        exact ⟨perm_with_rest hnames hnodup hout, out, _, rfl, hturn, h.stuck hlast⟩
      · rename_i hmore
        have hsub : viewPass names deps out ⊆ names :=
          fun n hn => (h.items n hn).elim (fun hn => hout hn) id
        have hle := h.kept.length_le
        exact ih (by omega) (h.nodup hnodup) hsub (h.turn hturn)
    · rename_i hlong
      exact .of_inTurn (perm_of_length_le hnodup hout (by omega)) hturn

theorem viewDependencyOrder_greedy (deps : String → List String) (hnames : names.Nodup) :
    Greedy (Readable deps) names (viewDependencyOrder names deps) :=
  viewRounds_greedy hnames le_self_add List.nodup_nil (List.nil_subset names) trivial

/-! ## What comes first -/

/-- Every name is dumped once, and those that can be restored at all come first, each in its
turn. -/
structure Foremost (ready : Set String → String → Prop) (names out : List String) : Prop where
  perm : out.Perm names
  first : ∃ restored rest, out = restored ++ rest ∧ InTurn ready ∅ restored ∧
    ∀ order, order ⊆ names → InTurn ready ∅ order → order ⊆ restored

theorem dependency_orders_foremost (parents deps : String → List String) (hnames : names.Nodup) :
    Foremost (Referable names parents) names (fkDependencyOrder names parents) ∧
      Foremost (Readable deps) names (viewDependencyOrder names deps) := by
  have htables := fkDependencyOrder_greedy names parents
  have hviews := viewDependencyOrder_greedy deps hnames
  exact ⟨⟨htables.1, htables.foremost referable_mono⟩, hviews.1, hviews.foremost readable_mono⟩

/-- The first name depends on the second, and two others on each other. -/
def tangled (n : String) : List String :=
  if n = "a" then ["z"] else if n = "b" then ["c"] else if n = "c" then ["b"] else []

theorem dependency_orders_foremost_tangled :
    ["a", "b", "c", "z"].Nodup ∧
      Foremost (Referable ["a", "b", "c", "z"] tangled) ["a", "b", "c", "z"]
        (fkDependencyOrder ["a", "b", "c", "z"] tangled) ∧
      Foremost (Readable tangled) ["a", "b", "c", "z"]
        (viewDependencyOrder ["a", "b", "c", "z"] tangled) :=
  ⟨by decide, dependency_orders_foremost tangled tangled (by decide)⟩

example : viewDependencyOrder ["a", "b", "c", "z"] tangled = ["z", "a", "b", "c"] := by decide

end Docsql.Dump
