import Docsql.Expr.Eval
import Docsql.Lib.StateExcept

/-!
# Evaluated parts

Which parts of an expression an evaluator comes to, and how two evaluators that agree on those
parts agree on the choices made from them.
-/

namespace Docsql.Expr

open Docsql.Scalar

/-! ## Parts -/

/-- The parts that are evaluated in any case. -/
def operands : SqlExpr → List SqlExpr
  | .unaryOp _ e | .nested e | .floor e | .ceil e | .isNull e | .isNotNull e | .cast _ e _
  | .inList e _ _ => [e]
  | .binaryOp l _ r | .position l r | .isDistinctFrom l r | .isNotDistinctFrom l r
  | .like _ _ l r _ => [l, r]
  | .between e _ low high => [e, low, high]
  | .substring e start _ => e :: start.toList
  | .trim _ e what => e :: what.toList
  | .case operand _ _ => operand.toList
  | _ => []

variable (lib : Library) (f : SqlExpr → Eval Value)

/-- The conditions are evaluated and none of them is met. -/
def NoHit (base : Option Value) (conditions : List (SqlExpr × SqlExpr)) : Prop :=
  ∀ p ∈ conditions, ∃ v, f p.1 = .ok v ∧ caseHit base v = .ok false

/-- The value of the operand of `CASE`, if it has one. -/
def HasBase (operand : Option SqlExpr) (base : Option Value) : Prop :=
  match operand, base with
  | none, none => True
  | some o, some b => f o = .ok b
  | _, _ => False

/-- The elements are evaluated and none of them is an equal value beside a NULL. -/
def NoMatch (v : Value) (items : List SqlExpr) : Prop :=
  ∀ x ∈ items, ∃ w o, f x = .ok w ∧
    (isNull v = true ∨ isNull w = true ∨ cmpCoerced v w = .ok o ∧ o ≠ some .eq)

/-- Evaluating the expression by `f` comes to the part. -/
inductive Evaluates : SqlExpr → SqlExpr → Prop
  | operand {e s} : s ∈ operands e → Evaluates e s
  | argument {name windowed args s} : lib.upper name ≠ "IF" → some s ∈ args →
      Evaluates (.function name windowed args) s
  | ifCondition {name windowed c y n} : lib.upper name = "IF" →
      Evaluates (.function name windowed [some c, some y, some n]) c
  | ifYes {name windowed c y n v} : lib.upper name = "IF" → f c = .ok v → truthy lib v = true →
      Evaluates (.function name windowed [some c, some y, some n]) y
  | ifNo {name windowed c y n v} : lib.upper name = "IF" → f c = .ok v → truthy lib v = false →
      Evaluates (.function name windowed [some c, some y, some n]) n
  | caseCondition {operand front c r back elseResult base} : HasBase f operand base →
      NoHit f base front → Evaluates (.case operand (front ++ (c, r) :: back) elseResult) c
  | caseResult {operand front c r back elseResult base v} : HasBase f operand base →
      NoHit f base front → f c = .ok v → caseHit base v = .ok true →
      Evaluates (.case operand (front ++ (c, r) :: back) elseResult) r
  | caseElse {operand conditions e base} : HasBase f operand base → NoHit f base conditions →
      Evaluates (.case operand conditions (some e)) e
  | substringLength {e start length y} :
      substringArg lib "start" 1 (start.map f) = .ok (some y) →
      Evaluates (.substring e start (some length)) length
  | inItem {e front s back negated v} : f e = .ok v → NoMatch f v front →
      Evaluates (.inList e (front ++ s :: back) negated) s

/-- Evaluating the expression comes to a part with the defect. -/
inductive Meets (defect : SqlExpr → Prop) : SqlExpr → Prop
  | here {e} : defect e → Meets defect e
  | part {e s} : Evaluates lib f e s → Meets defect s → Meets defect e

variable {lib f}

theorem operands_size {e s : SqlExpr} (h : s ∈ operands e) : sizeOf s < sizeOf e := by
  have htoList {o : Option SqlExpr} (hs : s ∈ o.toList) : sizeOf s < sizeOf o := by
    rw [Option.mem_def.mp (Option.mem_toList.mp hs), Option.some.sizeOf_spec]
    omega
  unfold operands at h
  split at h
  case h_17 =>
    have := htoList h
    rw [SqlExpr.case.sizeOf_spec]
    omega
  case h_18 => cases h
  all_goals
    simp only [List.mem_cons, List.not_mem_nil, or_false] at h
    simp only [SqlExpr.unaryOp.sizeOf_spec, SqlExpr.nested.sizeOf_spec, SqlExpr.floor.sizeOf_spec,
      SqlExpr.ceil.sizeOf_spec, SqlExpr.isNull.sizeOf_spec, SqlExpr.isNotNull.sizeOf_spec,
      SqlExpr.cast.sizeOf_spec, SqlExpr.inList.sizeOf_spec, SqlExpr.binaryOp.sizeOf_spec,
      SqlExpr.position.sizeOf_spec, SqlExpr.isDistinctFrom.sizeOf_spec,
      SqlExpr.isNotDistinctFrom.sizeOf_spec, SqlExpr.like.sizeOf_spec,
      SqlExpr.between.sizeOf_spec, SqlExpr.substring.sizeOf_spec, SqlExpr.trim.sizeOf_spec]
  case h_15 | h_16 =>
    rcases h with rfl | h
    · omega
    · have := htoList h
      omega
  case h_14 =>
    rcases h with rfl | rfl | rfl
    all_goals omega
  case h_9 | h_10 | h_11 | h_12 | h_13 =>
    rcases h with rfl | rfl
    all_goals omega
  all_goals
    subst h
    omega

theorem Evaluates.size_lt {e s : SqlExpr} (h : Evaluates lib f e s) : sizeOf s < sizeOf e := by
  cases h with
  | operand hmem => exact operands_size hmem
  | argument _ hmem =>
    have hlt := List.sizeOf_lt_of_mem hmem
    simp only [SqlExpr.function.sizeOf_spec, Option.some.sizeOf_spec] at hlt ⊢
    omega
  | ifCondition | ifYes | ifNo =>
    simp only [SqlExpr.function.sizeOf_spec, List.cons.sizeOf_spec, Option.some.sizeOf_spec]
    omega
  | @caseCondition _ front _ r back =>
    have hmem : (s, r) ∈ front ++ (s, r) :: back := by simp
    have hlt := List.sizeOf_lt_of_mem hmem
    simp only [SqlExpr.case.sizeOf_spec, Prod.mk.sizeOf_spec] at hlt ⊢
    omega
  | @caseResult _ front c _ back =>
    have hmem : (c, s) ∈ front ++ (c, s) :: back := by simp
    have hlt := List.sizeOf_lt_of_mem hmem
    simp only [SqlExpr.case.sizeOf_spec, Prod.mk.sizeOf_spec] at hlt ⊢
    omega
  | caseElse =>
    simp only [SqlExpr.case.sizeOf_spec, Option.some.sizeOf_spec]
    omega
  | substringLength =>
    simp only [SqlExpr.substring.sizeOf_spec, Option.some.sizeOf_spec]
    omega
  | @inItem _ front _ back =>
    have hmem : s ∈ front ++ s :: back := by simp
    have hlt := List.sizeOf_lt_of_mem hmem
    simp only [SqlExpr.inList.sizeOf_spec]
    omega

/-! ## Refinement -/

/-- Whatever the first evaluation gives, the second gives. -/
def Refines {α : Type} (a b : Eval α) : Prop := ∀ v, a = .ok v → b = .ok v

theorem Refines.refl {α : Type} (a : Eval α) : Refines a a := fun _ h => h

theorem Refines.fail {α : Type} (text : String) (b : Eval α) : Refines (Scalar.fail text) b :=
  fun _ h => nomatch h

theorem Refines.bind {α β : Type} {a b : Eval α} {f g : α → Eval β} (hab : Refines a b)
    (hfg : ∀ v, a = .ok v → Refines (f v) (g v)) : Refines (a >>= f) (b >>= g) := by
  intro v h
  obtain ⟨x, hx, hf⟩ := Except.bind_eq_ok_iff.mp h
  exact Except.bind_eq_ok_iff.mpr ⟨x, hab x hx, hfg x hx v hf⟩

theorem Refines.bind_same {α β : Type} {a b : Eval α} (hab : Refines a b) (f : α → Eval β) :
    Refines (a >>= f) (b >>= f) :=
  hab.bind fun _ _ => .refl _

/-- An expression without the defect in the parts that are evaluated: it is enough to look at
one step of the evaluation. -/
theorem refines_of_not_meets {g : SqlExpr → Eval Value} {defect : SqlExpr → Prop}
    (step : ∀ e, (∀ s, Evaluates lib f e s → Refines (f s) (g s)) → ¬ defect e →
      Refines (f e) (g e)) (e : SqlExpr) (h : ¬ Meets lib f defect e) : Refines (f e) (g e) := by
  refine step e (fun s hs => ?_) fun hdefect => h (.here hdefect)
  exact refines_of_not_meets step s fun hmeets => h (.part hs hmeets)
termination_by sizeOf e
decreasing_by exact hs.size_lt

/-! ## Choices -/

/-- The arguments of a call under an evaluator. -/
def argsWith (f : SqlExpr → Eval Value) (datepart : Bool) :
    List (Option SqlExpr) → List (Option (Eval Value))
  | [] => []
  | none :: rest => none :: argsWith f false rest
  | some e :: rest => some (datepartArg datepart e (f e)) :: argsWith f false rest

/-- The branches of `CASE` under an evaluator. -/
def branchesWith (f : SqlExpr → Eval Value) (conditions : List (SqlExpr × SqlExpr)) :
    List (Eval Value × Eval Value) :=
  conditions.map fun p => (f p.1, f p.2)

section Rows

variable (doc : Object)

theorem rowArgs_eq (datepart : Bool) (args : List (Option SqlExpr)) :
    rowArgs lib doc datepart args = argsWith (evalExpr lib doc) datepart args := by
  induction args generalizing datepart with
  | nil => rfl
  | cons a args ih =>
    cases a with
    | none => exact congrArg (none :: ·) (ih false)
    | some e => exact congrArg (some (datepartArg datepart e (evalExpr lib doc e)) :: ·) (ih false)

theorem rowOption_eq (o : Option SqlExpr) : rowOption lib doc o = o.map (evalExpr lib doc) := by
  cases o with
  | none => rfl
  | some e => rfl

theorem rowBranches_eq (conditions : List (SqlExpr × SqlExpr)) :
    rowBranches lib doc conditions = branchesWith (evalExpr lib doc) conditions := by
  induction conditions with
  | nil => rfl
  | cons p conditions ih =>
    exact congrArg ((evalExpr lib doc p.1, evalExpr lib doc p.2) :: ·) ih

theorem rowItems_eq (list : List SqlExpr) :
    rowItems lib doc list = list.map (evalExpr lib doc) := by
  induction list with
  | nil => rfl
  | cons e list ih => exact congrArg (evalExpr lib doc e :: ·) ih

end Rows

section Choices

variable {g : SqlExpr → Eval Value}

theorem datepartArg_refines {datepart : Bool} {e : SqlExpr} (h : Refines (f e) (g e)) :
    Refines (datepartArg datepart e (f e)) (datepartArg datepart e (g e)) := by
  unfold datepartArg
  split
  · exact .refl _
  · exact h

theorem argValues_refines (name : String) {args : List (Option SqlExpr)}
    (h : ∀ e, some e ∈ args → Refines (f e) (g e)) (datepart : Bool) :
    Refines (argValues name (argsWith f datepart args))
      (argValues name (argsWith g datepart args)) := by
  induction args generalizing datepart with
  | nil => exact .refl _
  | cons a args ih =>
    cases a with
    | none => exact .fail _ _
    | some e =>
      refine (datepartArg_refines (h e List.mem_cons_self)).bind fun v _ => ?_
      exact (ih (fun e he => h e (List.mem_cons_of_mem _ he)) false).bind_same _

theorem argsWith_eq_three {args : List (Option SqlExpr)} {c y n : Eval Value}
    (h : argsWith f false args = [some c, some y, some n]) :
    ∃ ec ey en, args = [some ec, some ey, some en] ∧ c = f ec ∧ y = f ey ∧ n = f en := by
  match args, h with
  | [some ec, some ey, some en], h =>
    cases h
    exact ⟨ec, ey, en, rfl, rfl, rfl, rfl⟩

/-- `IF` evaluates its condition and one of its branches. -/
theorem ifValue_refines {args : List (Option SqlExpr)}
    (h : ∀ c y n, args = [some c, some y, some n] → Refines (f c) (g c) ∧
      (∀ v, f c = .ok v → truthy lib v = true → Refines (f y) (g y)) ∧
      ∀ v, f c = .ok v → truthy lib v = false → Refines (f n) (g n)) :
    Refines (ifValue lib (argsWith f false args)) (ifValue lib (argsWith g false args)) := by
  unfold ifValue
  split
  · exact .fail _ _
  · split
    · rename_i heq
      obtain ⟨c, y, n, rfl, rfl, rfl, rfl⟩ := argsWith_eq_three heq
      obtain ⟨hc, hy, hn⟩ := h c y n rfl
      refine hc.bind fun v hv => ?_
      cases htrue : truthy lib v with
      | true => exact hy v hv htrue
      | false => exact hn v hv htrue
    · exact .fail _ _

/-- The conditions of `CASE` up to the first that is met, and its branch. -/
theorem caseBranches_refines {base : Option Value} {elseResult : Option SqlExpr}
    {conditions : List (SqlExpr × SqlExpr)}
    (hbranch : ∀ front c r back, conditions = front ++ (c, r) :: back → NoHit f base front →
      Refines (f c) (g c) ∧
        ∀ v, f c = .ok v → caseHit base v = .ok true → Refines (f r) (g r))
    (helse : NoHit f base conditions → ∀ e, elseResult = some e → Refines (f e) (g e)) :
    Refines (caseBranches base (elseResult.map f) (branchesWith f conditions))
      (caseBranches base (elseResult.map g) (branchesWith g conditions)) := by
  induction conditions with
  | nil =>
    cases elseResult with
    | none => exact .refl _
    | some e => exact helse nofun e rfl
  | cons p conditions ih =>
    obtain ⟨c, r⟩ := p
    obtain ⟨hc, hr⟩ := hbranch [] c r conditions rfl nofun
    refine hc.bind fun v hv => (Refines.refl _).bind fun hit hhit => ?_
    cases hit with
    | true => exact hr v hv hhit
    | false =>
      have hmore {front : List (SqlExpr × SqlExpr)} (hfront : NoHit f base front) :
          NoHit f base ((c, r) :: front) := by
        intro p hp
        rcases List.mem_cons.mp hp with rfl | hmem
        · exact ⟨v, hv, hhit⟩
        · exact hfront p hmem
      apply ih
      · intro front c' r' back heq hfront
        exact hbranch ((c, r) :: front) c' r' back (by rw [heq]; rfl) (hmore hfront)
      · exact fun hno e he => helse (hmore hno) e he

theorem caseValue_refines {operand elseResult : Option SqlExpr}
    {conditions : List (SqlExpr × SqlExpr)}
    (hoperand : ∀ o, operand = some o → Refines (f o) (g o))
    (hbranch : ∀ base, HasBase f operand base → ∀ front c r back,
      conditions = front ++ (c, r) :: back → NoHit f base front → Refines (f c) (g c) ∧
        ∀ v, f c = .ok v → caseHit base v = .ok true → Refines (f r) (g r))
    (helse : ∀ base, HasBase f operand base → NoHit f base conditions →
      ∀ e, elseResult = some e → Refines (f e) (g e)) :
    Refines (caseValue (operand.map f) (elseResult.map f) (branchesWith f conditions))
      (caseValue (operand.map g) (elseResult.map g) (branchesWith g conditions)) := by
  cases operand with
  | none => exact caseBranches_refines (hbranch none trivial) (helse none trivial)
  | some o =>
    refine (hoperand o rfl).bind fun b hb => ?_
    exact caseBranches_refines (hbranch (some b) hb) (helse (some b) hb)

end Choices

end Docsql.Expr
