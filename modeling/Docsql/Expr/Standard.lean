import Docsql.Expr.Parts

/-!
# Three-valued logic

The standard value of an expression, where a comparison, `BETWEEN`, `LIKE` or `IN` with a NULL
operand that matters is unknown, and when `eval_expr` gives it: the engine compares NULL like any
other value and reads an unknown `BETWEEN` or `LIKE` as false.
-/

namespace Docsql.Expr

open Docsql.Scalar

variable (lib : Library)

/-! ## Standard predicates -/

/-- The standard reading of a comparison. -/
def stdCompare (test : Ordering → Bool) (l r : Value) : Eval Value :=
  if isNull l ∨ isNull r then .ok .null else compareValues test l r

def stdBinop (l : Value) (op : BinaryOperator) (r : Value) : Eval Value :=
  match op with
  | .eq => stdCompare (· == .eq) l r
  | .notEq => stdCompare (· != .eq) l r
  | .lt => stdCompare (· == .lt) l r
  | .ltEq => stdCompare (· != .gt) l r
  | .gt => stdCompare (· == .gt) l r
  | .gtEq => stdCompare (· != .lt) l r
  | op => binop lib l op r

/-- The negation of a truth value. -/
def notValue : Value → Value
  | .bool b => .bool !b
  | v => v

/-- `low <= v AND v <= high` -/
def stdBetween (negated : Bool) (v low high : Value) : Eval Value := do
  let lower ← stdCompare (· != .lt) v low
  let inside ← andValue lower (← stdCompare (· != .gt) v high)
  return if negated then notValue inside else inside

def stdLike (insensitive negated : Bool) (escape : Option Literal) (v p : Value) : Value :=
  if isNull v ∨ isNull p then .null else likeValue lib insensitive negated escape v p

/-- `v = x₁ OR v = x₂ OR …`, up to the first that is true. -/
def stdInList (negated : Bool) (v : Value) : Bool → List (Eval Value) → Eval Value
  | unknown, [] => .ok (if unknown then .null else .bool negated)
  | unknown, item :: rest => do
    match ← stdCompare (· == .eq) v (← item) with
    | .bool true => return .bool !negated
    | .bool false => stdInList negated v unknown rest
    | _ => stdInList negated v true rest

/-! ## Standard values -/

variable (doc : Object)

mutual

/-- The value of an expression in three-valued logic. -/
def stdExpr : SqlExpr → Eval Value
  | .unaryOp op e => do unaryValue op (checkedNeg lib) true (← stdExpr e)
  | .binaryOp l op r => do
    let left ← stdExpr l
    stdBinop lib left op (← stdExpr r)
  | .nested e => stdExpr e
  | .position e inside => do
    let needle ← stdExpr e
    positionOf lib needle (← stdExpr inside)
  | .isNull e => do return .bool (isNull (← stdExpr e))
  | .isNotNull e => do return .bool !isNull (← stdExpr e)
  | .isDistinctFrom l r => do
    let left ← stdExpr l
    return .bool !(← valuesEqualNullSafe left (← stdExpr r))
  | .isNotDistinctFrom l r => do
    let left ← stdExpr l
    return .bool (← valuesEqualNullSafe left (← stdExpr r))
  | .between e negated low high => do
    let v ← stdExpr e
    let lo ← stdExpr low
    stdBetween negated v lo (← stdExpr high)
  | .like insensitive negated e pattern escape => do
    let v ← stdExpr e
    return stdLike lib insensitive negated escape v (← stdExpr pattern)
  | .case operand conditions elseResult =>
    caseValue (stdOption operand) (stdOption elseResult) (stdBranches conditions)
  | .cast tryCast e dataType => do castResult lib dataType tryCast (← stdExpr e)
  | .substring e start length => do
    substringValue lib (← stdExpr e) (stdOption start) (stdOption length)
  | .trim place e what => do trimValue lib place (← stdExpr e) (stdOption what)
  | .floor e => do callFunction lib "FLOOR" [← stdExpr e]
  | .ceil e => do callFunction lib "CEILING" [← stdExpr e]
  | .function name windowed args =>
    let called := lib.upper name
    if windowed then fail s!"window functions (OVER) are not supported: {called}"
    else if isAggregate called then
      fail s!"aggregate function {called} is not allowed in this context"
    else
      let results := stdArgs (takesDatepartName called) args
      if called = "IF" then ifValue lib results
      else do callFunction lib called (← argValues called results)
  | .inList e list negated => do stdInList negated (← stdExpr e) false (stdItems list)
  | e => evalExpr lib doc e

def stdArgs (datepart : Bool) : List (Option SqlExpr) → List (Option (Eval Value))
  | [] => []
  | none :: rest => none :: stdArgs false rest
  | some e :: rest => some (datepartArg datepart e (stdExpr e)) :: stdArgs false rest

def stdOption : Option SqlExpr → Option (Eval Value)
  | none => none
  | some e => some (stdExpr e)

def stdBranches : List (SqlExpr × SqlExpr) → List (Eval Value × Eval Value)
  | [] => []
  | (condition, result) :: rest => (stdExpr condition, stdExpr result) :: stdBranches rest

def stdItems : List SqlExpr → List (Eval Value)
  | [] => []
  | e :: rest => stdExpr e :: stdItems rest

end

variable {lib doc}

theorem stdArgs_eq (datepart : Bool) (args : List (Option SqlExpr)) :
    stdArgs lib doc datepart args = argsWith (stdExpr lib doc) datepart args := by
  induction args generalizing datepart with
  | nil => rfl
  | cons a args ih =>
    cases a with
    | none => exact congrArg (none :: ·) (ih false)
    | some e => exact congrArg (some (datepartArg datepart e (stdExpr lib doc e)) :: ·) (ih false)

theorem stdOption_eq (o : Option SqlExpr) : stdOption lib doc o = o.map (stdExpr lib doc) := by
  cases o with
  | none => rfl
  | some e => rfl

theorem stdBranches_eq (conditions : List (SqlExpr × SqlExpr)) :
    stdBranches lib doc conditions = branchesWith (stdExpr lib doc) conditions := by
  induction conditions with
  | nil => rfl
  | cons p conditions ih =>
    exact congrArg ((stdExpr lib doc p.1, stdExpr lib doc p.2) :: ·) ih

theorem stdItems_eq (list : List SqlExpr) :
    stdItems lib doc list = list.map (stdExpr lib doc) := by
  induction list with
  | nil => rfl
  | cons e list ih => exact congrArg (stdExpr lib doc e :: ·) ih

/-! ## Misread predicates -/

variable (lib doc)

/-- A predicate that the engine does not read by the standard on the values of its operands. -/
def Misread : SqlExpr → Prop
  | .binaryOp l op r => ∃ v w, evalExpr lib doc l = .ok v ∧ evalExpr lib doc r = .ok w ∧
      binop lib v op w ≠ stdBinop lib v op w
  | .between e negated low high => ∃ v lo hi, evalExpr lib doc e = .ok v ∧
      evalExpr lib doc low = .ok lo ∧ evalExpr lib doc high = .ok hi ∧
      betweenValue negated v lo hi ≠ stdBetween negated v lo hi
  | .like insensitive negated e pattern escape => ∃ v p, evalExpr lib doc e = .ok v ∧
      evalExpr lib doc pattern = .ok p ∧
      likeValue lib insensitive negated escape v p ≠ stdLike lib insensitive negated escape v p
  | .inList e list negated => ∃ v, evalExpr lib doc e = .ok v ∧
      inListLoop negated v false (rowItems lib doc list) ≠
        stdInList negated v false (rowItems lib doc list)
  | _ => False

/-- Evaluating the expression comes to a misread predicate. -/
abbrev Misreads : SqlExpr → Prop := Meets lib (evalExpr lib doc) (Misread lib doc)

variable {lib doc}

section Steps

variable {f g : SqlExpr → Eval Value}

/-- A comparison for equality that is not true. -/
theorem cmpCoerced_of_stdCompare {v w c : Value} (h : stdCompare (· == .eq) v w = .ok c)
    (hc : c ≠ .bool true) :
    ∃ o, isNull v = true ∨ isNull w = true ∨ cmpCoerced v w = .ok o ∧ o ≠ some .eq := by
  unfold stdCompare at h
  split_ifs at h with hnull
  · rcases hnull with hv | hw
    · exact ⟨none, .inl hv⟩
    · exact ⟨none, .inr (.inl hw)⟩
  · obtain ⟨p, hp, h⟩ := Except.bind_eq_ok_iff.mp h
    refine ⟨p.map fun p => cmpValues p.1 p.2, .inr (.inr ⟨?_, ?_⟩)⟩
    · rw [cmpCoerced, hp]
      rfl
    · cases p with
      | none => exact nofun
      | some p =>
        intro heq
        cases h
        rw [Option.map_some, Option.some.injEq] at heq
        exact hc (by rw [heq]; rfl)

theorem stdInList_refines {negated : Bool} {v : Value} {list : List SqlExpr}
    (h : ∀ front s back, list = front ++ s :: back → NoMatch f v front → Refines (f s) (g s))
    (unknown : Bool) :
    Refines (stdInList negated v unknown (list.map f))
      (stdInList negated v unknown (list.map g)) := by
  induction list generalizing unknown with
  | nil => exact .refl _
  | cons x list ih =>
    refine (h [] x list rfl nofun).bind fun w hw => (Refines.refl _).bind fun c hc => ?_
    have hrest (hne : c ≠ .bool true) (unknown : Bool) :
        Refines (stdInList negated v unknown (list.map f))
          (stdInList negated v unknown (list.map g)) := by
      obtain ⟨o, hno⟩ := cmpCoerced_of_stdCompare hc hne
      apply ih
      intro front s back heq hfront
      refine h (x :: front) s back (by rw [heq]; rfl) fun y hy => ?_
      rcases List.mem_cons.mp hy with rfl | hmem
      · exact ⟨w, o, hw, hno⟩
      · exact hfront y hmem
    split
    · exact .refl _
    · exact hrest nofun unknown
    · rename_i hne _
      exact hrest hne true

theorem substringArg_refines {what : String} {default : ℤ} {o : Option SqlExpr}
    (h : ∀ e, o = some e → Refines (f e) (g e)) :
    Refines (substringArg lib what default (o.map f)) (substringArg lib what default (o.map g)) := by
  cases o with
  | none => exact .refl _
  | some e => exact (h e rfl).bind_same _

theorem substringValue_refines {base : Value} {start length : Option SqlExpr}
    (hstart : ∀ e, start = some e → Refines (f e) (g e))
    (hlength : ∀ y, substringArg lib "start" 1 (start.map f) = .ok (some y) →
      ∀ e, length = some e → Refines (f e) (g e)) :
    Refines (substringValue lib base (start.map f) (length.map f))
      (substringValue lib base (start.map g) (length.map g)) := by
  refine (substringArg_refines hstart).bind fun y hy => ?_
  cases y with
  | none => exact .refl _
  | some y => exact (substringArg_refines (hlength y hy)).bind_same _

theorem trimValue_refines {place : Option TrimWhere} {base : Value} {what : Option SqlExpr}
    (h : ∀ e, what = some e → Refines (f e) (g e)) :
    Refines (trimValue lib place base (what.map f)) (trimValue lib place base (what.map g)) := by
  cases what with
  | none => exact .refl _
  | some e => exact (h e rfl).bind_same _

/-- Where a value of the engine is the standard's, it is enough to refine the standard. -/
theorem Refines.of_eq {a b c : Eval Value} (h : a = b) (hbc : Refines b c) : Refines a c :=
  h ▸ hbc

end Steps

/-! ## The engine by the standard -/

/-- Where no predicate is misread, the engine's value is the standard one. -/
theorem evalExpr_refines (e : SqlExpr) (h : ¬ Misreads lib doc e) :
    Refines (evalExpr lib doc e) (stdExpr lib doc e) := by
  refine refines_of_not_meets (fun e hpart hread => ?_) e h
  have hin {s : SqlExpr} (hs : s ∈ operands e) : Refines (evalExpr lib doc s) (stdExpr lib doc s) :=
    hpart s (.operand hs)
  cases e with
  | value | identifier | compoundIdentifier | typedString | subquery | anyAll | other =>
    unfold stdExpr
    exact .refl _
  | unaryOp op e =>
    rw [evalExpr, stdExpr]
    exact (hin (.head _)).bind_same _
  | nested e =>
    rw [evalExpr, stdExpr]
    exact hin (.head _)
  | floor e | ceil e | isNull e | isNotNull e | cast _ e _ =>
    rw [evalExpr, stdExpr]
    exact (hin (.head _)).bind_same _
  | position l r | isDistinctFrom l r | isNotDistinctFrom l r =>
    rw [evalExpr, stdExpr]
    refine (hin (.head _)).bind fun v _ => ?_
    exact (hin (.tail _ (.head _))).bind_same _
  | binaryOp l op r =>
    rw [evalExpr, stdExpr]
    refine (hin (.head _)).bind fun v hv => (hin (.tail _ (.head _))).bind fun w hw => ?_
    exact .of_eq (not_not.mp fun hne => hread ⟨v, w, hv, hw, hne⟩) (.refl _)
  | between e negated low high =>
    rw [evalExpr, stdExpr]
    refine (hin (.head _)).bind fun v hv => (hin (.tail _ (.head _))).bind fun lo hlo => ?_
    refine (hin (.tail _ (.tail _ (.head _)))).bind fun hi hhi => ?_
    exact .of_eq (not_not.mp fun hne => hread ⟨v, lo, hi, hv, hlo, hhi, hne⟩) (.refl _)
  | like insensitive negated e pattern escape =>
    rw [evalExpr, stdExpr]
    refine (hin (.head _)).bind fun v hv => (hin (.tail _ (.head _))).bind fun p hp => ?_
    exact .of_eq (congrArg _ (not_not.mp fun hne => hread ⟨v, p, hv, hp, hne⟩)) (.refl _)
  | case operand conditions elseResult =>
    rw [evalExpr, stdExpr, rowOption_eq, rowOption_eq, rowBranches_eq, stdOption_eq, stdOption_eq,
      stdBranches_eq]
    refine caseValue_refines ?_ ?_ ?_
    · rintro o rfl
      exact hin (.head _)
    · rintro base hbase front c r back rfl hno
      exact ⟨hpart c (.caseCondition hbase hno),
        fun v hv hhit => hpart r (.caseResult hbase hno hv hhit)⟩
    · rintro base hbase hno e rfl
      exact hpart e (.caseElse hbase hno)
  | substring e start length =>
    rw [evalExpr, stdExpr, rowOption_eq, rowOption_eq, stdOption_eq, stdOption_eq]
    refine (hin (.head _)).bind fun v _ => substringValue_refines ?_ ?_
    · rintro s rfl
      exact hin (.tail _ (.head _))
    · rintro y hy s rfl
      exact hpart s (.substringLength hy)
  | trim place e what =>
    rw [evalExpr, stdExpr, rowOption_eq, stdOption_eq]
    refine (hin (.head _)).bind fun v _ => trimValue_refines ?_
    rintro s rfl
    exact hin (.tail _ (.head _))
  | function name windowed args =>
    rw [evalExpr, stdExpr]
    dsimp only
    by_cases hwin : windowed = true
    · rw [if_pos hwin]
      exact .fail _ _
    by_cases hagg : isAggregate (lib.upper name) = true
    · rw [if_neg hwin, if_pos hagg]
      exact .fail _ _
    rw [if_neg hwin, if_neg hwin, if_neg hagg, if_neg hagg, rowArgs_eq, stdArgs_eq]
    by_cases hname : lib.upper name = "IF"
    · rw [if_pos hname, if_pos hname, hname]
      apply ifValue_refines
      rintro c y n rfl
      exact ⟨hpart c (.ifCondition hname), fun v hv htrue => hpart y (.ifYes hname hv htrue),
        fun v hv hfalse => hpart n (.ifNo hname hv hfalse)⟩
    · rw [if_neg hname, if_neg hname]
      exact (argValues_refines _ (fun e he => hpart e (.argument hname he)) _).bind_same _
  | inList e list negated =>
    rw [evalExpr, stdExpr, stdItems_eq]
    refine (hin (.head _)).bind fun v hv => ?_
    refine .of_eq (not_not.mp fun hne => hread ⟨v, hv, hne⟩) ?_
    rw [rowItems_eq]
    apply stdInList_refines
    rintro front s back rfl hno
    exact hpart s (.inItem hv hno)

end Docsql.Expr
