import Docsql.Expr.Parts
import Docsql.Expr.Runnable

/-!
# Folded constants

What `eval_const` folds is what `eval_expr` gives on every document, unless the folding negates
the least integer: there the constant stays an integer and the row becomes a float.
-/

namespace Docsql.Expr

open Docsql.Scalar

variable (lib : Library)

/-- A folded constant has the same value on every row. -/
def Agrees (e : SqlExpr) : Prop :=
  ∀ v, evalConst lib e = .ok v → ∀ doc, evalExpr lib doc e = .ok v

/-- The operand of a minus sign is the literal `2 ^ 63` or the least integer. -/
def NegatesLeast (e : SqlExpr) : Prop :=
  match negatedLiteral e with
  | some i => i = Int64.minValue
  | none => evalConst lib e = .ok (.int Int64.minValue)

/-- Folding the expression negates the least integer. -/
inductive Reaches : SqlExpr → Prop
  | negation {e} : NegatesLeast lib e → Reaches (.unaryOp .minus e)
  | unary {op e} : Reaches e → Reaches (.unaryOp op e)
  | left {l op r} : Reaches l → Reaches (.binaryOp l op r)
  | right {l op r} : Reaches r → Reaches (.binaryOp l op r)
  | nested {e} : Reaches e → Reaches (.nested e)
  | needle {e inside} : Reaches e → Reaches (.position e inside)
  | inside {e inside} : Reaches inside → Reaches (.position e inside)
  | floor {e} : Reaches e → Reaches (.floor e)
  | ceil {e} : Reaches e → Reaches (.ceil e)
  | cast {tryCast e dataType} : Reaches e → Reaches (.cast tryCast e dataType)
  | argument {name windowed args e} : lib.upper name ≠ "IF" → some e ∈ args → Reaches e →
      Reaches (.function name windowed args)
  | ifCondition {name windowed c y n} : lib.upper name = "IF" → Reaches c →
      Reaches (.function name windowed [some c, some y, some n])
  | ifYes {name windowed c y n v} : lib.upper name = "IF" → evalConst lib c = .ok v →
      truthy lib v = true → Reaches y → Reaches (.function name windowed [some c, some y, some n])
  | ifNo {name windowed c y n v} : lib.upper name = "IF" → evalConst lib c = .ok v →
      truthy lib v = false → Reaches n → Reaches (.function name windowed [some c, some y, some n])
  | caseOperand {o conditions elseResult} : Reaches o → Reaches (.case (some o) conditions elseResult)
  | caseCondition {operand front c r back elseResult base} : HasBase (evalConst lib) operand base →
      NoHit (evalConst lib) base front → Reaches c → Reaches (.case operand (front ++ (c, r) :: back) elseResult)
  | caseResult {operand front c r back elseResult base v} : HasBase (evalConst lib) operand base →
      NoHit (evalConst lib) base front → evalConst lib c = .ok v → caseHit base v = .ok true → Reaches r →
      Reaches (.case operand (front ++ (c, r) :: back) elseResult)
  | caseElse {operand conditions e base} : HasBase (evalConst lib) operand base → NoHit (evalConst lib) base conditions →
      Reaches e → Reaches (.case operand conditions (some e))

variable {lib}

/-! ## Negation -/

/-- A number read with a minus sign in front is the negated number, or the least integer. -/
theorem parseI64_minus {n : List Char} {i : Int64} (h : Json.parseI64 ('-' :: n) = some i) :
    (∃ j, Json.parseI64 n = some j ∧ i = -j ∧ j ≠ Int64.minValue) ∨
      i = Int64.minValue ∧ Json.parseI64 n = none := by
  unfold Json.parseI64 at h
  simp only [Json.takeSign, if_true] at h
  split_ifs at h with hdigits hrange
  cases h
  have hsign : Json.takeSign n = (false, n) := by
    cases n with
    | nil => rfl
    | cons c cs =>
      have hc : c.isDigit = true := by
        have hall : (c :: cs).all Char.isDigit = true := by
          by_contra hno
          exact hdigits (.inr (Bool.not_eq_true _ ▸ hno))
        exact List.all_eq_true.mp hall c List.mem_cons_self
      have hminus : c ≠ '-' := by
        rintro rfl
        exact absurd hc (by decide)
      have hplus : c ≠ '+' := by
        rintro rfl
        exact absurd hc (by decide)
      unfold Json.takeSign
      split
      · rename_i heq
        exact absurd (List.cons.inj heq).1 hminus
      · rename_i heq
        exact absurd (List.cons.inj heq).1 hplus
      · rfl
  unfold Json.parseI64
  rw [hsign]
  simp only [if_neg hdigits, Bool.false_eq_true, if_false]
  generalize Nat.ofDigitChars 10 n 0 = k at hrange
  by_cases hk : (k : ℤ) < 2 ^ 63
  · rw [if_pos ⟨by omega, hk⟩]
    refine .inl ⟨_, rfl, (Int64.ofInt_neg _).symm ▸ rfl, fun heq => ?_⟩
    have hint := congrArg Int64.toInt heq
    rw [Int64.toInt_ofInt_of_le (by omega) (by omega), Int64.toInt_minValue] at hint
    omega
  · rw [if_neg fun hin => hk hin.2]
    obtain rfl : k = 2 ^ 63 := by omega
    exact .inr ⟨rfl, rfl⟩

theorem numberValue_not_int {n : String} (h : Json.parseI64 n.toList = none) (i : Int64) :
    numberValue lib n ≠ .ok (.int i) := by
  unfold numberValue
  rw [h]
  dsimp only
  split
  · exact nofun
  · split
    · exact nofun
    · exact nofun

section Row

variable {doc : Object}

/-- The part is folded to what the row gives. -/
abbrev Sound (doc : Object) (lib : Library) (e : SqlExpr) : Prop :=
  Refines (evalConst lib e) (evalExpr lib doc e)

theorem constArgs_eq (datepart : Bool) (args : List (Option SqlExpr)) :
    constArgs lib datepart args = argsWith (evalConst lib) datepart args := by
  induction args generalizing datepart with
  | nil => rfl
  | cons a args ih =>
    cases a with
    | none => exact congrArg (none :: ·) (ih false)
    | some e => exact congrArg (some (datepartArg datepart e (evalConst lib e)) :: ·) (ih false)

theorem constOption_eq (o : Option SqlExpr) : constOption lib o = o.map (evalConst lib) := by
  cases o with
  | none => rfl
  | some e => rfl

theorem constBranches_eq (conditions : List (SqlExpr × SqlExpr)) :
    constBranches lib conditions = branchesWith (evalConst lib) conditions := by
  induction conditions with
  | nil => rfl
  | cons p conditions ih => exact congrArg ((evalConst lib p.1, evalConst lib p.2) :: ·) ih

/-! ## Soundness -/

theorem checkedNeg_eq {j : Int64} (h : j ≠ Int64.minValue) : checkedNeg lib j = .int (-j) := by
  refine if_neg fun heq => h ?_
  rw [← Int64.toInt_inj, heq, Int64.toInt_minValue]
  rfl

theorem unaryValue_refines {op : UnaryOperator} {v : Value}
    (h : op = .minus → v ≠ .int Int64.minValue) :
    Refines (unaryValue op wrappingNeg false v) (unaryValue op (checkedNeg lib) true v) := by
  intro w hw
  cases op with
  | minus =>
    cases v with
    | int i =>
      have hi : i ≠ Int64.minValue := fun heq => h rfl (congrArg Value.int heq)
      rw [unaryValue, checkedNeg_eq hi]
      exact hw
    | float f => exact hw
    | decimal d => exact hw
    | _ => cases hw
  | not =>
    cases v with
    | bool b => cases hw
    | null => cases hw
    | _ => cases hw
  | bitwiseNot =>
    cases v with
    | int i => exact hw
    | _ => cases hw
  | other =>
    cases v with
    | _ => cases hw

theorem evalConst_minus_literal {e : SqlExpr} {i : Int64} (h : negatedLiteral e = some i) :
    evalConst lib (.unaryOp .minus e) = .ok (.int i) := by
  unfold evalConst
  rw [h]

theorem evalConst_unary {op : UnaryOperator} {e : SqlExpr}
    (h : op = .minus → negatedLiteral e = none) :
    evalConst lib (.unaryOp op e) =
      evalConst lib e >>= fun v => unaryValue op wrappingNeg false v := by
  conv_lhs => unfold evalConst
  split
  · rename_i heq
    rw [h rfl] at heq
    cases heq
  · rfl

theorem evalExpr_unary {op : UnaryOperator} {e : SqlExpr} :
    evalExpr lib doc (.unaryOp op e) =
      evalExpr lib doc e >>= fun v => unaryValue op (checkedNeg lib) true v := by
  rw [evalExpr]

theorem negatedLiteral_eq_some {e : SqlExpr} {i : Int64} (h : negatedLiteral e = some i) :
    ∃ n, e = .value (.number n) ∧ Json.parseI64 ('-' :: n.toList) = some i := by
  unfold negatedLiteral at h
  split at h
  · exact ⟨_, rfl, h⟩
  · cases h

theorem evalExpr_number (n : String) :
    evalExpr lib doc (.value (.number n)) = numberValue lib n := by
  rw [evalExpr, sqlValue]

theorem unary_sound {op : UnaryOperator} {e : SqlExpr} (h : Sound doc lib e)
    (hleast : ¬ (op = .minus ∧ NegatesLeast lib e)) : Sound doc lib (.unaryOp op e) := by
  by_cases hop : op = .minus
  · subst hop
    cases hlit : negatedLiteral e with
    | some i =>
      obtain ⟨n, rfl, hparse⟩ := negatedLiteral_eq_some hlit
      have hi : i ≠ Int64.minValue := by
        intro heq
        refine hleast ⟨rfl, ?_⟩
        rw [NegatesLeast, hlit]
        exact heq
      intro v hv
      rw [evalConst_minus_literal hlit] at hv
      cases hv
      rcases parseI64_minus hparse with ⟨j, hj, rfl, hleast'⟩ | ⟨heq, -⟩
      · rw [evalExpr_unary, evalExpr_number, numberValue, hj]
        exact congrArg Except.ok (checkedNeg_eq hleast')
      · exact absurd heq hi
    | none =>
      have hv : evalConst lib e ≠ .ok (.int Int64.minValue) := by
        intro heq
        refine hleast ⟨rfl, ?_⟩
        rw [NegatesLeast, hlit]
        exact heq
      unfold Sound
      rw [evalConst_unary fun _ => hlit, evalExpr_unary]
      refine h.bind fun v heq => unaryValue_refines fun _ hmin => ?_
      rw [hmin] at heq
      exact hv heq
  · unfold Sound
    rw [evalConst_unary fun heq => absurd heq hop, evalExpr_unary]
    exact h.bind fun v _ => unaryValue_refines fun heq => absurd heq hop

theorem scalarFn?_aggregate {name : String} (h : isAggregate name = true) :
    scalarFn? name = none := by
  have hmem := of_decide_eq_true h
  fin_cases hmem <;> rfl

theorem function_sound {name : String} {windowed : Bool} {args : List (Option SqlExpr)}
    (hif : lib.upper name = "IF" → ∀ c y n, args = [some c, some y, some n] → Sound doc lib c ∧
      (∀ v, evalConst lib c = .ok v → truthy lib v = true → Sound doc lib y) ∧
      ∀ v, evalConst lib c = .ok v → truthy lib v = false → Sound doc lib n)
    (hargs : lib.upper name ≠ "IF" → ∀ e, some e ∈ args → Sound doc lib e) :
    Sound doc lib (.function name windowed args) := by
  unfold Sound
  rw [evalConst, evalExpr]
  dsimp only
  by_cases hwin : windowed = true
  · rw [if_pos hwin]
    exact .fail _ _
  rw [if_neg hwin, if_neg hwin]
  by_cases hname : lib.upper name = "IF"
  · have hagg : ¬ isAggregate (lib.upper name) = true := by
      rw [hname]
      decide
    rw [if_pos hname, if_neg hagg, if_pos hname, hname, constArgs_eq, rowArgs_eq]
    exact ifValue_refines (hif hname)
  · rw [if_neg hname]
    by_cases hagg : isAggregate (lib.upper name) = true
    · intro v hv
      obtain ⟨values, -, hcall⟩ := Except.bind_eq_ok_iff.mp hv
      refine absurd hcall ?_
      have hnone : scalarFn? (lib.upper name) = none := scalarFn?_aggregate hagg
      rw [callFunction, hnone]
      exact lib.otherFunction_aggregate _ _ v hagg
    · rw [if_neg hagg, if_neg hname, constArgs_eq, rowArgs_eq]
      exact (argValues_refines _ (hargs hname) _).bind_same _

mutual

/-- By cases on the expression: the parts that folding evaluates are folded soundly. -/
theorem sound_of_not_reaches : ∀ e : SqlExpr, ¬ Reaches lib e → Sound doc lib e
  | .value v, _ => by
    unfold Sound
    rw [evalConst, evalExpr]
    exact .refl _
  | .typedString ts, _ => by
    unfold Sound
    rw [evalConst, evalExpr]
    exact .refl _
  | .unaryOp op e, h => by
    refine unary_sound (sound_of_not_reaches e fun hr => h (.unary hr)) ?_
    rintro ⟨rfl, hleast⟩
    exact h (.negation hleast)
  | .binaryOp l op r, h => by
    unfold Sound
    rw [evalConst, evalExpr]
    refine (sound_of_not_reaches l fun hr => h (.left hr)).bind fun v _ => ?_
    exact (sound_of_not_reaches r fun hr => h (.right hr)).bind_same _
  | .nested e, h => by
    unfold Sound
    rw [evalConst, evalExpr]
    exact sound_of_not_reaches e fun hr => h (.nested hr)
  | .position e inside, h => by
    unfold Sound
    rw [evalConst, evalExpr]
    refine (sound_of_not_reaches e fun hr => h (.needle hr)).bind fun v _ => ?_
    exact (sound_of_not_reaches inside fun hr => h (.inside hr)).bind_same _
  | .floor e, h => by
    unfold Sound
    rw [evalConst, evalExpr]
    exact (sound_of_not_reaches e fun hr => h (.floor hr)).bind_same _
  | .ceil e, h => by
    unfold Sound
    rw [evalConst, evalExpr]
    exact (sound_of_not_reaches e fun hr => h (.ceil hr)).bind_same _
  | .cast tryCast e dataType, h => by
    unfold Sound
    rw [evalConst, evalExpr]
    exact (sound_of_not_reaches e fun hr => h (.cast hr)).bind_same _
  | .function name windowed args, h => by
    have hpart := args_sound args
    refine function_sound (fun hname c y n heq => ?_) fun hname e he => ?_
    · subst heq
      refine ⟨hpart c (by simp) fun hr => h (.ifCondition hname hr), ?_, ?_⟩
      · exact fun v hv htrue => hpart y (by simp) fun hr => h (.ifYes hname hv htrue hr)
      · exact fun v hv hfalse => hpart n (by simp) fun hr => h (.ifNo hname hv hfalse hr)
    · exact hpart e he fun hr => h (.argument hname he hr)
  | .case operand conditions elseResult, h => by
    have hpart := branches_sound conditions
    unfold Sound
    rw [evalConst, evalExpr, constOption_eq, constOption_eq, constBranches_eq, rowOption_eq,
      rowOption_eq, rowBranches_eq]
    refine caseValue_refines ?_ ?_ ?_
    · rintro o rfl
      exact option_sound (some o) o rfl fun hr => h (.caseOperand hr)
    · rintro base hbase front c r back rfl hno
      obtain ⟨hc, hr⟩ := hpart (c, r) (by simp)
      exact ⟨hc fun hreach => h (.caseCondition hbase hno hreach), fun v hv hhit =>
        hr fun hreach => h (.caseResult hbase hno hv hhit hreach)⟩
    · rintro base hbase hno e rfl
      exact option_sound (some e) e rfl fun hr => h (.caseElse hbase hno hr)
  | .identifier i, _ => by
    unfold Sound
    rw [evalConst]
    exact .fail _ _
  | .compoundIdentifier _, _ | .isNull _, _ | .isNotNull _, _ | .isDistinctFrom _ _, _
  | .isNotDistinctFrom _ _, _ | .between _ _ _ _, _ | .like _ _ _ _ _, _ | .substring _ _ _, _
  | .trim _ _ _, _ | .inList _ _ _, _ | .subquery, _ | .anyAll, _ | .other _, _ => by
    unfold Sound evalConst
    exact .fail _ _

theorem args_sound : ∀ args : List (Option SqlExpr), ∀ e, some e ∈ args → ¬ Reaches lib e →
    Sound doc lib e
  | [], _, hmem, _ => nomatch hmem
  | a :: args, e, hmem, h => by
    rcases List.mem_cons.mp hmem with heq | hmem
    · exact option_sound a e heq.symm h
    · exact args_sound args e hmem h

theorem option_sound : ∀ o : Option SqlExpr, ∀ e, o = some e → ¬ Reaches lib e → Sound doc lib e
  | none, _, heq, _ => nomatch heq
  | some x, e, heq, h => by
    cases heq
    exact sound_of_not_reaches x h

theorem branches_sound : ∀ conditions : List (SqlExpr × SqlExpr), ∀ p ∈ conditions,
    (¬ Reaches lib p.1 → Sound doc lib p.1) ∧ (¬ Reaches lib p.2 → Sound doc lib p.2)
  | [], _, hmem => nomatch hmem
  | (c, r) :: conditions, p, hmem => by
    rcases List.mem_cons.mp hmem with rfl | hmem
    · exact ⟨sound_of_not_reaches c, sound_of_not_reaches r⟩
    · exact branches_sound conditions p hmem

end

end Row

/-! ## Folding and rows -/

/-- An expression whose folding does not negate the least integer has its folded value on every
document; a negation of the least integer is folded to what no document gives. -/
theorem folding_agrees (lib : Library) (e : SqlExpr) :
    (¬ Reaches lib e → Agrees lib e) ∧
      (NegatesLeast lib e → Agrees lib e → ¬ Agrees lib (.unaryOp .minus e)) := by
  constructor
  · exact fun h v hv doc => sound_of_not_reaches e h v hv
  · intro hleast hagrees hminus
    unfold NegatesLeast at hleast
    split at hleast
    · rename_i i hlit
      subst hleast
      obtain ⟨n, rfl, hparse⟩ := negatedLiteral_eq_some hlit
      have hrow := hminus _ (evalConst_minus_literal hlit) []
      rw [evalExpr_unary, evalExpr_number] at hrow
      rcases parseI64_minus hparse with ⟨j, -, heq, hj⟩ | ⟨-, hnone⟩
      · refine hj ?_
        rw [← Int64.neg_neg (a := j), ← heq]
        rfl
      · obtain ⟨v, hv, hneg⟩ := Except.bind_eq_ok_iff.mp hrow
        cases v with
        | int i => exact numberValue_not_int hnone i hv
        | _ => cases hneg
    · rename_i hlit
      have hconst : evalConst lib (.unaryOp .minus e) = .ok (.int (-Int64.minValue)) := by
        rw [evalConst_unary fun _ => hlit, hleast]
        rfl
      have hrow := hminus _ hconst []
      rw [evalExpr_unary, hagrees _ hleast []] at hrow
      have hneg : checkedNeg lib Int64.minValue = .int (-Int64.minValue) := Except.ok.inj hrow
      rw [checkedNeg, if_pos (show Int64.minValue.toInt = i64Min from rfl)] at hneg
      cases hneg

/-- `-7`: the minus sign is folded, and nothing is at the edge. -/
theorem folding_agrees_seven :
    Agrees sampleLibrary.engine (.unaryOp .minus (.value (.number "7"))) := by
  refine (folding_agrees sampleLibrary.engine _).1 fun h => ?_
  cases h with
  | negation hleast =>
    have hlit : negatedLiteral (.value (.number "7")) = some (-7) := rfl
    rw [NegatesLeast, hlit] at hleast
    exact absurd hleast (by decide)
  | unary h => cases h

/-- `-9223372036854775808` is an integer as a constant and a float on a row. -/
theorem least_integer_folded :
    evalConst sampleLibrary.engine (.unaryOp .minus (.value (.number "9223372036854775808"))) =
        .ok (.int Int64.minValue) ∧
      evalExpr sampleLibrary.engine []
          (.unaryOp .minus (.value (.number "9223372036854775808"))) =
        .ok (.float (.ofFields true 1086 0)) := by
  have hlit : negatedLiteral (.value (.number "9223372036854775808")) = some Int64.minValue := rfl
  refine ⟨evalConst_minus_literal hlit, ?_⟩
  have hwhole : wholeFloat (2 ^ 63) = .ofFields false 1086 0 := by
    rw [wholeFloat]
    decide +kernel
  have hparse : sampleLibrary.parseF64 "9223372036854775808".toList =
      some (.ofFields false 1086 0) := by
    rw [← hwhole]
    rfl
  have hnone : Json.parseI64 "9223372036854775808".toList = none := by decide
  have hnumber : numberValue sampleLibrary.engine "9223372036854775808" =
      .ok (.float (.ofFields false 1086 0)) := by
    rw [numberValue, hnone]
    dsimp only
    rw [hparse]
    rfl
  rw [evalExpr_unary, evalExpr_number, hnumber]
  rfl

end Docsql.Expr
