import Docsql.Expr.Runnable
import Docsql.Expr.Standard

/-!
# CHECK constraints

The three-valued outcome of a CHECK: comparisons and boolean operators propagate unknown, all
other predicates are unknown if the walker sees a NULL reference and two-valued otherwise.
-/

namespace Docsql.Expr

open Docsql.Scalar

/-! ## Outcomes -/

inductive CheckOutcome where
  | pass
  | fail
  | unknown
deriving DecidableEq

namespace CheckOutcome

def not : CheckOutcome → CheckOutcome
  | pass => fail
  | fail => pass
  | unknown => unknown

def and : CheckOutcome → CheckOutcome → CheckOutcome
  | fail, _ | _, fail => fail
  | pass, pass => pass
  | _, _ => unknown

def or : CheckOutcome → CheckOutcome → CheckOutcome
  | pass, _ | _, pass => pass
  | fail, fail => fail
  | _, _ => unknown

/-- The outcome of a comparison. -/
def ofValue : Value → CheckOutcome
  | .bool false => fail
  | .null => unknown
  | _ => pass

/-- The outcome of a predicate that is read as two-valued. -/
def ofBoolish : Value → CheckOutcome
  | .bool false => fail
  | _ => pass

variable {a b : CheckOutcome}

theorem not_eq_fail : a.not = fail ↔ a = pass := by
  cases a <;> decide

theorem not_eq_pass : a.not = pass ↔ a = fail := by
  cases a <;> decide

theorem and_eq_fail : a.and b = fail ↔ a = fail ∨ b = fail := by
  cases a <;> cases b <;> decide

theorem and_eq_pass : a.and b = pass ↔ a = pass ∧ b = pass := by
  cases a <;> cases b <;> decide

theorem or_eq_fail : a.or b = fail ↔ a = fail ∧ b = fail := by
  cases a <;> cases b <;> decide

theorem or_eq_pass : a.or b = pass ↔ a = pass ∨ b = pass := by
  cases a <;> cases b <;> decide

theorem ofValue_eq_fail {v : Value} : ofValue v = fail ↔ v = .bool false := by
  cases v with
  | bool b => cases b <;> simp [ofValue]
  | _ => simp [ofValue]

theorem ofBoolish_eq_fail {v : Value} : ofBoolish v = fail ↔ v = .bool false := by
  cases v with
  | bool b => cases b <;> simp [ofBoolish]
  | _ => simp [ofBoolish]

/-- Only for NULL do the two readings of a value differ. -/
theorem ofBoolish_eq_ofValue {v : Value} (h : v ≠ .null) : ofBoolish v = ofValue v := by
  cases v with
  | bool b => cases b <;> rfl
  | null => exact absurd rfl h
  | _ => rfl

end CheckOutcome

/-- A truth value or unknown. -/
def Boolish (v : Value) : Prop := v = .null ∨ ∃ b, v = .bool b

/-! ## NULL references -/

variable (doc : Object)

/-- The field is NULL or missing. -/
def nullField (name : String) : Bool := ((doc.lookup name).map isNull).getD true

def nullCompound (parts : List Ident) : Bool :=
  ((doc.lookup (fullName parts)).map isNull).getD false ||
    nullField doc ((parts.getLast?.map Ident.value).getD "")

mutual

/-- `LIKE`, `IS NULL`, `POSITION`, `SUBSTRING`, `TRIM`, `FLOOR` and `CEIL` are not looked into. -/
def exprHasNullRef : SqlExpr → Bool
  | .identifier i => nullField doc i.value
  | .compoundIdentifier parts => nullCompound doc parts
  | .binaryOp l _ r => exprHasNullRef l || exprHasNullRef r
  | .unaryOp _ e => exprHasNullRef e
  | .nested e => exprHasNullRef e
  | .between e _ low high => exprHasNullRef e || exprHasNullRef low || exprHasNullRef high
  | .inList e list _ => exprHasNullRef e || listHasNullRef list
  | .cast _ e _ => exprHasNullRef e
  | .case operand conditions elseResult =>
    optionHasNullRef operand || branchesHaveNullRef conditions || optionHasNullRef elseResult
  | .function _ _ args => argsHaveNullRef args
  | _ => false

def listHasNullRef : List SqlExpr → Bool
  | [] => false
  | e :: rest => exprHasNullRef e || listHasNullRef rest

def optionHasNullRef : Option SqlExpr → Bool
  | none => false
  | some e => exprHasNullRef e

def branchesHaveNullRef : List (SqlExpr × SqlExpr) → Bool
  | [] => false
  | (c, r) :: rest => exprHasNullRef c || exprHasNullRef r || branchesHaveNullRef rest

def argsHaveNullRef : List (Option SqlExpr) → Bool
  | [] => false
  | a :: rest => optionHasNullRef a || argsHaveNullRef rest

end

/-! ## The outcome of a CHECK -/

variable (lib : Library)

/-- A NULL reference makes the predicate unknown, else the engine's value decides. -/
def evalBoolish (e : SqlExpr) : Eval CheckOutcome :=
  if exprHasNullRef doc e then .ok .unknown
  else do return .ofBoolish (← evalExpr lib doc e)

def compareOutcome (l : SqlExpr) (op : BinaryOperator) (r : SqlExpr) : Eval CheckOutcome := do
  let v ← evalExpr lib doc l
  let w ← evalExpr lib doc r
  if isNull v ∨ isNull w then return .unknown
  else return .ofValue (← binop lib v op w)

def checkExprOutcome : SqlExpr → Eval CheckOutcome
  | .nested e => checkExprOutcome e
  | .unaryOp op e =>
    match op with
    | .not => do return (← checkExprOutcome e).not
    | _ => evalBoolish doc lib (.unaryOp op e)
  | .binaryOp l op r =>
    match op with
    | .and => do
      let left ← checkExprOutcome l
      return left.and (← checkExprOutcome r)
    | .or => do
      let left ← checkExprOutcome l
      return left.or (← checkExprOutcome r)
    | _ => compareOutcome doc lib l op r
  | .isNull e => do return .ofBoolish (← evalExpr lib doc (.isNull e))
  | .isNotNull e => do return .ofBoolish (← evalExpr lib doc (.isNotNull e))
  | .isDistinctFrom l r => do return .ofBoolish (← evalExpr lib doc (.isDistinctFrom l r))
  | .isNotDistinctFrom l r => do return .ofBoolish (← evalExpr lib doc (.isNotDistinctFrom l r))
  | e => evalBoolish doc lib e

/-! ## Where the outcome strays -/

/-- A predicate that the walker decides about: a NULL reference that does not matter, a misread
predicate, or below a `NOT` a NULL value. -/
def StraysBoolish (positive : Bool) (e : SqlExpr) : Prop :=
  if exprHasNullRef doc e then stdExpr lib doc e = .ok (.bool !positive)
  else Misreads lib doc e ∨ positive = false ∧ evalExpr lib doc e = .ok .null

/-- The CHECK comes to a predicate whose outcome is not the standard one; `positive` below an
even number of `NOT`s. -/
def Strays (positive : Bool) : SqlExpr → Prop
  | .nested e => Strays positive e
  | .unaryOp op e =>
    match op with
    | .not => Strays (!positive) e
    | _ => StraysBoolish doc lib positive (.unaryOp op e)
  | .binaryOp l op r =>
    match op with
    | .and | .or => Strays positive l ∨ Strays positive r
    | _ => Misreads lib doc l ∨ Misreads lib doc r
  | .isNull e => Misreads lib doc e
  | .isNotNull e => Misreads lib doc e
  | .isDistinctFrom l r => Misreads lib doc l ∨ Misreads lib doc r
  | .isNotDistinctFrom l r => Misreads lib doc l ∨ Misreads lib doc r
  | e => StraysBoolish doc lib positive e

/-! ## Connectives -/

open CheckOutcome

variable {doc lib}

theorem notValue_boolish {negInt : Int64 → Value} {v x : Value}
    (h : unaryValue .not negInt true v = .ok x) :
    Boolish v ∧ Boolish x ∧ ofValue x = (ofValue v).not := by
  cases v with
  | bool b =>
    cases h
    refine ⟨.inr ⟨b, rfl⟩, .inr ⟨!b, rfl⟩, ?_⟩
    cases b <;> rfl
  | null =>
    cases h
    exact ⟨.inl rfl, .inl rfl, rfl⟩
  | _ => cases h

theorem andValue_boolish {v w x : Value} (h : andValue v w = .ok x) :
    Boolish v ∧ Boolish w ∧ ofValue x = (ofValue v).and (ofValue w) := by
  unfold andValue at h
  split at h
  case h_1 a b =>
    cases h
    refine ⟨.inr ⟨a, rfl⟩, .inr ⟨b, rfl⟩, ?_⟩
    cases a <;> cases b <;> rfl
  case h_7 => cases h
  all_goals
    cases h
    refine ⟨?_, ?_, rfl⟩
    all_goals simp [Boolish]

theorem orValue_boolish {v w x : Value} (h : orValue v w = .ok x) :
    Boolish v ∧ Boolish w ∧ ofValue x = (ofValue v).or (ofValue w) := by
  unfold orValue at h
  split at h
  case h_1 a b =>
    cases h
    refine ⟨.inr ⟨a, rfl⟩, .inr ⟨b, rfl⟩, ?_⟩
    cases a <;> cases b <;> rfl
  case h_7 => cases h
  all_goals
    cases h
    refine ⟨?_, ?_, rfl⟩
    all_goals simp [Boolish]

/-- The outcome is as good as the standard one, for what a CHECK that is below an even or an odd
number of `NOT`s may reject. -/
def Judged (positive : Bool) (o std : CheckOutcome) : Prop :=
  match positive with
  | true => o = .fail ↔ std = .fail
  | false => o = .pass ↔ std = .pass

namespace Judged

variable {positive : Bool} {o o' std std' : CheckOutcome}

theorem refl (positive : Bool) (o : CheckOutcome) : Judged positive o o := by
  cases positive with
  | true => exact Iff.rfl
  | false => exact Iff.rfl

theorem not (h : Judged (!positive) o std) : Judged positive o.not std.not := by
  cases positive with
  | true => exact not_eq_fail.trans (h.trans not_eq_fail.symm)
  | false => exact not_eq_pass.trans (h.trans not_eq_pass.symm)

theorem and (h : Judged positive o std) (h' : Judged positive o' std') :
    Judged positive (o.and o') (std.and std') := by
  cases positive with
  | true => exact and_eq_fail.trans ((or_congr h h').trans and_eq_fail.symm)
  | false => exact and_eq_pass.trans ((and_congr h h').trans and_eq_pass.symm)

theorem or (h : Judged positive o std) (h' : Judged positive o' std') :
    Judged positive (o.or o') (std.or std') := by
  cases positive with
  | true => exact or_eq_fail.trans ((and_congr h h').trans or_eq_fail.symm)
  | false => exact or_eq_pass.trans ((or_congr h h').trans or_eq_pass.symm)

end Judged

/-! ## Comparisons -/

theorem arith_null {l r : Value} {op : ArithOp} (h : isNull l ∨ isNull r) :
    arith lib.toLibrary l op r = .ok .null := by
  unfold arith
  exact if_pos h

theorem plusValue_null {l r : Value} (h : isNull l ∨ isNull r) : plusValue lib l r = .ok .null := by
  have hstr : ¬ (isStr l = true ∧ isStr r = true) := by
    rintro ⟨hl, hr⟩
    cases l with
    | str s =>
      cases r with
      | str t => simp [isNull] at h
      | _ => cases hr
    | _ => cases hl
  unfold plusValue
  rw [if_neg hstr]
  split_ifs
  · rfl
  · exact arith_null h

/-- Beside NULL the standard value of a binary operator is NULL. -/
theorem stdBinop_null {v w x : Value} {op : BinaryOperator} (hand : op ≠ .and) (hor : op ≠ .or)
    (h : isNull v ∨ isNull w) (hx : stdBinop lib v op w = .ok x) : x = .null := by
  suffices hnull : stdBinop lib v op w = .ok .null by
    rw [hnull] at hx
    exact (Except.ok.inj hx).symm
  cases op with
  | and => exact absurd rfl hand
  | or => exact absurd rfl hor
  | other text => cases hx
  | arith op =>
    cases op with
    | plus => exact plusValue_null h
    | _ => exact arith_null h
  | bitwiseOr => exact if_pos h
  | bitwiseAnd => exact if_pos h
  | bitwiseXor => exact if_pos h
  | stringConcat => exact if_pos h
  | eq => exact if_pos h
  | notEq => exact if_pos h
  | lt => exact if_pos h
  | ltEq => exact if_pos h
  | gt => exact if_pos h
  | gtEq => exact if_pos h

/-- Without NULL the operators are the standard ones. -/
theorem stdBinop_eq {v w : Value} {op : BinaryOperator} (h : ¬ (isNull v ∨ isNull w)) :
    stdBinop lib v op w = binop lib v op w := by
  cases op with
  | eq => exact if_neg h
  | notEq => exact if_neg h
  | lt => exact if_neg h
  | ltEq => exact if_neg h
  | gt => exact if_neg h
  | gtEq => exact if_neg h
  | _ => rfl

theorem compareOutcome_judged {l r : SqlExpr} {op : BinaryOperator} {o : CheckOutcome} {v : Value}
    (hand : op ≠ .and) (hor : op ≠ .or) (hread : ¬ (Misreads lib doc l ∨ Misreads lib doc r))
    (ho : compareOutcome doc lib l op r = .ok o)
    (hv : stdExpr lib doc (.binaryOp l op r) = .ok v) : o = ofValue v := by
  obtain ⟨hl, hr⟩ := not_or.mp hread
  obtain ⟨a, ha, ho⟩ := Except.bind_eq_ok_iff.mp ho
  obtain ⟨b, hb, ho⟩ := Except.bind_eq_ok_iff.mp ho
  rw [stdExpr, evalExpr_refines l hl a ha, evalExpr_refines r hr b hb] at hv
  split_ifs at ho with hnull
  · cases ho
    rw [stdBinop_null hand hor hnull hv]
    rfl
  · obtain ⟨x, hx, ho⟩ := Except.bind_eq_ok_iff.mp ho
    cases ho
    have hsame : stdBinop lib a op b = .ok v := hv
    rw [stdBinop_eq hnull, hx] at hsame
    cases hsame
    rfl

/-! ## Other predicates -/

/-- A predicate that is never unknown. -/
theorem nullTest_judged {e : SqlExpr} {o : CheckOutcome} {v : Value} (positive : Bool)
    (hbool : ∀ w, evalExpr lib doc e = .ok w → w ≠ .null) (hread : ¬ Misreads lib doc e)
    (ho : (evalExpr lib doc e >>= fun w => pure (ofBoolish w)) = .ok o)
    (hv : stdExpr lib doc e = .ok v) : Judged positive o (ofValue v) := by
  obtain ⟨w, hw, ho⟩ := Except.bind_eq_ok_iff.mp ho
  cases ho
  rw [evalExpr_refines e hread w hw] at hv
  cases hv
  rw [ofBoolish_eq_ofValue (hbool _ hw)]
  exact .refl _ _

theorem evalBoolish_judged {positive : Bool} {e : SqlExpr} {o : CheckOutcome} {v : Value}
    (hstray : ¬ StraysBoolish doc lib positive e) (hboolish : positive = false → Boolish v)
    (ho : evalBoolish doc lib e = .ok o) (hv : stdExpr lib doc e = .ok v) :
    Judged positive o (ofValue v) := by
  unfold StraysBoolish at hstray
  unfold evalBoolish at ho
  split_ifs at hstray ho with hnull
  · cases ho
    have hne : v ≠ .bool !positive := fun heq => hstray (heq ▸ hv)
    cases positive with
    | true => exact iff_of_false nofun fun h => hne (ofValue_eq_fail.mp h)
    | false =>
      refine iff_of_false nofun fun h => ?_
      rcases hboolish rfl with rfl | ⟨b, rfl⟩
      · cases h
      · cases b with
        | true => exact hne rfl
        | false => cases h
  · obtain ⟨hread, hnot⟩ := not_or.mp hstray
    obtain ⟨w, hw, ho⟩ := Except.bind_eq_ok_iff.mp ho
    cases ho
    rw [evalExpr_refines e hread w hw] at hv
    cases hv
    cases positive with
    | true => exact ofBoolish_eq_fail.trans ofValue_eq_fail.symm
    | false =>
      rw [ofBoolish_eq_ofValue fun hnull => hnot ⟨rfl, hnull ▸ hw⟩]
      exact .refl _ _

/-! ## The outcome by the standard -/

theorem not_misreads {e : SqlExpr} (hread : ¬ Misread lib doc e)
    (h : ∀ s, Evaluates lib (evalExpr lib doc) e s → ¬ Misreads lib doc s) :
    ¬ Misreads lib doc e := by
  intro hm
  cases hm with
  | here hhere => exact hread hhere
  | part hs hpart => exact h _ hs hpart

/-- Where the CHECK comes to no predicate that strays, its outcome is as good as the standard
one: by cases on the connectives, and at the predicates by what each of them does. -/
theorem checkExprOutcome_judged (e : SqlExpr) : ∀ positive, ¬ Strays doc lib positive e →
    ∀ o v, checkExprOutcome doc lib e = .ok o → stdExpr lib doc e = .ok v →
      (positive = false → Boolish v) → Judged positive o (ofValue v) := by
  intro positive hstray o v ho hv hboolish
  cases e with
  | nested e =>
    rw [stdExpr] at hv
    exact checkExprOutcome_judged e positive hstray o v ho hv hboolish
  | unaryOp op e =>
    cases op with
    | not =>
      rw [stdExpr] at hv
      obtain ⟨a, ha, ho⟩ := Except.bind_eq_ok_iff.mp ho
      cases ho
      obtain ⟨x, hx, hv⟩ := Except.bind_eq_ok_iff.mp hv
      obtain ⟨hbx, -, heq⟩ := notValue_boolish hv
      rw [heq]
      exact (checkExprOutcome_judged e (!positive) hstray a x ha hx fun _ => hbx).not
    | _ => exact evalBoolish_judged hstray hboolish ho hv
  | binaryOp l op r =>
    by_cases hand : op = .and
    · subst hand
      obtain ⟨hl, hr⟩ := not_or.mp hstray
      rw [stdExpr] at hv
      obtain ⟨a, ha, ho⟩ := Except.bind_eq_ok_iff.mp ho
      obtain ⟨b, hb, ho⟩ := Except.bind_eq_ok_iff.mp ho
      cases ho
      obtain ⟨x, hx, hv⟩ := Except.bind_eq_ok_iff.mp hv
      obtain ⟨y, hy, hv⟩ := Except.bind_eq_ok_iff.mp hv
      obtain ⟨hbx, hby, heq⟩ := andValue_boolish hv
      rw [heq]
      exact (checkExprOutcome_judged l positive hl a x ha hx fun _ => hbx).and
        (checkExprOutcome_judged r positive hr b y hb hy fun _ => hby)
    · by_cases hor : op = .or
      · subst hor
        obtain ⟨hl, hr⟩ := not_or.mp hstray
        rw [stdExpr] at hv
        obtain ⟨a, ha, ho⟩ := Except.bind_eq_ok_iff.mp ho
        obtain ⟨b, hb, ho⟩ := Except.bind_eq_ok_iff.mp ho
        cases ho
        obtain ⟨x, hx, hv⟩ := Except.bind_eq_ok_iff.mp hv
        obtain ⟨y, hy, hv⟩ := Except.bind_eq_ok_iff.mp hv
        obtain ⟨hbx, hby, heq⟩ := orValue_boolish hv
        rw [heq]
        exact (checkExprOutcome_judged l positive hl a x ha hx fun _ => hbx).or
          (checkExprOutcome_judged r positive hr b y hb hy fun _ => hby)
      · have heq : o = ofValue v := by
          cases op with
          | and => exact absurd rfl hand
          | or => exact absurd rfl hor
          | _ => exact compareOutcome_judged hand hor hstray ho hv
        rw [heq]
        exact .refl _ _
  | isNull e | isNotNull e =>
    refine nullTest_judged positive ?_ (not_misreads id ?_) ho hv
    · intro w hw
      rw [evalExpr] at hw
      obtain ⟨x, -, hw⟩ := Except.bind_eq_ok_iff.mp hw
      cases hw
      exact fun h => by cases h
    · rintro s (hs | _)
      cases hs with
      | head => exact hstray
      | tail _ h => cases h
  | isDistinctFrom l r | isNotDistinctFrom l r =>
    refine nullTest_judged positive ?_ (not_misreads id ?_) ho hv
    · intro w hw
      rw [evalExpr] at hw
      obtain ⟨x, -, hw⟩ := Except.bind_eq_ok_iff.mp hw
      obtain ⟨y, -, hw⟩ := Except.bind_eq_ok_iff.mp hw
      obtain ⟨z, -, hw⟩ := Except.bind_eq_ok_iff.mp hw
      cases hw
      exact fun h => by cases h
    · obtain ⟨hl, hr⟩ := not_or.mp hstray
      rintro s (hs | _)
      cases hs with
      | head => exact hl
      | tail _ h =>
        cases h with
        | head => exact hr
        | tail _ h => cases h
  | _ => exact evalBoolish_judged hstray hboolish ho hv
termination_by structural e

variable (doc lib)

/-- The CHECK fails exactly when its standard value is false. -/
def CheckExact (e : SqlExpr) : Prop :=
  ∀ o v, checkExprOutcome doc lib e = .ok o → stdExpr lib doc e = .ok v →
    (o = .fail ↔ v = .bool false)

/-- The walker decides about the expression as a whole. -/
def isWalked : SqlExpr → Bool
  | .nested _ | .unaryOp .not _ | .binaryOp _ _ _ | .isNull _ | .isNotNull _ | .isDistinctFrom _ _
  | .isNotDistinctFrom _ _ => false
  | _ => true

variable {doc lib}

theorem walked {e : SqlExpr} (h : isWalked e = true) :
    checkExprOutcome doc lib e = evalBoolish doc lib e ∧
      ∀ positive, Strays doc lib positive e = StraysBoolish doc lib positive e := by
  cases e with
  | nested | binaryOp | isNull | isNotNull | isDistinctFrom | isNotDistinctFrom => cases h
  | unaryOp op e =>
    cases op with
    | not => cases h
    | _ => exact ⟨rfl, fun _ => rfl⟩
  | _ => exact ⟨rfl, fun _ => rfl⟩

/-- A NULL reference that the walker sees leaves the predicate unknown. -/
theorem checkExact_of_null_ref {e : SqlExpr} (h : isWalked e = true)
    (hnull : exprHasNullRef doc e = true) : CheckExact doc lib e ↔ ¬ Strays doc lib true e := by
  obtain ⟨hcheck, hstray⟩ := walked h
  rw [hstray, StraysBoolish, if_pos hnull]
  have hunknown : checkExprOutcome doc lib e = .ok .unknown := by
    rw [hcheck, evalBoolish, if_pos hnull]
  constructor
  · intro hexact hfalse
    cases (hexact _ _ hunknown hfalse).mpr rfl
  · intro hne o v ho hv
    rw [hunknown] at ho
    cases ho
    exact iff_of_false nofun fun heq => hne (heq ▸ hv)

/-- A `LIKE` with a NULL operand fails its CHECK. -/
theorem like_not_checkExact {insensitive : Bool} {e pattern : SqlExpr} {escape : Option Literal}
    {v p : Value} (hv : evalExpr lib doc e = .ok v) (hp : evalExpr lib doc pattern = .ok p)
    (hread : ¬ Misreads lib doc e ∧ ¬ Misreads lib doc pattern) (hnull : isNull v ∨ isNull p) :
    ¬ CheckExact doc lib (.like insensitive false e pattern escape) := by
  intro hexact
  have hlike : likeValue lib insensitive false escape v p = .bool false := by
    unfold likeValue
    split
    · simp [isNull] at hnull
    · rfl
  have hfail : checkExprOutcome doc lib (.like insensitive false e pattern escape) = .ok .fail := by
    change (evalExpr lib doc _ >>= fun w => pure (ofBoolish w)) = _
    rw [evalExpr, hv, hp]
    exact congrArg (fun w => Except.ok (ofBoolish w)) hlike
  have hstd : stdExpr lib doc (.like insensitive false e pattern escape) = .ok .null := by
    rw [stdExpr, evalExpr_refines e hread.1 v hv, evalExpr_refines pattern hread.2 p hp]
    exact congrArg Except.ok (if_pos hnull)
  cases (hexact _ _ hfail hstd).mp rfl

theorem not_misreads_identifier (i : Ident) : ¬ Misreads lib doc (.identifier i) :=
  not_misreads id fun s hs => by
    cases hs with
    | operand hmem => cases hmem

theorem not_misreads_value (v : Literal) : ¬ Misreads lib doc (.value v) :=
  not_misreads id fun s hs => by
    cases hs with
    | operand hmem => cases hmem

section Samples

/-- `a > 0 AND b > 0` -/
def conjunction : SqlExpr :=
  .binaryOp (.binaryOp (.identifier ⟨"a", false⟩) .gt (.value (.number "0"))) .and
    (.binaryOp (.identifier ⟨"b", false⟩) .gt (.value (.number "0")))

/-- `1 BETWEEN a AND 0` -/
def emptyRange : SqlExpr :=
  .between (.value (.number "1")) false (.identifier ⟨"a", false⟩) (.value (.number "0"))

/-- `a LIKE 'x%'` -/
def likePrefix : SqlExpr :=
  .like false false (.identifier ⟨"a", false⟩) (.value (.singleQuotedString "x%")) none

/-- `a` is NULL and `b` is zero. -/
def nullRow : Object := [("a", .null), ("b", .int 0)]

theorem nullRow_a : evalExpr sampleLibrary.engine nullRow (.identifier ⟨"a", false⟩) =
    .ok .null := by
  rw [evalExpr]
  rfl

theorem nullRow_text : evalExpr sampleLibrary.engine nullRow (.value (.singleQuotedString "x%")) =
    .ok (.str "x%") := by
  rw [evalExpr]
  rfl

end Samples

end Docsql.Expr
