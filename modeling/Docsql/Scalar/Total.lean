import Docsql.Json.Nesting
import Docsql.Scalar.Functions
import Docsql.Timestamp.Parse

/-!
# Which calls of a scalar function return

A call returns if it gives a value or an error; else an index, a slice or an arithmetic step
has stopped the program.
-/

namespace Docsql.Scalar

open Docsql.Lib.Utf8

variable {α β : Type} {lib : Library}

/-- `Ok` or `Err`. -/
def Returns (x : Eval α) : Prop := (∃ a, x = .ok a) ∨ ∃ text, x = .error (.error text)

theorem Returns.ok (a : α) : Returns (.ok a : Eval α) := Or.inl ⟨a, rfl⟩

theorem Returns.pure (a : α) : Returns (Pure.pure a : Eval α) := Returns.ok a

theorem Returns.fail (text : String) : Returns (Scalar.fail text : Eval α) :=
  Or.inr ⟨text, rfl⟩

theorem Returns.bind {x : Eval α} {f : α → Eval β} (hx : Returns x)
    (hf : ∀ a, x = .ok a → Returns (f a)) : Returns (x >>= f) := by
  rcases hx with ⟨a, rfl⟩ | ⟨text, rfl⟩
  · exact hf a rfl
  · exact Or.inr ⟨text, rfl⟩

theorem Returns.of_bind {x : Eval α} {f : α → Eval β} (h : Returns (x >>= f)) : Returns x := by
  cases x with
  | ok a => exact .ok a
  | error stop =>
    rcases h with ⟨b, hb⟩ | ⟨text, htext⟩
    · cases hb
    · cases htext
      exact Or.inr ⟨_, rfl⟩

theorem Returns.ite {c : Prop} [Decidable c] {x y : Eval α} (hx : c → Returns x)
    (hy : ¬ c → Returns y) : Returns (if c then x else y) := by
  split_ifs with h
  · exact hx h
  · exact hy h

theorem not_returns_outOfRange : ¬ Returns (.error .outOfRange : Eval α) := by
  rintro (⟨a, h⟩ | ⟨text, h⟩) <;> cases h

theorem not_returns_overflow : ¬ Returns (.error .overflow : Eval α) := by
  rintro (⟨a, h⟩ | ⟨text, h⟩) <;> cases h

/-! ## Steps that return -/

theorem index_ok {xs : List α} {i : ℕ} (h : i < xs.length) : index xs i = .ok xs[i] := by
  rw [index, List.getElem?_eq_getElem h]

theorem slice_ok {xs : List α} {lo hi : ℕ} (h : lo ≤ hi ∧ hi ≤ xs.length) :
    slice xs lo hi = .ok ((xs.take hi).drop lo) := if_pos h

theorem checked_ok {x : ℤ} (h : i64Min ≤ x ∧ x ≤ i64Max) : checked x = .ok x := if_pos h

theorem checked_overflow {x : ℤ} (h : ¬ (i64Min ≤ x ∧ x ≤ i64Max)) :
    checked x = .error .overflow := if_neg h

theorem toInt_range (i : Int64) : i64Min ≤ i.toInt ∧ i.toInt ≤ i64Max := by
  have h1 := i.le_toInt
  have h2 := i.toInt_lt
  constructor
  · exact h1
  · rw [i64Max]
    omega

theorem arg_returns (args : List Value) (i : ℕ) (name : String) :
    Returns (arg args i name) := by
  rw [arg]
  split
  · exact .ok _
  · exact .fail _

theorem exactArity_returns (name : String) (args : List Value) (n : ℕ) :
    Returns (exactArity name args n) := by
  rw [exactArity]
  exact .ite (fun _ => .fail _) fun _ => .ok _

theorem exactArity_eq_ok {name : String} {args : List Value} {n : ℕ} {u : Unit}
    (h : exactArity name args n = .ok u) : args.length = n := by
  rw [exactArity] at h
  by_contra hne
  rw [if_pos hne] at h
  cases h

theorem arityBetween_returns (name range : String) (args : List Value) (lo hi : ℕ) :
    Returns (arityBetween name range args lo hi) := by
  rw [arityBetween]
  exact .ite (fun _ => .fail _) fun _ => .ok _

theorem arityBetween_eq_ok {name range : String} {args : List Value} {lo hi : ℕ} {u : Unit}
    (h : arityBetween name range args lo hi = .ok u) : lo ≤ args.length ∧ args.length ≤ hi := by
  rw [arityBetween] at h
  by_contra hne
  rw [if_pos (by omega)] at h
  cases h

/-! ## Comparison and arithmetic -/

theorem parseTimestamp_returns (s : String) : Returns (parseTimestamp s) := by
  rw [parseTimestamp]
  split
  · exact .ok _
  · exact .ok _
  · next hpanic => exact absurd hpanic (Timestamp.parseTimestampMs_safe s)

theorem coerceTimestampOperands_returns (l r : Value) :
    Returns (coerceTimestampOperands l r) := by
  unfold coerceTimestampOperands
  split
  · exact (parseTimestamp_returns _).bind fun p _ => .ok _
  · exact (parseTimestamp_returns _).bind fun p _ => .ok _
  all_goals exact .ok _

theorem cmpCoerced_returns (a b : Value) : Returns (cmpCoerced a b) :=
  (coerceTimestampOperands_returns a b).bind fun _ _ => .ok _

theorem asF64_returns (v : Value) : Returns (asF64 lib v) := by
  cases v <;> first | exact .ok _ | exact .fail _

theorem asDecimal_returns (v : Value) : Returns (asDecimal lib v) := by
  cases v with
  | float f =>
    rw [asDecimal]
    split
    · exact .ok _
    · exact .fail _
  | _ => first | exact .ok _ | exact .fail _

theorem arith_returns (l : Value) (op : ArithOp) (r : Value) : Returns (arith lib l op r) := by
  unfold arith
  refine .ite (fun _ => .ok _) fun _ => .ite (fun _ => ?_) fun _ => .ite (fun _ => ?_)
    fun _ => .ite (fun _ => ?_) fun _ => ?_
  · unfold timestampArith
    split <;> first | exact .ok _ | exact .fail _
  · exact (asDecimal_returns l).bind fun _ _ => (asDecimal_returns r).bind fun _ _ => .ok _
  · exact (asF64_returns l).bind fun _ _ => (asF64_returns r).bind fun _ _ => .ok _
  · split
    · exact .ok _
    · exact .fail _

/-! ## Text -/

/-- A found text begins at a character. -/
theorem find_split {needle text : List Char} {n : ℕ} (h : find needle text = some n) :
    ∃ front rest, text = front ++ rest ∧ n = byteLen front := by
  induction text generalizing n with
  | nil =>
    rw [find] at h
    split_ifs at h
    exact ⟨[], [], rfl, (Option.some.inj h).symm⟩
  | cons c cs ih =>
    rw [find] at h
    split_ifs at h
    · exact ⟨[], c :: cs, rfl, (Option.some.inj h).symm⟩
    · obtain ⟨m, hm, rfl⟩ := Option.map_eq_some_iff.mp h
      obtain ⟨front, rest, rfl, rfl⟩ := ih hm
      exact ⟨c :: front, rest, rfl, (byteLen_cons c front).symm⟩

theorem findChar_split {p : Char → Bool} {text : List Char} {n : ℕ}
    (h : findChar p text = some n) :
    ∃ front d rest, text = front ++ d :: rest ∧ n = byteLen front ∧ p d := by
  induction text generalizing n with
  | nil => cases h
  | cons c cs ih =>
    rw [findChar] at h
    split_ifs at h with hp
    · exact ⟨[], c, cs, rfl, (Option.some.inj h).symm, hp⟩
    · obtain ⟨m, hm, rfl⟩ := Option.map_eq_some_iff.mp h
      obtain ⟨front, d, rest, rfl, rfl, hd⟩ := ih hm
      exact ⟨c :: front, d, rest, rfl, (byteLen_cons c front).symm, hd⟩

theorem textTo_split (front rest : List Char) :
    textTo (front ++ rest) (byteLen front) = .ok front := by
  rw [textTo, takeBytes_append]

theorem textFrom_split (front rest : List Char) :
    textFrom (front ++ rest) (byteLen front) = .ok rest := by
  rw [textFrom, dropBytes_append]

theorem trimFn_returns (f : TrimFn) (args : List Value) : Returns (trimFn lib f args) := by
  refine (exactArity_returns _ _ _).bind fun _ _ => (arg_returns _ _ _).bind fun v _ => ?_
  exact .ite (fun _ => .pure _) fun _ => .pure _

theorem instr_returns (args : List Value) : Returns (instr args) := by
  refine (exactArity_returns _ _ _).bind fun _ _ => .ite (fun _ => .pure _) fun _ => ?_
  refine (arg_returns _ _ _).bind fun v _ => (arg_returns _ _ _).bind fun w _ => ?_
  split
  · split
    · exact .pure _
    · next hfind =>
      obtain ⟨front, rest, heq, rfl⟩ := find_split hfind
      rw [heq, textTo_split]
      exact .ok _
  · exact .fail _

theorem padFill_ne_nil (v : Option Value) : padFill v ≠ [] := by
  unfold padFill
  split
  · split_ifs with h
    · exact List.cons_ne_nil _ _
    · exact h
  · exact List.cons_ne_nil _ _

theorem padding_returns {fill : List Char} (h : fill ≠ []) :
    ∀ need, Returns (padding fill need)
  | 0 => .ok _
  | need + 1 => by
    have hlt : need % fill.length < fill.length := Nat.mod_lt _ (List.length_pos_of_ne_nil h)
    refine (padding_returns h need).bind fun front _ => ?_
    rw [index_ok hlt]
    exact .ok _

theorem padChars_returns (left : Bool) (chars : List Char) {fill : List Char}
    (h : fill ≠ []) (len : ℕ) : Returns (padChars left chars fill len) := by
  refine .ite (fun hlen => ?_) fun _ => (padding_returns h _).bind fun _ _ => .pure _
  rw [slice_ok ⟨Nat.zero_le _, hlen⟩]
  exact .ok _

theorem padLength_returns (name : String) (v : Value) : Returns (padLength name v) := by
  unfold padLength
  split
  · exact .ite (fun _ => .ok _) fun _ => .fail _
  · exact .fail _

theorem pad_returns (left : Bool) (args : List Value) : Returns (pad left args) := by
  refine (arityBetween_returns _ _ _ _ _).bind fun _ _ => .ite (fun _ => .pure _) fun _ => ?_
  refine (arg_returns _ _ _).bind fun v _ => ?_
  split
  · refine (arg_returns _ _ _).bind fun w _ => (padLength_returns _ w).bind fun len _ => ?_
    refine .ite (fun _ => .fail _) fun _ => ?_
    exact (padChars_returns left _ (padFill_ne_nil _) len).bind fun _ _ => .pure _
  · exact .fail _

/-! ## Choices -/

theorem decodeMatches_returns (expr s : Value) : Returns (decodeMatches expr s) := by
  unfold decodeMatches
  split
  · exact .ok _
  · exact .ok _
  · exact .ok _
  · exact (cmpCoerced_returns _ _).bind fun _ _ => .pure _

theorem decodeLoop_returns (args : List Value) (expr : Value) :
    ∀ n i, Returns (decodeLoop args expr n i)
  | 0, _ => .ok _
  | n + 1, i => by
    refine .ite (fun hlt => ?_) fun _ => .ok _
    rw [index_ok (show i < args.length by omega), index_ok hlt]
    refine (decodeMatches_returns _ _).bind fun found _ => ?_
    exact .ite (fun _ => .pure _) fun _ => decodeLoop_returns args expr n (i + 2)

theorem decode_returns (args : List Value) : Returns (decode args) := by
  refine .ite (fun _ => .fail _) fun hlen => ?_
  rw [index_ok (show 0 < args.length by omega)]
  refine (decodeLoop_returns args _ _ 1).bind fun found _ => ?_
  cases found with
  | some v => exact .pure _
  | none =>
    refine .ite (fun _ => ?_) fun _ => .pure _
    rw [index_ok (show args.length - 1 < args.length by omega)]
    exact .ok _

theorem extremumLoop_returns (want : Ordering) :
    ∀ best vs, Returns (extremumLoop want best vs)
  | _, [] => .ok _
  | best, v :: vs =>
    (cmpCoerced_returns v best).bind fun _ _ => extremumLoop_returns want _ vs

theorem extremum_returns (greatest : Bool) (args : List Value) :
    Returns (extremum greatest args) := by
  refine .ite (fun _ => .fail _) fun hne => .ite (fun _ => .pure _) fun _ => ?_
  have hlen : 0 < args.length := List.length_pos_of_ne_nil hne
  rw [index_ok hlen, slice_ok ⟨hlen, le_rfl⟩]
  exact extremumLoop_returns _ _ _

/-! ## JSON -/

theorem textTo_stop {p : Char → Bool} (stripped : List Char) :
    ∃ front rest, stripped = front ++ rest ∧
      (findChar p stripped).getD (byteLen stripped) = byteLen front := by
  cases h : findChar p stripped with
  | none => exact ⟨stripped, [], (List.append_nil _).symm, rfl⟩
  | some n =>
    obtain ⟨front, d, rest, heq, hn, _⟩ := findChar_split h
    exact ⟨front, d :: rest, heq, hn⟩

theorem lookupLoop_returns : ∀ n cur rest, Returns (lookupLoop n cur rest)
  | 0, _, _ => .ok _
  | n + 1, cur, [] => .ok _
  | n + 1, cur, c :: stripped => by
    rw [lookupLoop]
    refine .ite (fun _ => ?_) fun _ => .ite (fun _ => ?_) fun _ => .ok _
    · obtain ⟨front, rest, heq, hstop⟩ :=
        textTo_stop (p := fun d => d = '.' || d = '[') stripped
      simp only [hstop]
      rw [heq, textTo_split, textFrom_split]
      refine (Returns.ok front).bind fun key _ => .ite (fun _ => .pure _) fun _ => ?_
      split
      · split
        · exact (Returns.ok rest).bind fun _ _ => lookupLoop_returns n _ _
        · exact .pure _
      · exact .pure _
    · split
      · exact .ok _
      · next stop hfind =>
        obtain ⟨front, d, rest, heq, rfl, hd⟩ := findChar_split hfind
        have hd : d = ']' := by simpa using hd
        have hfrom : textFrom stripped (byteLen front + 1) = .ok rest := by
          have hlen : byteLen (front ++ [d]) = byteLen front + 1 := by
            rw [hd, byteLen_append]
            rfl
          rw [← hlen, heq, List.append_cons]
          exact textFrom_split _ _
        rw [hfrom, heq, textTo_split]
        refine (Returns.ok front).bind fun digits _ => ?_
        split
        · exact .pure _
        · split
          · split
            · exact (Returns.ok rest).bind fun _ _ => lookupLoop_returns n _ _
            · exact .pure _
          · exact .pure _

theorem jsonPathLookup_returns (root : Value) (path : String) :
    Returns (jsonPathLookup root path) := by
  refine .ite (fun hroot => ?_) fun _ => .pure _
  obtain ⟨rest, heq⟩ := List.head?_eq_some_iff.mp hroot
  have hfrom : textFrom (Timestamp.trim path.toList) 1 = .ok rest := by
    rw [heq]
    exact textFrom_split ['$'] rest
  rw [hfrom]
  exact (Returns.ok rest).bind fun _ _ => lookupLoop_returns _ _ _

theorem jsonTarget_returns (name : String) (parsed : Value) (args : List Value) :
    Returns (jsonTarget name parsed args) := by
  refine .ite (fun _ => (arg_returns _ _ _).bind fun v _ => ?_) fun _ => .ok _
  split
  · exact jsonPathLookup_returns _ _
  · exact .fail _

theorem jsonFn_returns (wantType : Bool) (args : List Value) :
    Returns (jsonFn lib wantType args) := by
  refine (arityBetween_returns _ _ _ _ _).bind fun _ _ => (arg_returns _ _ _).bind fun v _ => ?_
  split
  · split
    · exact .pure _
    · refine (jsonTarget_returns _ _ _).bind fun target _ => ?_
      split
      · exact .pure _
      · exact .pure _
  · exact .pure _

theorem modulo_returns (args : List Value) : Returns (modulo lib args) := by
  refine (exactArity_returns _ _ _).bind fun u h => ?_
  have hlen := exactArity_eq_ok h
  rw [index_ok (show 0 < args.length by omega), index_ok (show 1 < args.length by omega)]
  exact arith_returns _ _ _

/-! ## The calls that stop the program -/

/-- The text of a value, as characters. -/
def chars (lib : Library) (v : Value) : List Char := (valueToText lib v).toList

/-- A start of zero or less becomes a huge index. -/
def LocateFaults : List Value → Prop
  | [needle, hay, .int start] => ¬ isNull needle ∧ ¬ isNull hay ∧ start.toInt ≤ 0
  | _ => False

/-- A start `y` and a length `z` whose sum in front of the text is no `i64`. -/
def SubstrOverflow (n y z : ℤ) : Prop :=
  (y = 0 ∧ z = i64Min) ∨ (y < 0 ∧ n + y < 0 ∧ n + y + z < i64Min)

def SubstrFaults (lib : Library) (args : List Value) : Prop :=
  args.length ≤ 3 ∧ ∃ v, args.head? = some v ∧ ¬ isNull v ∧
    SubstrOverflow (chars lib v).length (intArg args 1 1) (intArg args 2 i64Max)

def AbsFaults : List Value → Prop
  | [.int i] => i.toInt = i64Min
  | _ => False

/-- The rounded number has no representation. -/
def RoundFaults : List Value → Prop
  | [.decimal d, .int n] => n.toInt < 0 ∧
    2 ^ 96 ≤ Rounding.midpointAwayFromZero.apply d.mantissa
      (d.scale + shiftOf (clamp n.toInt (-15) 28)) * 10 ^ shiftOf (clamp n.toInt (-15) 28)
  | _ => False

def Faults (lib : Library) : ScalarFn → List Value → Prop
  | .locate => LocateFaults
  | .substr | .substring => SubstrFaults lib
  | .abs => AbsFaults
  | .round => RoundFaults
  | _ => fun _ => False

/-- The characters of a text fit a vector. -/
def FitsMemory (lib : Library) (v : Value) : Prop := (chars lib v).length < 2 ^ 61

/-! ## ABS -/

theorem abs_returns_iff (args : List Value) : Returns (abs lib args) ↔ ¬ AbsFaults args := by
  by_cases hlen : args.length = 1
  swap
  · refine iff_of_true ?_ ?_
    · rw [abs, exactArity, if_pos hlen]
      exact .fail _
    · unfold AbsFaults
      split
      · exact absurd rfl hlen
      · exact not_false
  obtain ⟨v, rfl⟩ := List.length_eq_one_iff.mp hlen
  cases v with
  | int i =>
    have hrange := toInt_range i
    change Returns (checked |i.toInt| >>= _) ↔ ¬ i.toInt = i64Min
    by_cases hmin : i.toInt = i64Min
    · refine iff_of_false ?_ (not_not_intro hmin)
      rw [hmin, checked_overflow (by decide)]
      exact not_returns_overflow
    · refine iff_of_true ?_ hmin
      have habs : i64Min ≤ |i.toInt| ∧ |i.toInt| ≤ i64Max := by
        rw [i64Min, i64Max] at *
        rcases abs_cases i.toInt with ⟨h, _⟩ | ⟨h, _⟩ <;> omega
      rw [checked_ok habs]
      exact .ok _
  | float f => exact iff_of_true (.ok _) not_false
  | decimal d => exact iff_of_true (.ok _) not_false
  | null => exact iff_of_true (.ok _) not_false
  | _ => exact iff_of_true (.fail _) not_false

/-! ## LOCATE -/

theorem locateFrom_returns {needle hay : List Char} {skip : ℤ} (h0 : 0 ≤ skip)
    (hlen : hay.length < 2 ^ 61) : Returns (locateFrom needle hay skip) := by
  refine .ite (fun _ => .ok _) fun hle => ?_
  have hmod : skip % 2 ^ 64 = skip := Int.emod_eq_of_lt h0 (by omega)
  have husize : asUsize skip = skip.toNat := by rw [asUsize, hmod]
  rw [husize, slice_ok ⟨by omega, le_rfl⟩]
  refine (Returns.ok _).bind fun tail htail => ?_
  split
  · exact .ok _
  · next b hfind =>
    obtain ⟨front, rest, heq, rfl⟩ := find_split hfind
    have hshort : front.length ≤ hay.length - skip.toNat := by
      have htail' : tail = (hay.take hay.length).drop skip.toNat := (Except.ok.inj htail).symm
      have hcount := congrArg List.length heq
      rw [htail', List.take_length, List.length_drop, List.length_append] at hcount
      omega
    rw [heq, textTo_split]
    have h1 : i64Min ≤ skip + front.length ∧ skip + front.length ≤ i64Max := by
      rw [i64Min, i64Max]
      omega
    have h2 : i64Min ≤ skip + front.length + 1 ∧ skip + front.length + 1 ≤ i64Max := by
      rw [i64Min, i64Max]
      omega
    change Returns (checked (skip + front.length) >>= _)
    rw [checked_ok h1]
    change Returns (checked (skip + front.length + 1))
    rw [checked_ok h2]
    exact .ok _

theorem locateFrom_negative {needle hay : List Char} {skip : ℤ} (h0 : skip < 0)
    (hmin : i64Min ≤ skip) (hlen : hay.length < 2 ^ 61) :
    ¬ Returns (locateFrom needle hay skip) := by
  have husize : hay.length < asUsize skip := by
    have hmod : skip % 2 ^ 64 = skip + 2 ^ 64 := by
      rw [← Int.add_emod_right]
      rw [i64Min] at hmin
      exact Int.emod_eq_of_lt (by omega) (by omega)
    rw [i64Min] at hmin
    rw [asUsize, hmod]
    omega
  rw [locateFrom, if_neg (by omega), slice, if_neg (by omega)]
  exact not_returns_outOfRange

theorem locate_returns_iff (args : List Value) (hfit : ∀ v ∈ args, FitsMemory lib v) :
    Returns (locate lib args) ↔ ¬ LocateFaults args := by
  match args, hfit with
  | [], _ => exact iff_of_true (.fail _) not_false
  | [_], _ => exact iff_of_true (.fail _) not_false
  | _ :: _ :: _ :: _ :: _, _ =>
    refine iff_of_true ?_ ?_
    · rw [locate, if_pos (by simp)]
      exact .fail _
    · unfold LocateFaults
      split
      · next heq => cases heq
      · exact not_false
  | [needle, hay], hfit =>
    refine iff_of_true ?_ not_false
    rw [locate, if_neg (by simp)]
    refine .ite (fun _ => .ok _) fun _ => ?_
    change Returns (locateFrom (chars lib needle) (chars lib hay) (saturating (1 - 1)) >>= _)
    exact (locateFrom_returns (by decide) (hfit hay (by simp))).bind fun _ _ => .ok _
  | [needle, hay, start], hfit =>
    rw [locate, if_neg (by simp)]
    by_cases hnull : [needle, hay, start].any isNull
    · rw [if_pos hnull]
      refine iff_of_true (.ok _) ?_
      unfold LocateFaults
      split
      · next heq =>
        cases heq
        simp only [List.any_cons, List.any_nil, isNull, Bool.or_false, Bool.or_eq_true] at hnull
        rintro ⟨h1, h2, _⟩
        exact hnull.elim h1 h2
      · exact not_false
    · rw [if_neg hnull]
      have hnn : ¬ isNull needle ∧ ¬ isNull hay := by
        simp only [List.any_cons, Bool.or_eq_true, not_or] at hnull
        exact ⟨hnull.1, hnull.2.1⟩
      cases start with
      | int n =>
        change Returns (locateFrom (chars lib needle) (chars lib hay)
          (saturating (n.toInt - 1)) >>= _) ↔ ¬ (_ ∧ _ ∧ n.toInt ≤ 0)
        have hrange := toInt_range n
        have hhay := hfit hay (by simp)
        by_cases hn : n.toInt ≤ 0
        · refine iff_of_false ?_ (not_not_intro ⟨hnn.1, hnn.2, hn⟩)
          have hneg : saturating (n.toInt - 1) < 0 := by rw [saturating, i64Min]; omega
          have hstop : ¬ Returns (locateFrom (chars lib needle) (chars lib hay)
              (saturating (n.toInt - 1))) :=
            locateFrom_negative hneg (le_max_left _ _) hhay
          exact fun hret => hstop hret.of_bind
        · refine iff_of_true ?_ fun h => hn h.2.2
          have hskip : 0 ≤ saturating (n.toInt - 1) := by
            rw [saturating, i64Min, i64Max]
            omega
          exact (locateFrom_returns hskip hhay).bind fun _ _ => .ok _
      | _ => exact iff_of_true (.fail _) not_false

/-! ## SUBSTR -/

theorem substrEnds_returns {b take : ℤ} (hb : 0 ≤ b) (hmax : b ≤ i64Max)
    (hmin : i64Min ≤ take) : Returns (substrEnds b take) := by
  refine .ite (fun hneg => ?_) fun _ => .pure _
  rw [checked_ok ⟨by omega, by omega⟩]
  exact .ok _

theorem substrStart_bounds {n y z b take : ℤ} (hz : i64Min ≤ z ∧ z ≤ i64Max)
    (h : substrStart n y z = .ok (b, take)) : 0 ≤ b ∧ b ≤ i64Max ∧ i64Min ≤ take := by
  have hchecked {x : ℤ} {f : ℤ → Eval (ℤ × ℤ)} (hx : (checked x >>= f) = .ok (b, take)) :
      (i64Min ≤ x ∧ x ≤ i64Max) ∧ f x = .ok (b, take) := by
    rw [checked] at hx
    split_ifs at hx with hr
    · exact ⟨hr, hx⟩
    · cases hx
  rw [substrStart] at h
  split_ifs at h with h1 h2
  · obtain ⟨hr, h⟩ := hchecked h
    split_ifs at h with h3
    · obtain ⟨hr', h⟩ := hchecked h
      cases h
      exact ⟨le_rfl, by decide, hr'.1⟩
    · cases h
      exact ⟨by omega, hr.2, hz.1⟩
  · obtain ⟨hr, h⟩ := hchecked h
    cases h
    exact ⟨by omega, hr.2, hz.1⟩
  · obtain ⟨hr, h⟩ := hchecked h
    cases h
    exact ⟨le_rfl, by decide, hr.1⟩

theorem substrStart_returns_iff {n y z : ℤ} (hn : 0 ≤ n) (hn' : n ≤ i64Max)
    (hy : i64Min ≤ y ∧ y ≤ i64Max) (hz : i64Min ≤ z ∧ z ≤ i64Max) :
    Returns (substrStart n y z) ↔ ¬ SubstrOverflow n y z := by
  rw [substrStart, SubstrOverflow]
  split_ifs with h1 h2
  · rw [checked_ok (show i64Min ≤ n + y ∧ n + y ≤ i64Max by omega)]
    change Returns (if n + y < 0 then _ else _) ↔ _
    split_ifs with h3
    · by_cases hz' : n + y + z < i64Min
      · refine iff_of_false ?_ (not_not_intro (Or.inr ⟨h1, h3, hz'⟩))
        rw [checked_overflow (by omega)]
        exact not_returns_overflow
      · refine iff_of_true ?_ ?_
        · rw [checked_ok ⟨by omega, by omega⟩]
          exact .ok _
        · rintro (⟨h, _⟩ | ⟨_, _, h⟩)
          · omega
          · exact hz' h
    · refine iff_of_true (.ok _) ?_
      rintro (⟨h, _⟩ | ⟨_, h, _⟩)
      · omega
      · exact h3 h
  · refine iff_of_true ?_ ?_
    · rw [checked_ok (show i64Min ≤ y - 1 ∧ y - 1 ≤ i64Max by rw [i64Min] at *; omega)]
      exact .ok _
    · rintro (⟨h, _⟩ | ⟨h, _⟩) <;> omega
  · by_cases hmin : z = i64Min
    · refine iff_of_false ?_ (not_not_intro (Or.inl ⟨by omega, hmin⟩))
      rw [checked_overflow (by omega)]
      exact not_returns_overflow
    · refine iff_of_true ?_ ?_
      · rw [checked_ok ⟨by omega, by omega⟩]
        exact .ok _
      · rintro (⟨_, h⟩ | ⟨h, _⟩)
        · exact hmin h
        · exact h1 h

theorem clamp_bounds (x : ℤ) (n : ℕ) : (clamp x 0 n).toNat ≤ n := by
  rw [clamp]
  omega

theorem substrChars_returns_iff {s : List Char} (hs : s.length < 2 ^ 61) {y z : ℤ}
    (hy : i64Min ≤ y ∧ y ≤ i64Max) (hz : i64Min ≤ z ∧ z ≤ i64Max) :
    Returns (substrChars s y z) ↔ ¬ SubstrOverflow s.length y z := by
  have hn : (0 : ℤ) ≤ s.length := Int.natCast_nonneg _
  have hn' : (s.length : ℤ) ≤ i64Max := by
    rw [i64Max]
    omega
  rw [← substrStart_returns_iff hn hn' hy hz]
  refine ⟨fun h => h.of_bind, fun h => h.bind fun start hstart => ?_⟩
  obtain ⟨hb, hmax, hmin⟩ := substrStart_bounds hz hstart
  refine (substrEnds_returns hb hmax hmin).bind fun ends _ => .ite (fun hlt => ?_)
    fun _ => .pure _
  rw [slice_ok ⟨hlt.le, clamp_bounds _ _⟩]
  exact .ok _

theorem intArg_range (args : List Value) (i : ℕ) {d : ℤ} (hd : i64Min ≤ d ∧ d ≤ i64Max) :
    i64Min ≤ intArg args i d ∧ intArg args i d ≤ i64Max := by
  unfold intArg
  split
  · exact toInt_range _
  · exact hd

theorem substr_returns_iff (name : String) (args : List Value)
    (hfit : ∀ v ∈ args, FitsMemory lib v) :
    Returns (substr lib name args) ↔ ¬ SubstrFaults lib args := by
  by_cases hlen : args.length < 1 ∨ 3 < args.length
  · refine iff_of_true ?_ ?_
    · rw [substr, arityBetween, if_pos hlen]
      exact .fail _
    · rintro ⟨hle, v, hv, _⟩
      have hpos := List.length_pos_of_mem (List.mem_of_mem_head? hv)
      omega
  cases args with
  | nil => exact absurd (Or.inl (by simp)) hlen
  | cons v rest =>
    rw [substr, arityBetween, if_neg hlen]
    change Returns (if isNull v then _ else _) ↔ _
    by_cases hnull : isNull v
    · rw [if_pos hnull]
      refine iff_of_true (.pure _) ?_
      rintro ⟨_, w, hw, hwn, _⟩
      rw [← Option.some.inj hw] at hwn
      exact hwn hnull
    · rw [if_neg hnull]
      have hiff := substrChars_returns_iff (hfit v List.mem_cons_self)
        (intArg_range (v :: rest) 1 (d := 1) (by decide))
        (intArg_range (v :: rest) 2 (d := i64Max) (by decide))
      constructor
      · rintro hret ⟨_, w, hw, _, hover⟩
        rw [← Option.some.inj hw] at hover
        exact hiff.mp hret.of_bind hover
      · intro hno
        have hover : ¬ SubstrOverflow (chars lib v).length (intArg (v :: rest) 1 1)
            (intArg (v :: rest) 2 i64Max) := fun h => hno ⟨by omega, v, rfl, hnull, h⟩
        exact (hiff.mpr hover).bind fun _ _ => .ok _

/-! ## ROUND and TRUNCATE -/

/-- Rounding depends on the number alone, not on its scale. -/
theorem Rounding.apply_congr (r : Rounding) {m m' j j' : ℕ}
    (h : m' * 10 ^ j = m * 10 ^ j') : r.apply m' j' = r.apply m j := by
  have hj : 0 < 10 ^ j := by positivity
  have hj' : 0 < 10 ^ j' := by positivity
  cases r with
  | midpointAwayFromZero =>
    calc
      (2 * m' + 10 ^ j') / (2 * 10 ^ j') =
          ((2 * m' + 10 ^ j') * 10 ^ j) / (2 * 10 ^ j' * 10 ^ j) :=
        (Nat.mul_div_mul_right _ _ hj).symm
      _ = ((2 * m + 10 ^ j) * 10 ^ j') / (2 * 10 ^ j * 10 ^ j') := by
        congr 1
        · rw [add_mul, mul_assoc, h]
          ring
        · ring
      _ = (2 * m + 10 ^ j) / (2 * 10 ^ j) := Nat.mul_div_mul_right _ _ hj'
  | toZero =>
    calc
      m' / 10 ^ j' = (m' * 10 ^ j) / (10 ^ j' * 10 ^ j) := (Nat.mul_div_mul_right _ _ hj).symm
      _ = (m * 10 ^ j') / (10 ^ j * 10 ^ j') := by rw [h, mul_comm (10 ^ j')]
      _ = m / 10 ^ j := Nat.mul_div_mul_right _ _ hj'

theorem Rounding.apply_le_one (r : Rounding) {m j : ℕ} (h : m ≤ 10 ^ j) : r.apply m j ≤ 1 := by
  have hj : 0 < 10 ^ j := by positivity
  cases r with
  | midpointAwayFromZero =>
    apply Nat.le_of_lt_succ
    rw [Rounding.apply, Nat.div_lt_iff_lt_mul (by omega)]
    omega
  | toZero =>
    apply Nat.le_of_lt_succ
    rw [Rounding.apply, Nat.div_lt_iff_lt_mul hj]
    omega

theorem toInt_powerOfTen {k : ℕ} (hk : k ≤ 15) : (Int64.ofInt (10 ^ k)).toInt = 10 ^ k := by
  have hle : (10 : ℤ) ^ k ≤ 10 ^ 15 := pow_le_pow_right₀ (by norm_num) hk
  have hpos : (0 : ℤ) < 10 ^ k := by positivity
  rw [Int64.toInt_ofInt]
  exact Int.bmod_eq_of_le (by norm_num; omega) (by norm_num; omega)

theorem powerOfTen_eq {k : ℕ} (hk : k ≤ 15) :
    (powerOfTen k).scale = 0 ∧ (powerOfTen k).mantissa = 10 ^ k := by
  refine ⟨rfl, ?_⟩
  change (Int64.ofInt (10 ^ k)).toInt.natAbs = 10 ^ k
  rw [toInt_powerOfTen hk, Int.natAbs_pow]
  rfl

/-- Rounding at a power of ten overflows exactly if the rounded number does. -/
theorem roundAt_returns_iff (r : Rounding) (d : Decimal) {k : ℕ} (hk : k ≤ 15) :
    Returns (roundAt lib r d k) ↔ r.apply d.mantissa (d.scale + k) * 10 ^ k < 2 ^ 96 := by
  obtain ⟨hscale, hmant⟩ := powerOfTen_eq hk
  have hmul (q : Decimal) (hq : lib.checkedDiv d (powerOfTen k) = some q) :
      Returns (roundAt lib r d k) ↔ r.apply q.mantissa q.scale * 10 ^ k < 2 ^ 96 := by
    obtain ⟨hzero, hround⟩ := lib.roundDp_zero r q
    have hnone := lib.mul_integer (lib.roundDp r 0 q) (powerOfTen k) hzero hscale
    rw [hround, hmant] at hnone
    have hreduce : roundAt lib r d k =
        ofDecimal (lib.checkedMul (lib.roundDp r 0 q) (powerOfTen k)) := by
      rw [roundAt, Library.div, hq]
      rfl
    rw [hreduce]
    cases hprod : lib.checkedMul (lib.roundDp r 0 q) (powerOfTen k) with
    | none =>
      exact iff_of_false not_returns_overflow (not_lt.mpr (hnone.mp hprod))
    | some p =>
      refine iff_of_true (.ok _) (not_le.mp fun hle => ?_)
      rw [hnone.mpr hle] at hprod
      cases hprod
  by_cases hexact : d.scale + k ≤ 28
  · obtain ⟨q, hq, heq⟩ := lib.div_exact d (powerOfTen k) k hscale hmant hexact
    rw [hmul q hq, r.apply_congr heq]
  · obtain ⟨q, hq, hsmall⟩ := lib.div_small d (powerOfTen k) k hscale hmant hk (by omega)
    rw [hmul q hq]
    have hpow : 10 ^ k ≤ 10 ^ 15 := Nat.pow_le_pow_right (by norm_num) hk
    have hfits {x : ℕ} (hx : x ≤ 1) : x * 10 ^ k < 2 ^ 96 :=
      calc
        x * 10 ^ k ≤ 1 * 10 ^ 15 := Nat.mul_le_mul hx hpow
        _ < 2 ^ 96 := by norm_num
    have hd : d.mantissa ≤ 10 ^ (d.scale + k) :=
      calc
        d.mantissa ≤ 10 ^ 29 := d.mantissa_lt.le.trans (by norm_num)
        _ ≤ 10 ^ (d.scale + k) := Nat.pow_le_pow_right (by norm_num) (by omega)
    exact iff_of_true (hfits (r.apply_le_one hsmall)) (hfits (r.apply_le_one hd))

theorem shiftOf_le (digits : ℤ) : shiftOf digits ≤ 15 := min_le_right _ _

theorem roundDecimal_returns_iff (r : Rounding) (d : Decimal) (digits : ℤ) :
    Returns (roundDecimal lib r d digits) ↔
      (digits < 0 → r.apply d.mantissa (d.scale + shiftOf digits) * 10 ^ shiftOf digits < 2 ^ 96) := by
  rw [roundDecimal]
  split_ifs with h
  · exact iff_of_true (.ok _) fun hneg => absurd h (not_le.mpr hneg)
  · rw [roundAt_returns_iff r d (shiftOf_le digits)]
    exact ⟨fun hlt _ => hlt, fun hlt => hlt (not_le.mp h)⟩

/-- Cut toward zero, a number stays below what it was. -/
theorem roundDecimal_toZero_returns (d : Decimal) (digits : ℤ) :
    Returns (roundDecimal lib .toZero d digits) := by
  apply (roundDecimal_returns_iff .toZero d digits).mpr
  intro _
  calc
    d.mantissa / 10 ^ (d.scale + shiftOf digits) * 10 ^ shiftOf digits ≤
        d.mantissa / 10 ^ shiftOf digits * 10 ^ shiftOf digits := by
      apply Nat.mul_le_mul_right
      apply Nat.div_le_div_left
      · exact Nat.pow_le_pow_right (by norm_num) (Nat.le_add_left _ _)
      · positivity
    _ ≤ d.mantissa := Nat.div_mul_le_self _ _
    _ < 2 ^ 96 := d.mantissa_lt

theorem truncateInt_returns (i : Int64) (digits : ℤ) : Returns (truncateInt i digits) := by
  refine .ite (fun _ => .ok _) fun _ => ?_
  obtain ⟨hmin, hmax⟩ := toInt_range i
  have hpos : (0 : ℤ) < 10 ^ shiftOf digits := by positivity
  have hbounds : (i64Min ≤ i.toInt.tdiv (10 ^ shiftOf digits) ∧
      i.toInt.tdiv (10 ^ shiftOf digits) ≤ i64Max) ∧
      i64Min ≤ i.toInt.tdiv (10 ^ shiftOf digits) * 10 ^ shiftOf digits ∧
      i.toInt.tdiv (10 ^ shiftOf digits) * 10 ^ shiftOf digits ≤ i64Max := by
    generalize (10 : ℤ) ^ shiftOf digits = p at hpos
    rw [i64Min, i64Max] at *
    rcases le_total 0 i.toInt with hi | hi
    · obtain ⟨h1, h2⟩ := Binary64.tdiv_bounds_of_nonneg hpos hi
      have h0 : 0 ≤ i.toInt.tdiv p := Int.tdiv_nonneg hi hpos.le
      have hle : i.toInt.tdiv p ≤ i.toInt.tdiv p * p := le_mul_of_one_le_right h0 hpos
      exact ⟨⟨by omega, by omega⟩, by omega, by omega⟩
    · obtain ⟨h1, h2⟩ := Binary64.tdiv_bounds_of_nonpos hpos hi
      have h0 : i.toInt.tdiv p ≤ 0 := by
        have hneg : 0 ≤ (-i.toInt).tdiv p := Int.tdiv_nonneg (by omega) hpos.le
        rw [Int.neg_tdiv] at hneg
        omega
      have hle : i.toInt.tdiv p * p ≤ i.toInt.tdiv p := by nlinarith
      exact ⟨⟨by omega, by omega⟩, by omega, by omega⟩
  change Returns (checked (i.toInt.tdiv (10 ^ shiftOf digits)) >>= _)
  rw [checked_ok hbounds.1]
  change Returns (checked (i.toInt.tdiv (10 ^ shiftOf digits) * 10 ^ shiftOf digits) >>= _)
  rw [checked_ok hbounds.2]
  exact .ok _

theorem truncate_returns (args : List Value) : Returns (truncate lib args) := by
  refine (exactArity_returns _ _ _).bind fun _ _ => (arg_returns _ _ _).bind fun v _ =>
    (arg_returns _ _ _).bind fun w _ => ?_
  have hdigits : Returns (truncateDigits w) := by
    unfold truncateDigits
    split
    · exact .ok _
    · exact .fail _
  refine hdigits.bind fun digits _ => ?_
  split
  · exact .pure _
  · exact truncateInt_returns _ _
  · exact (roundDecimal_toZero_returns _ _).bind fun _ _ => .pure _
  · exact .pure _
  · exact .fail _

theorem roundDigits_neg {hi : ℤ} (hhi : 0 ≤ hi) {v : Option Value} (h : roundDigits hi v < 0) :
    ∃ n : Int64, v = some (.int n) ∧ n.toInt < 0 := by
  unfold roundDigits at h
  split at h
  · next n =>
    refine ⟨n, rfl, ?_⟩
    rw [clamp] at h
    omega
  · exact absurd h (lt_irrefl 0)

theorem round_returns_iff (args : List Value) : Returns (round lib args) ↔ ¬ RoundFaults args := by
  by_cases hlen : args.length < 1 ∨ 2 < args.length
  · refine iff_of_true ?_ ?_
    · rw [round, arityBetween, if_pos hlen]
      exact .fail _
    · unfold RoundFaults
      split
      · exact absurd hlen (by simp)
      · exact not_false
  cases args with
  | nil => exact absurd (Or.inl (by simp)) hlen
  | cons v rest =>
    rw [round, arityBetween, if_neg hlen]
    cases v with
    | null => exact iff_of_true (.pure _) not_false
    | decimal d =>
      have hiff := @roundDecimal_returns_iff lib .midpointAwayFromZero d
        (roundDigits 28 (Value.decimal d :: rest)[1]?)
      change Returns (roundDecimal lib .midpointAwayFromZero d
        (roundDigits 28 (Value.decimal d :: rest)[1]?) >>= _) ↔ _
      constructor
      · intro hret hfault
        unfold RoundFaults at hfault
        split at hfault
        · next n heq =>
          cases heq
          have hneg : roundDigits 28 [Value.decimal d, .int n][1]? < 0 := by
            change clamp n.toInt (-15) 28 < 0
            rw [clamp]
            omega
          exact absurd (hiff.mp (Returns.of_bind hret) hneg) (not_lt.mpr hfault.2)
        · exact hfault
      · intro hno
        refine Returns.bind (hiff.mpr fun hneg => ?_) fun _ _ => .ok _
        obtain ⟨n, hn, hlt⟩ := roundDigits_neg (by norm_num) hneg
        cases rest with
        | nil => cases hn
        | cons w rest =>
          cases rest with
          | cons => exact absurd (Or.inr (by simp)) hlen
          | nil =>
            cases hn
            exact not_le.mp fun hle => hno ⟨hlt, hle⟩
    | _ =>
      refine iff_of_true ?_ not_false
      refine (Returns.ok ()).bind fun _ _ => (arg_returns _ _ _).bind fun w hw => ?_
      cases hw
      exact (asF64_returns _).bind fun _ _ => .pure _

/-! ## All functions -/

/-- A call of one of these functions returns unless it is `LOCATE` with a start below one,
`SUBSTR` with the most negative length in front of the text, `ABS` of the least integer, or
`ROUND` of a decimal beyond the greatest one. -/
theorem scalarFunction_returns_iff (lib : Library) (f : ScalarFn) (args : List Value)
    (hfit : ∀ v ∈ args, FitsMemory lib v) :
    ((∃ v, scalarFunction lib f args = .ok v) ∨
      ∃ text, scalarFunction lib f args = .error (.error text)) ↔ ¬ Faults lib f args := by
  change Returns (scalarFunction lib f args) ↔ _
  cases f with
  | locate => exact locate_returns_iff args hfit
  | substr => exact substr_returns_iff "SUBSTR" args hfit
  | substring => exact substr_returns_iff "SUBSTRING" args hfit
  | abs => exact abs_returns_iff args
  | round => exact round_returns_iff args
  | instr => exact iff_of_true (instr_returns args) not_false
  | lpad => exact iff_of_true (pad_returns true args) not_false
  | rpad => exact iff_of_true (pad_returns false args) not_false
  | truncate => exact iff_of_true (truncate_returns args) not_false
  | mod => exact iff_of_true (modulo_returns args) not_false
  | trim g => exact iff_of_true (trimFn_returns g args) not_false
  | decode => exact iff_of_true (decode_returns args) not_false
  | greatest => exact iff_of_true (extremum_returns true args) not_false
  | least => exact iff_of_true (extremum_returns false args) not_false
  | jsonExtract => exact iff_of_true (jsonFn_returns false args) not_false
  | jsonType => exact iff_of_true (jsonFn_returns true args) not_false

/-! ## A library -/

theorem Rounding.apply_le (r : Rounding) (m j : ℕ) : r.apply m j ≤ m := by
  have hj : 0 < 10 ^ j := by positivity
  cases r with
  | midpointAwayFromZero =>
    apply Nat.le_of_lt_succ
    rw [Rounding.apply, Nat.div_lt_iff_lt_mul (by positivity)]
    nlinarith
  | toZero => exact Nat.div_le_self _ _

def sampleRoundDp (r : Rounding) (places : ℕ) (d : Decimal) : Decimal :=
  { neg := d.neg
    mantissa := r.apply d.mantissa (d.scale - places)
    scale := min d.scale places
    mantissa_lt := (r.apply_le _ _).trans_lt d.mantissa_lt
    scale_le := (min_le_left _ _).trans d.scale_le }

def shiftRight (neg : Bool) (d : Decimal) (k : ℕ) : Decimal :=
  { neg := neg
    mantissa := d.mantissa / 10 ^ (d.scale + k - 28)
    scale := min (d.scale + k) 28
    mantissa_lt := (Nat.div_le_self _ _).trans_lt d.mantissa_lt
    scale_le := min_le_right _ _ }

/-- Quotients by powers of ten. -/
def sampleDiv (d p : Decimal) : Option Decimal :=
  let k := Nat.log 10 p.mantissa
  if p.scale = 0 ∧ p.mantissa = 10 ^ k then some (shiftRight (d.neg != p.neg) d k) else none

def sampleMul (a b : Decimal) : Option Decimal :=
  if h : a.mantissa * b.mantissa < 2 ^ 96 ∧ a.scale + b.scale ≤ 28 then
    some ⟨⟨a.neg != b.neg, a.mantissa * b.mantissa, a.scale + b.scale⟩, h.1, h.2⟩
  else
    none

theorem sampleDiv_power {p : Decimal} {k : ℕ} (hscale : p.scale = 0) (hmant : p.mantissa = 10 ^ k)
    (d : Decimal) : ∃ q, sampleDiv d p = some q ∧
      q.mantissa = d.mantissa / 10 ^ (d.scale + k - 28) ∧ q.scale = min (d.scale + k) 28 := by
  have hlog : Nat.log 10 p.mantissa = k := by
    rw [hmant]
    exact Nat.log_pow (by norm_num) k
  rw [sampleDiv, hlog, if_pos ⟨hscale, hmant⟩]
  exact ⟨_, rfl, rfl, rfl⟩

theorem sampleDiv_exact (d p : Decimal) (k : ℕ) (hscale : p.scale = 0) (hmant : p.mantissa = 10 ^ k)
    (hexact : d.scale + k ≤ 28) :
    ∃ q, sampleDiv d p = some q ∧ q.mantissa * 10 ^ (d.scale + k) = d.mantissa * 10 ^ q.scale := by
  obtain ⟨q, hq, hm, hs⟩ := sampleDiv_power hscale hmant d
  refine ⟨q, hq, ?_⟩
  rw [hm, hs, Nat.sub_eq_zero_of_le hexact, min_eq_left hexact, pow_zero, Nat.div_one]

theorem sampleDiv_small (d p : Decimal) (k : ℕ) (hscale : p.scale = 0) (hmant : p.mantissa = 10 ^ k)
    (_ : k ≤ 15) (hdeep : 28 < d.scale + k) :
    ∃ q, sampleDiv d p = some q ∧ q.mantissa ≤ 10 ^ q.scale := by
  obtain ⟨q, hq, hm, hs⟩ := sampleDiv_power hscale hmant d
  refine ⟨q, hq, ?_⟩
  rw [hm, hs, min_eq_right hdeep.le]
  apply Nat.div_le_of_le_mul
  calc
    d.mantissa ≤ 10 ^ (28 + 1) := d.mantissa_lt.le.trans (by norm_num)
    _ ≤ 10 ^ (28 + (d.scale + k - 28)) := Nat.pow_le_pow_right (by norm_num) (by omega)
    _ = 10 ^ (d.scale + k - 28) * 10 ^ 28 := by rw [pow_add, Nat.mul_comm]

theorem sampleMul_integer (a b : Decimal) (ha : a.scale = 0) (hb : b.scale = 0) :
    sampleMul a b = none ↔ 2 ^ 96 ≤ a.mantissa * b.mantissa := by
  rw [sampleMul]
  split_ifs with h
  · exact iff_of_false not_false (not_le.mpr h.1)
  · exact iff_of_true rfl (not_lt.mp fun hlt => h ⟨hlt, by omega⟩)

theorem sampleRoundDp_zero (r : Rounding) (d : Decimal) :
    (sampleRoundDp r 0 d).scale = 0 ∧
      (sampleRoundDp r 0 d).mantissa = r.apply d.mantissa d.scale :=
  ⟨min_eq_right (Nat.zero_le _), rfl⟩

/-- Formats and decimal arithmetic with the laws of the real ones. -/
def sampleLibrary : Library where
  toFormats := Json.sampleFormats
  displayF64 f := String.ofList (Json.floatChars f)
  displayF64Tenths f := String.ofList (Json.floatChars f)
  debug _ := ""
  intToF64 _ := Json.nan
  decimalToF64 _ := none
  absF64 f := f
  addF64 _ _ := Json.nan
  subF64 _ _ := Json.nan
  mulF64 _ _ := Json.nan
  divF64 _ _ := Json.nan
  remF64 _ _ := Json.nan
  powiTen _ := Json.nan
  roundF64 f := f
  truncF64 f := f
  fromF64Retain _ := none
  checkedAdd _ _ := none
  checkedSub _ _ := none
  checkedMul := sampleMul
  checkedDiv := sampleDiv
  checkedRem _ _ := none
  roundDp := sampleRoundDp
  roundDp_zero := sampleRoundDp_zero
  div_exact := sampleDiv_exact
  div_small := sampleDiv_small
  mul_integer := sampleMul_integer

/-- The greatest decimal. -/
def greatestDecimal : Decimal := ⟨⟨false, 2 ^ 96 - 1, 0⟩, by norm_num, by norm_num⟩

theorem scalarFunction_returns_iff_round :
    ((∃ v, scalarFunction sampleLibrary .round [.decimal greatestDecimal, .int 2] = .ok v) ∨
      ∃ text, scalarFunction sampleLibrary .round [.decimal greatestDecimal, .int 2] =
        .error (.error text)) ↔
      ¬ Faults sampleLibrary .round [.decimal greatestDecimal, .int 2] := by
  apply scalarFunction_returns_iff
  intro v hv
  rcases List.mem_pair.mp hv with rfl | rfl
  · change (Json.decimalChars greatestDecimal).length < 2 ^ 61
    decide
  · change (Json.showInt 2).length < 2 ^ 61
    decide

/-- Calls that return neither a value nor an error. -/
theorem scalarFunction_stops :
    scalarFunction sampleLibrary .locate [.str "a", .str "abc", .int 0] = .error .outOfRange ∧
    scalarFunction sampleLibrary .abs [.int Int64.minValue] = .error .overflow ∧
    scalarFunction sampleLibrary .substr [.str "abc", .int 0, .int Int64.minValue] =
      .error .overflow ∧
    scalarFunction sampleLibrary .substr [.str "abc", .int (-5), .int Int64.minValue] =
      .error .overflow ∧
    scalarFunction sampleLibrary .round [.decimal greatestDecimal, .int (-1)] =
      .error .overflow := by
  refine ⟨?_, ?_, ?_, ?_, ?_⟩
  · rfl
  · rfl
  · rfl
  · rfl
  · rfl

end Docsql.Scalar
