import Docsql.Lib.KeyedBag
import Docsql.EncodeRoundTrip

/-!
# Row identity and set operations

`row_key` tells rows apart by their encoded bytes.  UNION, INTERSECT and EXCEPT,
DISTINCT, GROUP BY, PARTITION BY and the DISTINCT aggregates all go by these bytes and
not by `cmp_values`.
-/

namespace Docsql

open Lib.KeyedBag

abbrev ResultRow := List Value

structure QueryResult where
  columns : List String
  rows : List ResultRow

inductive SetOperator where
  | union
  | intersect
  | except
  | minus
deriving DecidableEq

section Codec

variable (codec : DecimalCodec)

/-- `encode_to_vec(v).unwrap_or_default()`. -/
def valueKey (v : Value) : List UInt8 := (encode codec v).toOption.getD []

def rowKey (row : ResultRow) : List UInt8 := valueKey codec (.array row)

def dedupRows (rows : List ResultRow) : List ResultRow := keepFirst (rowKey codec) [] rows

def rowCounts (rows : List ResultRow) : List UInt8 → ℕ := tally (rowKey codec) rows

def combineRows (all : Bool) (l r : List ResultRow) : SetOperator → List ResultRow
  | .union =>
    let rows := l ++ r
    if all then rows else dedupRows codec rows
  | .intersect =>
    let out := keepMatched (rowKey codec) (rowCounts codec r) l
    if all then out else dedupRows codec out
  | .except | .minus =>
    let out := keepUnmatched (rowKey codec) (rowCounts codec r) l
    if all then out else dedupRows codec out

def setOperation (op : SetOperator) (all : Bool) (lr rr : QueryResult) :
    Except String QueryResult :=
  let left := lr.columns.length
  let right := rr.columns.length
  if left ≠ right then
    .error s!"set operation arms have different column counts (left {left}, right {right})"
  else .ok ⟨lr.columns, combineRows codec all lr.rows rr.rows op⟩

/-- SELECT DISTINCT after the keys in `seen`; here a row that does not encode is an error. -/
def selectDistinct : List (List UInt8) → List ResultRow → Except EncodeError (List ResultRow)
  | _, [] => .ok []
  | seen, row :: rows => do
    let key ← encode codec (.array row)
    if key ∈ seen then selectDistinct seen rows
    else
      let rest ← selectDistinct (key :: seen) rows
      return row :: rest

/-- GROUP BY and PARTITION BY over documents with their evaluated keys. -/
def groupRows {δ : Type} (docs : List (ResultRow × δ)) :
    List (List UInt8 × List (ResultRow × δ)) :=
  groupBy (fun doc => rowKey codec doc.1) docs

def Value.isNull : Value → Bool
  | .null => true
  | _ => false

/-- The values a DISTINCT aggregate combines. -/
def distinctArgs (vals : List Value) : List Value :=
  keepFirst (valueKey codec) [] (vals.filter fun v => !v.isNull)

end Codec

section Identity

variable {codec : DecimalCodec}

theorem valueKey_of_ok {v : Value} {bs : List UInt8} (h : encode codec v = .ok bs) :
    valueKey codec v = bs := by
  rw [valueKey, h]
  rfl

/-- Values that encode have the same key only when they are the same. -/
theorem valueKey_eq_iff {v w : Value} (hv : v.WF) (hw : w.WF)
    (hencv : ∃ bs, encode codec v = .ok bs) (hencw : ∃ bs, encode codec w = .ok bs) :
    valueKey codec v = valueKey codec w ↔ v = w := by
  constructor
  · intro hsame
    obtain ⟨bs, hbs⟩ := hencv
    obtain ⟨bs', hbs'⟩ := hencw
    rw [valueKey_of_ok hbs, valueKey_of_ok hbs'] at hsame
    have hround := decode_of_encode hv hbs
    rw [hsame, decode_of_encode hw hbs'] at hround
    exact (Except.ok.inj hround).symm
  · rintro rfl
    rfl

theorem cmpValues_of_valueKey_eq {v w : Value} (hv : v.WF) (hw : w.WF)
    (hencv : ∃ bs, encode codec v = .ok bs) (hencw : ∃ bs, encode codec w = .ok bs)
    (hsame : valueKey codec v = valueKey codec w) : cmpValues v w = .eq := by
  rw [(valueKey_eq_iff hv hw hencv hencw).1 hsame]
  exact cmpValues_self w

theorem selectDistinct_eq {rows : List ResultRow}
    (henc : ∀ row ∈ rows, ∃ bs, encode codec (.array row) = .ok bs) (seen : List (List UInt8)) :
    selectDistinct codec seen rows = .ok (keepFirst (rowKey codec) seen rows) := by
  induction rows generalizing seen with
  | nil => rfl
  | cons row rows ih =>
    obtain ⟨⟨bs, hbs⟩, henc⟩ := List.forall_mem_cons.1 henc
    have hkey : rowKey codec row = bs := valueKey_of_ok hbs
    rw [selectDistinct, hbs, keepFirst, hkey]
    show (if bs ∈ seen then _ else _) = _
    split
    · exact ih henc seen
    · rw [ih henc]
      rfl

end Identity

/-! ## Multiplicities -/

/-- The copies of a row, by its key. -/
def copies (codec : DecimalCodec) (row : ResultRow) (rows : List ResultRow) : ℕ :=
  mult (rowKey codec) (rowKey codec row) rows

/-- The copies a set operation leaves of a row that is `m` times on the left and `n`
times on the right.  EXCEPT without ALL is open for a row that is on both sides and more
often on the left. -/
def Combines (all : Bool) (m n out : ℕ) : SetOperator → Prop
  | .union => if all then out = m + n else out = min 1 (m + n)
  | .intersect => if all then out = min m n else out = min 1 (min m n)
  | .except | .minus =>
    if all then out = m - n
    else out ≤ 1 ∧ (n = 0 → out = min 1 m) ∧ (m ≤ n → out = 0)

section SetOperation

variable {codec : DecimalCodec}

theorem combineRows_copies (op : SetOperator) (all : Bool) (l r : List ResultRow)
    (row : ResultRow) :
    Combines all (copies codec row l) (copies codec row r)
      (copies codec row (combineRows codec all l r op)) op := by
  unfold copies
  cases op with
  | union =>
    cases all with
    | true => exact mult_append l r
    | false =>
      have hfirst := mult_keepFirst_nil (rowKey codec) (rowKey codec row) (l ++ r)
      rw [mult_append] at hfirst
      exact hfirst
  | intersect =>
    have hmatched := mult_keepMatched (rowKey codec) (rowKey codec row) (rowCounts codec r) l
    rw [rowCounts, tally_apply] at hmatched
    cases all with
    | true => exact hmatched
    | false =>
      refine (mult_keepFirst_nil _ _ _).trans ?_
      rw [rowCounts, hmatched]
  | except | minus =>
    have hleft := mult_keepUnmatched (rowKey codec) (rowKey codec row) (rowCounts codec r) l
    rw [rowCounts, tally_apply] at hleft
    cases all with
    | true => exact hleft
    | false =>
      have hfirst := mult_keepFirst_nil (rowKey codec) (rowKey codec row)
        (keepUnmatched (rowKey codec) (tally (rowKey codec) r) l)
      rw [hleft] at hfirst
      refine ⟨?_, fun hnone => ?_, fun hfew => ?_⟩
      · exact hfirst.trans_le (min_le_left 1 _)
      · rw [hnone, Nat.sub_zero] at hfirst
        exact hfirst
      · rw [Nat.sub_eq_zero_of_le hfew] at hfirst
        exact hfirst

theorem mem_combineRows {op : SetOperator} {all : Bool} {l r : List ResultRow} {row : ResultRow}
    (h : row ∈ combineRows codec all l r op) : row ∈ l ++ r := by
  have hfirst {rows : List ResultRow} (hin : row ∈ dedupRows codec rows) : row ∈ rows :=
    (keepFirst_sublist _ _).mem hin
  cases op with
  | union =>
    cases all with
    | true => exact h
    | false => exact hfirst h
  | intersect =>
    refine List.mem_append_left r
      ((keepMatched_sublist (rowKey codec) (rowCounts codec r) l).mem ?_)
    cases all with
    | true => exact h
    | false => exact hfirst h
  | except | minus =>
    refine List.mem_append_left r
      ((keepUnmatched_sublist (rowKey codec) (rowCounts codec r) l).mem ?_)
    cases all with
    | true => exact h
    | false => exact hfirst h

end SetOperation

/-- The rows of a set operation, the identity they are counted by, and the other places
that use it. -/
theorem row_identity_by_bytes (codec : DecimalCodec) :
    (∀ op all (lr rr : QueryResult), lr.columns.length = rr.columns.length →
      ∃ out, setOperation codec op all lr rr = .ok out ∧ out.columns = lr.columns ∧
        (∀ row ∈ out.rows, row ∈ lr.rows ++ rr.rows) ∧
        ∀ row, Combines all (copies codec row lr.rows) (copies codec row rr.rows)
          (copies codec row out.rows) op) ∧
    (∀ rows, (∀ row ∈ rows, ∃ bs, encode codec (.array row) = .ok bs) →
      ∃ out, selectDistinct codec [] rows = .ok out ∧ (∀ row ∈ out, row ∈ rows) ∧
        ∀ row, copies codec row out = min 1 (copies codec row rows)) ∧
    (∀ (δ : Type) (docs : List (ResultRow × δ)), ((groupRows codec docs).map Prod.fst).Nodup ∧
      ∀ key members, (key, members) ∈ groupRows codec docs ↔
        (∃ doc ∈ docs, rowKey codec doc.1 = key) ∧
          members = docs.filter fun doc => rowKey codec doc.1 = key) ∧
    (∀ vals v,
      mult (valueKey codec) (valueKey codec v) (distinctArgs codec vals) =
        min 1 (mult (valueKey codec) (valueKey codec v) (vals.filter fun w => !w.isNull))) ∧
    ∀ v w : Value, v.WF → w.WF → (∃ bs, encode codec v = .ok bs) →
      (∃ bs, encode codec w = .ok bs) →
      (valueKey codec v = valueKey codec w ↔ v = w) ∧
        (valueKey codec v = valueKey codec w → cmpValues v w = .eq) := by
  refine ⟨fun op all lr rr hwidth => ?_, fun rows henc => ?_, fun δ docs => ?_, fun vals v => ?_,
    fun v w hv hw hencv hencw => ?_⟩
  · refine ⟨⟨lr.columns, combineRows codec all lr.rows rr.rows op⟩, ?_, rfl, ?_, ?_⟩
    · exact if_neg (not_not.2 hwidth)
    · exact fun row hrow => mem_combineRows hrow
    · exact combineRows_copies op all lr.rows rr.rows
  · refine ⟨_, selectDistinct_eq henc [], fun row hrow => ?_, fun row => ?_⟩
    · exact (keepFirst_sublist _ _).mem hrow
    · exact mult_keepFirst_nil _ _ rows
  · exact ⟨keys_groupBy_nodup docs, fun key members => mem_groupBy⟩
  · exact mult_keepFirst_nil _ _ _
  · exact ⟨valueKey_eq_iff hv hw hencv hencw, cmpValues_of_valueKey_eq hv hw hencv hencw⟩

def intThree : Value := .int 3

def floatThree : Value := .float (.ofFields false 1024 (2 ^ 51))

/-- UNION of one row with itself, and the two rows that compare equal. -/
theorem row_identity_by_bytes_union :
    intThree.WF ∧ floatThree.WF ∧
      (∃ out, setOperation rustDecimal .union false ⟨["n"], [[intThree]]⟩ ⟨["n"], [[intThree]]⟩ =
        .ok out ∧ copies rustDecimal [intThree] out.rows = 1) ∧
      valueKey rustDecimal intThree ≠ valueKey rustDecimal floatThree := by
  obtain ⟨hset, -, -, -, hidentity⟩ := row_identity_by_bytes rustDecimal
  refine ⟨trivial, trivial, ?_, ?_⟩
  · obtain ⟨out, hok, -, -, hcopies⟩ := hset .union false ⟨["n"], [[intThree]]⟩
      ⟨["n"], [[intThree]]⟩ rfl
    exact ⟨out, hok, hcopies [intThree]⟩
  · intro hsame
    have heq := (hidentity intThree floatThree trivial trivial ⟨_, rfl⟩ ⟨_, rfl⟩).1.1 hsame
    cases heq

/-- `3 = 3.0` holds for the operator, but UNION returns both, and EXCEPT returns a row
of the right side that the left side holds twice. -/
theorem equal_rows_told_apart :
    cmpValues intThree floatThree = .eq ∧
      setOperation rustDecimal .union false ⟨["n"], [[intThree]]⟩ ⟨["n"], [[floatThree]]⟩ =
        .ok ⟨["n"], [[intThree], [floatThree]]⟩ ∧
      setOperation rustDecimal .except false ⟨["n"], [[intThree], [intThree]]⟩
        ⟨["n"], [[intThree]]⟩ = .ok ⟨["n"], [[intThree]]⟩ := by
  exact ⟨by decide +kernel, rfl, rfl⟩

end Docsql
