import Docsql.Lib.StateExcept
import Docsql.Window.Aggregate

/-!
# The growing fold and the batch evaluator

Pushing the rows of a frame one by one and taking the snapshot is the batch aggregate of the
frame.
-/

namespace Docsql.Window

open Scalar (Eval Library index isNull isDecimal asDecimal valueToText)
open Lib (firstBest firstBest_concat)
open Lib.KeyedBag (keepFirst keepFirst_sublist)

/-! ## Blocks of rows -/

section Blocks

variable {α : Type}

/-- The rows from `lo` up to, but not with, `hi`. -/
def block (rows : List α) (lo hi : ℕ) : List α := (rows.take hi).drop lo

/-- The same rows with their positions. -/
def numbered (rows : List α) (lo hi : ℕ) : List (ℕ × α) :=
  (List.range' lo (hi - lo)).zip (block rows lo hi)

variable {rows : List α} {lo mid hi : ℕ}

theorem length_block (h : hi ≤ rows.length) : (block rows lo hi).length = hi - lo := by
  simp [block, h]

theorem block_self (rows : List α) (lo : ℕ) : block rows lo lo = [] := by
  rw [block, List.drop_eq_nil_iff]
  exact List.length_take_le _ _

theorem block_cons (hlt : lo < hi) (h : hi ≤ rows.length) :
    block rows lo hi = rows[lo] :: block rows (lo + 1) hi := by
  unfold block
  rw [List.drop_eq_getElem_cons (by simp; omega), List.getElem_take]

theorem block_append (hlo : lo ≤ mid) (hhi : mid ≤ hi) (h : hi ≤ rows.length) :
    block rows lo hi = block rows lo mid ++ block rows mid hi := by
  induction hd : mid - lo generalizing lo with
  | zero =>
    obtain rfl : lo = mid := by omega
    rw [block_self, List.nil_append]
  | succ d ih =>
    rw [block_cons (show lo < hi by omega) h, block_cons (show lo < mid by omega) (hhi.trans h),
      List.cons_append, ih (by omega) (by omega)]

theorem block_concat (hlt : lo ≤ hi) (h : hi < rows.length) :
    block rows lo (hi + 1) = block rows lo hi ++ [rows[hi]] := by
  rw [block_append hlt hi.le_succ h, block_cons hi.lt_succ_self h, block_self]

theorem block_block (rows : List α) (lo hi : ℕ) : block rows lo hi <:+: rows :=
  (List.drop_suffix _ _).isInfix.trans (List.take_prefix _ _).isInfix

theorem numbered_cons (hlt : lo < hi) (h : hi ≤ rows.length) :
    numbered rows lo hi = (lo, rows[lo]) :: numbered rows (lo + 1) hi := by
  obtain ⟨d, rfl⟩ : ∃ d, hi = lo + 1 + d := ⟨hi - (lo + 1), by omega⟩
  unfold numbered
  rw [block_cons hlt h, show lo + 1 + d - lo = d + 1 by omega, Nat.add_sub_cancel_left,
    List.range'_succ, List.zip_cons_cons]

theorem numbered_self (rows : List α) (lo : ℕ) : numbered rows lo lo = [] := by
  rw [numbered, block_self, List.zip_nil_right]

theorem map_numbered (h : hi ≤ rows.length) :
    (numbered rows lo hi).map Prod.snd = block rows lo hi := by
  unfold numbered
  rw [List.map_snd_zip]
  rw [length_block h, List.length_range']

theorem numbered_append (hlo : lo ≤ mid) (hhi : mid ≤ hi) (h : hi ≤ rows.length) :
    numbered rows lo hi = numbered rows lo mid ++ numbered rows mid hi := by
  induction hd : mid - lo generalizing lo with
  | zero =>
    obtain rfl : lo = mid := by omega
    rw [numbered_self, List.nil_append]
  | succ d ih =>
    rw [numbered_cons (show lo < hi by omega) h,
      numbered_cons (show lo < mid by omega) (hhi.trans h), List.cons_append,
      ih (by omega) (by omega)]

/-- A loop over positions is a loop over rows. -/
theorem foldlM_index {σ : Type} (f : σ → ℕ → α → Eval σ) (h : hi ≤ rows.length) (st : σ) :
    (List.range' lo (hi - lo)).foldlM (fun st r => do f st r (← index rows r)) st =
      (numbered rows lo hi).foldlM (fun st x => f st x.1 x.2) st := by
  induction hd : hi - lo generalizing lo st with
  | zero => rw [numbered, hd]; rfl
  | succ d ih =>
    have hlt : lo < hi := by omega
    rw [List.range'_succ, numbered_cons hlt h, List.foldlM_cons, List.foldlM_cons]
    have hindex : index rows lo = .ok rows[lo] := by
      rw [index, List.getElem?_eq_getElem]
    rw [hindex]
    change (f st lo rows[lo] >>= _) = (f st lo rows[lo] >>= _)
    congr 1
    funext st'
    exact ih st' (by omega)

end Blocks

/-! ## What a row contributes -/

/-- The argument of a row, unless it is excluded or NULL. -/
def nonNull (row : Bool × Option Value) : Option Value := row.2.filter fun v => !isNull v

/-- The arguments in the frame from `lo` up to, but not with, `hi`. -/
def args (rows : List (Bool × Option Value)) (lo hi : ℕ) : List Value :=
  (block rows lo hi).filterMap nonNull

/-- An Int or a Decimal. -/
def Exact : Value → Prop
  | .int _ | .decimal _ => True
  | _ => False

theorem Exact.ne_null {v : Value} (h : Exact v) : isNull v = false := by
  cases v <;> first | rfl | exact h.elim

theorem Exact.asDecimal {v : Value} (lib : Library) (h : Exact v) :
    ∃ d, asDecimal lib v = .ok d := by
  cases v <;> first | exact h.elim | exact ⟨_, rfl⟩

theorem Exact.encode {v : Value} (codec : DecimalCodec) (h : Exact v) :
    ∃ bytes, encode codec v = .ok bytes := by
  cases v <;> first | exact h.elim | exact ⟨_, rfl⟩

section Folds

variable {codec : DecimalCodec} {lib : Library} {kind : AggKind}

/-! ## Sums -/

/-- What a sum of Int and Decimal values can be. -/
def SumValue : Value → Prop
  | .null | .int _ | .decimal _ => True
  | _ => False

theorem combineValues_ok {dec : Decimal → Decimal → Option Decimal}
    {flt : Binary64 → Binary64 → Binary64} {int : ℤ → ℤ → ℤ} {s v : Value} (hs : SumValue s)
    (hv : Exact v) : ∃ s', combineValues lib dec flt int s v = .ok s' ∧ SumValue s' := by
  have helim : ∀ d : Option Decimal, SumValue (d.elim .null .decimal) := by
    intro d
    cases d <;> trivial
  have hint : ∀ x, SumValue (Scalar.checkedI64 x) := by
    intro x
    unfold Scalar.checkedI64
    split_ifs <;> trivial
  cases v with
  | int y =>
    cases s with
    | null => exact ⟨.null, rfl, trivial⟩
    | int x => exact ⟨_, rfl, hint _⟩
    | decimal d => exact ⟨_, rfl, helim _⟩
    | _ => exact hs.elim
  | decimal e =>
    cases s with
    | null => exact ⟨.null, rfl, trivial⟩
    | int x => exact ⟨_, rfl, helim _⟩
    | decimal d => exact ⟨_, rfl, helim _⟩
    | _ => exact hs.elim
  | _ => exact hv.elim

theorem sum_ok {vals : List Value} (h : ∀ v ∈ vals, Exact v) {s : Value} (hs : SumValue s) :
    ∃ s', vals.foldlM (addValues lib) s = .ok s' ∧ SumValue s' := by
  induction vals generalizing s with
  | nil => exact ⟨s, rfl, hs⟩
  | cons v vals ih =>
    obtain ⟨next, hnext, hsum⟩ := @combineValues_ok lib lib.checkedAdd lib.addF64 (· + ·) s v hs
      (h v List.mem_cons_self)
    rw [List.foldlM_cons, addValues, hnext]
    exact ih (fun w hw => h w (List.mem_cons_of_mem v hw)) hsum

/-! ## The state after the arguments -/

/-- `AVG` has folded these values. -/
def AvgOf (lib : Library) (vals : List Value) (a : Avg) : Prop :=
  if vals.any isDecimal then
    a.decMode = true ∧ vals.foldlM (Avg.addValue lib) (.ofInt 0) = .ok a.dec
  else a.decMode = false ∧ a.vals = vals ∧
    vals.foldlM (fun acc v => return lib.addF64 acc (← Avg.toF64 lib v)) .zero = .ok a.f64

/-- The fold of the call has taken these values. -/
def Folded (lib : Library) (kind : AggKind) (vals : List Value) (st : RunningAgg) : Prop :=
  match kind.op with
  | .count => True
  | .sum => (vals = [] ∧ st.sum = none) ∨
      vals ≠ [] ∧ ∃ s, st.sum = some s ∧ vals.foldlM (addValues lib) (.int 0) = .ok s
  | .avg => AvgOf lib vals st.avg
  | .min => st.min = firstBest (beats .gt) vals
  | .max => st.max = firstBest (beats .lt) vals
  | .groupConcat => st.concatAny = !vals.isEmpty ∧
      st.concat = (kind.sep.getD ",").intercalate (vals.map (valueToText lib))

/-- An exact average exists where one is asked for. -/
def AvgRuns (lib : Library) (kind : AggKind) (vals : List Value) : Prop :=
  kind.op = .avg → vals.any isDecimal = true →
    ∃ d, vals.foldlM (Avg.addValue lib) (.ofInt 0) = .ok d

theorem AvgRuns.init {vals : List Value} {v : Value} (h : AvgRuns lib kind (vals ++ [v])) :
    AvgRuns lib kind vals := by
  intro hop hdec
  obtain ⟨d, hd⟩ := h hop (by simp [hdec])
  rw [List.foldlM_append] at hd
  obtain ⟨acc, hacc, -⟩ := Except.bind_eq_ok_iff.mp hd
  exact ⟨acc, hacc⟩

theorem AvgOf.push {vals : List Value} {a : Avg} {v : Value} (ha : AvgOf lib vals a) (hv : Exact v)
    (hruns : (vals ++ [v]).any isDecimal = true →
      ∃ d, (vals ++ [v]).foldlM (Avg.addValue lib) (.ofInt 0) = .ok d) :
    ∃ a', a.push lib v = .ok a' ∧ AvgOf lib (vals ++ [v]) a' := by
  unfold AvgOf at ha ⊢
  cases v with
  | decimal d =>
    have hany : (vals ++ [Value.decimal d]).any isDecimal = true := by simp [isDecimal]
    obtain ⟨total, htotal⟩ := hruns hany
    have htotal' := htotal
    rw [List.foldlM_append] at htotal'
    obtain ⟨acc, hacc, hlast⟩ := Except.bind_eq_ok_iff.mp htotal'
    rw [List.foldlM_cons] at hlast
    obtain ⟨next, hnext, hpure⟩ := Except.bind_eq_ok_iff.mp hlast
    obtain rfl := Except.ok.inj hpure
    have hdec : Avg.addDec lib acc d = .ok next := hnext
    simp only [if_pos hany, Avg.push]
    split_ifs at ha with hold
    · obtain ⟨hmode, hfold⟩ := ha
      obtain rfl := Except.ok.inj (hacc.symm.trans hfold)
      rw [if_pos hmode]
      change ∃ a', (Avg.addDec lib a.dec d >>= _) = _ ∧ _
      rw [hdec]
      exact ⟨_, rfl, rfl, htotal⟩
    · obtain ⟨hmode, hvs, -⟩ := ha
      rw [if_neg (by simp [hmode]), hvs, hacc]
      change ∃ a', (Avg.addDec lib acc d >>= _) = _ ∧ _
      rw [hdec]
      exact ⟨_, rfl, rfl, htotal⟩
  | int i =>
    have hany : (vals ++ [Value.int i]).any isDecimal = vals.any isDecimal := by simp [isDecimal]
    rw [hany] at hruns ⊢
    split_ifs at ha ⊢ with hold
    · obtain ⟨hmode, hfold⟩ := ha
      obtain ⟨total, htotal⟩ := hruns hold
      have htotal' := htotal
      rw [List.foldlM_append, hfold] at htotal'
      change (Avg.addValue lib a.dec (.int i) >>= pure) = _ at htotal'
      rw [bind_pure] at htotal'
      unfold Avg.push
      dsimp only
      rw [if_pos hmode, htotal']
      exact ⟨_, rfl, hmode, htotal⟩
    · obtain ⟨hmode, hvs, hfold⟩ := ha
      unfold Avg.push
      dsimp only
      rw [if_neg (by simp [hmode])]
      refine ⟨_, rfl, hmode, by rw [hvs], ?_⟩
      rw [List.foldlM_append, hfold]
      rfl
  | _ => exact hv.elim

theorem keepBest_firstBest (beaten : Ordering) (vals : List Value) (v : Value) :
    keepBest beaten (firstBest (beats beaten) vals) v =
      firstBest (beats beaten) (vals ++ [v]) := by
  rw [firstBest_concat]
  cases firstBest (beats beaten) vals with
  | none => rfl
  | some m =>
    change (if cmpValues m v = beaten then some v else some m) =
      some (if (cmpValues m v == beaten) = true then v else m)
    by_cases h : cmpValues m v = beaten <;> simp [h]

/-- One value more. -/
theorem Folded.fold {vals : List Value} {st : RunningAgg} {v : Value}
    (h : Folded lib kind vals st) (hvals : ∀ w ∈ vals, Exact w) (hv : Exact v)
    (hruns : AvgRuns lib kind (vals ++ [v])) :
    ∃ st', st.fold lib kind v = .ok st' ∧ Folded lib kind (vals ++ [v]) st' ∧
      st'.kept = st.kept ∧ st'.seen = st.seen ∧ st'.nonnull = st.nonnull + 1 := by
  unfold Folded at h ⊢
  unfold RunningAgg.fold
  cases hop : kind.op with
  | count => exact ⟨_, rfl, trivial, rfl, rfl, rfl⟩
  | sum =>
    rw [hop] at h
    have hall : ∀ w ∈ vals ++ [v], Exact w := by
      intro w hw
      rcases List.mem_append.mp hw with hw | hw
      · exact hvals w hw
      · exact List.mem_singleton.mp hw ▸ hv
    obtain ⟨s', hs', -⟩ := @sum_ok lib _ hall (.int 0) trivial
    have hs := hs'
    rw [List.foldlM_append] at hs
    obtain ⟨s, hfold, hstep⟩ := Except.bind_eq_ok_iff.mp hs
    rw [List.foldlM_cons] at hstep
    obtain ⟨next, hnext, hpure⟩ := Except.bind_eq_ok_iff.mp hstep
    obtain rfl := Except.ok.inj hpure
    have hsum : st.sum.getD (.int 0) = s := by
      rcases h with ⟨rfl, hnone⟩ | ⟨-, s₀, hsome, hfold'⟩
      · rw [hnone]
        exact Except.ok.inj hfold
      · rw [hsome]
        exact Except.ok.inj (hfold'.symm.trans hfold)
    dsimp only
    rw [pushSum, hsum, hnext]
    exact ⟨_, rfl, .inr ⟨by simp, next, rfl, hs'⟩, rfl, rfl, rfl⟩
  | avg =>
    rw [hop] at h
    obtain ⟨a', hpush, ha'⟩ := AvgOf.push h hv (hruns hop)
    dsimp only
    rw [hpush]
    exact ⟨_, rfl, ha', rfl, rfl, rfl⟩
  | min =>
    rw [hop] at h
    refine ⟨_, rfl, ?_, rfl, rfl, rfl⟩
    dsimp only at h ⊢
    rw [h, keepBest_firstBest]
  | max =>
    rw [hop] at h
    refine ⟨_, rfl, ?_, rfl, rfl, rfl⟩
    dsimp only at h ⊢
    rw [h, keepBest_firstBest]
  | groupConcat =>
    rw [hop] at h
    obtain ⟨hany, htext⟩ := h
    refine ⟨_, rfl, ⟨by simp, ?_⟩, rfl, rfl, rfl⟩
    dsimp only
    rw [hany, htext]
    cases vals with
    | nil => simp
    | cons w vals =>
      rw [if_pos (by rfl), List.map_append, String.intercalate_append_of_ne_nil (by simp) (by simp)]
      simp

/-- The snapshot is the batch result. -/
theorem Folded.snapshot {vals : List Value} {st : RunningAgg} {kept : ℕ}
    (h : Folded lib kind vals st) (hkept : st.kept = kept) (hnonnull : st.nonnull = vals.length) :
    combineAgg lib kind kept vals = .ok (st.snapshot lib kind) := by
  unfold Folded at h
  unfold combineAgg RunningAgg.snapshot
  cases hop : kind.op with
  | count =>
    dsimp only
    rw [hkept, hnonnull]
    cases kind.countStar <;> rfl
  | sum =>
    rw [hop] at h
    dsimp only
    rcases h with ⟨rfl, hnone⟩ | ⟨hne, s, hsome, hfold⟩
    · rw [if_pos rfl, hnone]
      rfl
    · rw [if_neg hne, hsome, hfold]
      rfl
  | avg =>
    rw [hop] at h
    dsimp only [AvgOf, Avg.value] at h ⊢
    rw [hnonnull]
    by_cases hnil : vals = []
    · rw [if_pos hnil, hnil]
      rfl
    · have hne : ((vals.length : ℕ) : ℤ) ≠ 0 := by simpa using hnil
      rw [if_neg hnil, if_neg hne]
      split_ifs at h ⊢ with hdec hmode hmode
      · rw [h.2]
        rfl
      · exact absurd h.1 hmode
      · exact absurd hmode (by simp [h.1])
      · rw [h.2.2]
        rfl
  | min =>
    rw [hop] at h
    exact congrArg (fun m => Except.ok (m.getD Value.null)) h.symm
  | max =>
    rw [hop] at h
    exact congrArg (fun m => Except.ok (m.getD Value.null)) h.symm
  | groupConcat =>
    rw [hop] at h
    obtain ⟨hany, htext⟩ := h
    dsimp only
    rw [hany, htext]
    by_cases hnil : vals = []
    · simp [hnil]
      rfl
    · simp [hnil]
      rfl

/-! ## Rows -/

/-- The values an aggregate combines. -/
def combined (codec : DecimalCodec) (kind : AggKind) (vals : List Value) : List Value :=
  if kind.distinct then keepFirst (valueKey codec) [] vals else vals

theorem keepFirst_concat (seen : List (List UInt8)) (xs : List Value) (x : Value) :
    keepFirst (valueKey codec) seen (xs ++ [x]) = keepFirst (valueKey codec) seen xs ++
      if valueKey codec x ∈ seen ∨ ∃ y ∈ xs, valueKey codec y = valueKey codec x then [] else [x] := by
  induction xs generalizing seen with
  | nil =>
    by_cases hx : valueKey codec x ∈ seen <;> simp [keepFirst, hx]
  | cons y xs ih =>
    rw [List.cons_append, keepFirst, keepFirst]
    by_cases hy : valueKey codec y ∈ seen
    · rw [if_pos hy, if_pos hy, ih]
      congr 1
      refine if_congr ?_ rfl rfl
      constructor
      · rintro (hx | ⟨z, hz, hzx⟩)
        · exact .inl hx
        · exact .inr ⟨z, List.mem_cons_of_mem y hz, hzx⟩
      · rintro (hx | ⟨z, hz, hzx⟩)
        · exact .inl hx
        · rcases List.mem_cons.mp hz with rfl | hz
          · exact .inl (hzx ▸ hy)
          · exact .inr ⟨z, hz, hzx⟩
    · rw [if_neg hy, if_neg hy, ih, List.cons_append]
      congr 2
      refine if_congr ?_ rfl rfl
      simp only [List.mem_cons, exists_eq_or_imp, eq_comm (a := valueKey codec x)]
      tauto

/-- The rows have been pushed. -/
structure Pushed (codec : DecimalCodec) (lib : Library) (kind : AggKind)
    (rows : List (Bool × Option Value)) (st : RunningAgg) : Prop where
  folded : Folded lib kind (combined codec kind (rows.filterMap nonNull)) st
  kept : st.kept = (rows.countP (·.1) : ℕ)
  nonnull : st.nonnull = (combined codec kind (rows.filterMap nonNull)).length
  seen : kind.distinct = true →
    ∀ k, k ∈ st.seen ↔ ∃ v ∈ rows.filterMap nonNull, valueKey codec v = k

theorem Pushed.start : Pushed codec lib kind [] {} := by
  have hnil : combined codec kind [] = [] := by
    unfold combined
    split_ifs <;> rfl
  refine ⟨?_, rfl, by rw [List.filterMap_nil, hnil]; rfl, fun _ k => by simp⟩
  rw [List.filterMap_nil, hnil]
  unfold Folded
  cases kind.op with
  | count => trivial
  | sum => exact .inl ⟨rfl, rfl⟩
  | avg => exact ⟨rfl, rfl, rfl⟩
  | min => rfl
  | max => rfl
  | groupConcat => exact ⟨rfl, by simp⟩

theorem exact_of_combined {vals : List Value} (h : ∀ v ∈ vals, Exact v) :
    ∀ v ∈ combined codec kind vals, Exact v := by
  intro v hv
  unfold combined at hv
  split_ifs at hv
  · exact h v ((keepFirst_sublist [] vals).mem hv)
  · exact h v hv

/-- One row more. -/
theorem Pushed.pushRow {rows : List (Bool × Option Value)} {st : RunningAgg}
    {row : Bool × Option Value} (h : Pushed codec lib kind rows st)
    (hexact : ∀ v ∈ (rows ++ [row]).filterMap nonNull, Exact v)
    (hruns : AvgRuns lib kind (combined codec kind ((rows ++ [row]).filterMap nonNull))) :
    ∃ st', st.pushRow codec lib kind row = .ok st' ∧ Pushed codec lib kind (rows ++ [row]) st' := by
  obtain ⟨hfolded, hkept, hnonnull, hseen⟩ := h
  obtain ⟨kept, arg⟩ := row
  have hcount : ((rows ++ [(kept, arg)]).countP (·.1) : ℕ) =
      (if kept then st.kept + 1 else st.kept) := by
    rw [List.countP_append, hkept]
    cases kept <;> simp
  have hvals : (rows ++ [(kept, arg)]).filterMap nonNull =
      rows.filterMap nonNull ++ (nonNull (kept, arg)).toList := by
    rw [List.filterMap_append]
    cases hv : nonNull (kept, arg) <;> simp [hv]
  -- the counter is moved first
  obtain ⟨st₀, hst₀, hkept₀, hseen₀, hnonnull₀, hfolded₀⟩ :
      ∃ st₀ : RunningAgg, (if kept then { st with kept := st.kept + 1 } else st) = st₀ ∧
        st₀.kept = (if kept then st.kept + 1 else st.kept) ∧ st₀.seen = st.seen ∧
        st₀.nonnull = st.nonnull ∧
        Folded lib kind (combined codec kind (rows.filterMap nonNull)) st₀ := by
    cases kept
    · exact ⟨st, rfl, rfl, rfl, rfl, hfolded⟩
    · exact ⟨_, rfl, rfl, rfl, rfl, hfolded⟩
  unfold RunningAgg.pushRow
  dsimp only
  rw [hst₀]
  cases harg : nonNull (kept, arg) with
  | none =>
    rw [harg, Option.toList_none, List.append_nil] at hvals
    refine ⟨st₀, ?_, by rwa [hvals], hkept₀.trans hcount.symm, by rw [hvals, hnonnull₀, hnonnull],
      fun hd k => by rw [hvals, hseen₀, hseen hd]⟩
    cases arg with
    | none => rfl
    | some v =>
      have hnull : isNull v = true := by
        unfold nonNull at harg
        simpa using harg
      dsimp only
      rw [if_pos hnull]
      rfl
  | some v =>
    have harg' : arg = some v := by
      unfold nonNull at harg
      exact (Option.filter_eq_some_iff.mp harg).1
    rw [harg, Option.toList_some] at hvals
    rw [hvals] at hexact hruns
    have hv := hexact v (List.mem_append_right _ List.mem_cons_self)
    have hbefore := @exact_of_combined codec kind _
      fun w hw => hexact w (List.mem_append_left _ hw)
    rw [harg']
    dsimp only
    rw [if_neg (by simp [hv.ne_null])]
    by_cases hd : kind.distinct = true
    · obtain ⟨bytes, hbytes⟩ := hv.encode codec
      have hkey := valueKey_of_ok hbytes
      have hmem : bytes ∈ st₀.seen ↔
          ∃ w ∈ rows.filterMap nonNull, valueKey codec w = valueKey codec v := by
        rw [hseen₀, hseen hd, hkey]
      have hcombined := @keepFirst_concat codec [] (rows.filterMap nonNull) v
      simp only [List.not_mem_nil, false_or] at hcombined
      rw [if_pos hd, hbytes]
      dsimp only
      by_cases hold : bytes ∈ st₀.seen
      · rw [if_pos hold]
        rw [if_pos (hmem.mp hold), List.append_nil] at hcombined
        have hsame : combined codec kind ((rows ++ [(kept, arg)]).filterMap nonNull) =
            combined codec kind (rows.filterMap nonNull) := by
          rw [hvals, combined, combined, if_pos hd, if_pos hd, hcombined]
        refine ⟨st₀, rfl, by rwa [← harg', hsame], ?_, by rw [← harg', hsame, hnonnull₀, hnonnull],
          fun _ k => ?_⟩
        · rw [← harg', hkept₀, hcount]
        · rw [← harg', hvals, hseen₀, hseen hd]
          simp only [List.mem_append, List.mem_singleton, or_and_right, exists_or, exists_eq_left]
          constructor
          · exact .inl
          · rintro (hk | rfl)
            · exact hk
            · exact hmem.mp hold
      · rw [if_neg hold]
        rw [if_neg (fun hw => hold (hmem.mpr hw))] at hcombined
        have hnew : combined codec kind (rows.filterMap nonNull ++ [v]) =
            combined codec kind (rows.filterMap nonNull) ++ [v] := by
          rw [combined, combined, if_pos hd, if_pos hd, hcombined]
        rw [hnew] at hruns
        have hmarked : Folded lib kind (combined codec kind (rows.filterMap nonNull))
            { st₀ with seen := bytes :: st₀.seen } := hfolded₀
        obtain ⟨st', hfold, hfolded', hk', hs', hn'⟩ := hmarked.fold hbefore hv hruns
        refine ⟨st', hfold, ?_, ?_, ?_, fun _ k => ?_⟩
        · rwa [← harg', hvals, hnew]
        · rw [← harg', hk', hcount]
          exact hkept₀
        · rw [← harg', hn', hvals, hnew, List.length_append]
          push_cast
          rw [← hnonnull, ← hnonnull₀]
          rfl
        · rw [← harg', hs', hvals]
          change k ∈ bytes :: st₀.seen ↔ _
          rw [List.mem_cons, hseen₀, hseen hd, ← hkey]
          simp only [List.mem_append, List.mem_singleton, or_and_right, exists_or, exists_eq_left]
          rw [or_comm, eq_comm]
    · have hsame : ∀ vals, combined codec kind vals = vals := fun vals => if_neg hd
      rw [hsame] at hfolded₀ hruns hbefore
      rw [if_neg hd]
      obtain ⟨st', hfold, hfolded', hk', -, hn'⟩ := Folded.fold hfolded₀ hbefore hv hruns
      refine ⟨st', hfold, ?_, ?_, ?_, fun htrue => absurd htrue hd⟩
      · rwa [← harg', hvals, hsame]
      · rw [← harg', hk', hkept₀, hcount]
      · rw [← harg', hn', hvals, hsame, List.length_append, hnonnull₀, hnonnull, hsame]
        rfl

theorem AvgRuns.combined_init {vals : List Value} {row : Option Value}
    (h : AvgRuns lib kind (combined codec kind (vals ++ row.toList))) :
    AvgRuns lib kind (combined codec kind vals) := by
  cases row with
  | none => rwa [Option.toList_none, List.append_nil] at h
  | some v =>
    unfold combined at h ⊢
    split_ifs at h ⊢ with hd
    · rw [Option.toList_some, keepFirst_concat] at h
      split_ifs at h
      · rwa [List.append_nil] at h
      · exact h.init
    · exact h.init

theorem pushRows {rows : List (Bool × Option Value)}
    (hexact : ∀ v ∈ rows.filterMap nonNull, Exact v)
    (hruns : AvgRuns lib kind (combined codec kind (rows.filterMap nonNull))) :
    ∃ st : RunningAgg, rows.foldlM (RunningAgg.pushRow codec lib kind) {} = .ok st ∧
      Pushed codec lib kind rows st := by
  induction rows using List.reverseRecOn with
  | nil => exact ⟨{}, rfl, Pushed.start⟩
  | append_singleton rows row ih =>
    have hsplit : (rows ++ [row]).filterMap nonNull =
        rows.filterMap nonNull ++ (nonNull row).toList := by
      rw [List.filterMap_append]
      cases hv : nonNull row <;> simp [hv]
    have hinit := hruns
    rw [hsplit] at hinit
    obtain ⟨st, hst, hpushed⟩ := ih
      (fun v hv => hexact v (by rw [hsplit]; exact List.mem_append_left _ hv))
      hinit.combined_init
    obtain ⟨st', hst', hpushed'⟩ := hpushed.pushRow hexact hruns
    refine ⟨st', ?_, hpushed'⟩
    rw [List.foldlM_append, hst]
    change (st.pushRow codec lib kind row >>= pure) = _
    rw [bind_pure, hst']

/-- The fold of a frame is the batch aggregate of its values. -/
theorem freshFold_eq {rows : List (Bool × Option Value)} {lo hi : ℕ} (hhi : hi < rows.length)
    (hexact : ∀ v ∈ args rows lo (hi + 1), Exact v) {w : Value}
    (h : combineAgg lib kind ((block rows lo (hi + 1)).countP (·.1))
      (combined codec kind (args rows lo (hi + 1))) = .ok w) :
    freshFold codec lib kind rows lo hi = .ok w := by
  have hruns : AvgRuns lib kind (combined codec kind (args rows lo (hi + 1))) := by
    intro hop hdec
    have hne : combined codec kind (args rows lo (hi + 1)) ≠ [] := by
      intro hnil
      rw [hnil] at hdec
      cases hdec
    unfold combineAgg at h
    rw [hop] at h
    dsimp only at h
    rw [if_neg hne, if_pos hdec] at h
    obtain ⟨acc, hacc, -⟩ := Except.bind_eq_ok_iff.mp h
    exact ⟨acc, hacc⟩
  obtain ⟨st, hst, hpushed⟩ := pushRows hexact hruns
  have hw := hpushed.folded.snapshot hpushed.kept hpushed.nonnull
  obtain rfl := Except.ok.inj (hw.symm.trans h)
  have hrange := @foldlM_index _ rows lo _ _
    (fun (st : RunningAgg) _ row => st.pushRow codec lib kind row) (Nat.succ_le_of_lt hhi) {}
  unfold freshFold pushRange
  rw [hrange, ← List.foldlM_map, map_numbered hhi, hst]
  rfl

end Folds

end Docsql.Window
