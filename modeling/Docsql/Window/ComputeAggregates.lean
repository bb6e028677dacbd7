import Mathlib.Algebra.Order.Floor.Semifield
import Docsql.EncodeRoundTrip
import Docsql.Lib.Binary64Exact
import Docsql.Window.AggregateFrames
import Docsql.Window.Frames

/-!
# The aggregates of `compute_windows`

Default frames and frames of a clause, over rows with their expressions, against `eval_agg` on the
rows of each frame.
-/

namespace Docsql.Window

open Scalar (Eval Library index isNull isDecimal)

variable {codec : DecimalCodec} {lib : Library}

/-! ## Default frames -/

namespace Partition

variable {P : Partition} {p q r : ℕ}

/-- The last row of the default frame. -/
def peerEnd (P : Partition) (p : ℕ) : ℕ := if P.order = [] then P.n - 1 else P.runEnd p p

theorem peers_run (hp : p < P.n) (hr : r ≤ P.runEnd p p) (hpr : p ≤ r) : P.peers p r = true := by
  obtain ⟨hlast, hsame, -⟩ := runEnd_spec hp hp (P.peers_self p)
  induction r, hpr using Nat.le_induction with
  | base => exact P.peers_self p
  | succ r hpr ih =>
    have hr' : r < P.n := by omega
    rw [peers_of_peers (ih (by omega)) hp hr' (by omega)]
    exact hsame r hpr hr

/-- All rows of a run have its end. -/
theorem runEnd_eq (hp : p < P.n) (hpr : p ≤ r) (hr : r ≤ P.runEnd p p) :
    P.runEnd r r = P.runEnd p p := by
  obtain ⟨hlast, hsame, hchange⟩ := runEnd_spec hp hp (P.peers_self p)
  have hrn : r < P.n := hr.trans_lt hlast
  obtain ⟨hlast', hsame', hchange'⟩ := runEnd_spec hrn hrn (P.peers_self r)
  have hle := P.le_runEnd r r
  rcases lt_trichotomy (P.runEnd r r) (P.runEnd p p) with hlt | heq | hgt
  · have hdiff := hchange' (by omega)
    rw [hsame _ (by omega) hlt] at hdiff
    cases hdiff
  · exact heq
  · have hdiff := hchange (by omega)
    rw [hsame' _ (by omega) hgt] at hdiff
    cases hdiff

theorem peerEnd_lt (hp : p < P.n) : P.peerEnd p < P.n := by
  unfold peerEnd
  split_ifs
  · omega
  · exact (runEnd_spec hp hp (P.peers_self p)).1

theorem le_peerEnd (hp : p < P.n) : p ≤ P.peerEnd p := by
  unfold peerEnd
  split_ifs
  · omega
  · exact P.le_runEnd p p

theorem peerEnd_eq (hp : p < P.n) (hpr : p ≤ r) (hr : r ≤ P.peerEnd p) :
    P.peerEnd r = P.peerEnd p := by
  unfold peerEnd at hr ⊢
  split_ifs at hr ⊢
  · rfl
  · exact runEnd_eq hp hpr hr

/-- The bounds of the rows: of a clause, or from the start to the last peer. -/
def framesOf (P : Partition) (frames : Option (List (ℕ × ℕ))) : List (ℕ × ℕ) :=
  frames.getD ((List.range P.n).map fun p => (0, P.peerEnd p))

end Partition

section Defaults

variable {kind : AggKind} {rows : List (Bool × Option Value)} {P : Partition}

theorem forall₂_replicate {α β : Type} {R : α → β → Prop} {xs : List α} {b : β}
    (h : ∀ a ∈ xs, R a b) : List.Forall₂ R xs (List.replicate xs.length b) := by
  induction xs with
  | nil => exact .nil
  | cons a xs ih =>
    exact .cons (h a List.mem_cons_self) (ih fun c hc => h c (List.mem_cons_of_mem a hc))

/-- From the run that begins at `p`: the fold holds the rows before it. -/
theorem defaultFrames_spec (hn : rows.length = P.n)
    (hexact : ∀ v ∈ rows.filterMap nonNull, Exact v) {p : ℕ} (hp : p ≤ P.n) {run : RunningAgg}
    (hrun : (block rows 0 p).foldlM (RunningAgg.pushRow codec lib kind) {} = .ok run)
    (hbatch : ∀ r, p ≤ r → r < P.n → ∃ w, batchOf codec lib kind rows (0, P.peerEnd r) = .ok w) :
    ∃ vals, defaultFrames codec lib kind rows P p run = .ok vals ∧
      List.Forall₂ (Right codec lib kind rows)
        ((List.range' p (P.n - p)).map fun r => (0, P.peerEnd r)) vals := by
  induction hd : P.n - p using Nat.strong_induction_on generalizing p run with
  | _ d ih =>
    rw [defaultFrames]
    by_cases hlt : p < P.n
    · have hle := Partition.le_peerEnd hlt
      have hend := Partition.peerEnd_lt hlt
      obtain ⟨w, hw⟩ := hbatch p le_rfl hlt
      have hfresh := freshFold_batch hexact (fun _ => hn ▸ hend) hw
      -- the fold up to the end of the run goes through the state before it
      have hrange : ∀ lo (st : RunningAgg), pushRange codec lib kind rows st lo (P.peerEnd p) =
          (block rows lo (P.peerEnd p + 1)).foldlM (RunningAgg.pushRow codec lib kind) st := by
        intro lo st
        have hidx := @foldlM_index _ rows lo _ _
          (fun (st : RunningAgg) _ row => st.pushRow codec lib kind row)
          (show P.peerEnd p + 1 ≤ rows.length by omega) st
        unfold pushRange
        rw [hidx, ← List.foldlM_map, map_numbered (by omega)]
      have hsplit := block_append (Nat.zero_le p) (show p ≤ P.peerEnd p + 1 by omega)
        (show P.peerEnd p + 1 ≤ rows.length by omega)
      unfold freshFold at hfresh
      rw [hrange, hsplit, List.foldlM_append, hrun] at hfresh
      obtain ⟨run', hrun', hsnap⟩ := Except.bind_eq_ok_iff.mp hfresh
      have hstep : pushRange codec lib kind rows run p (P.peerEnd p) = .ok run' :=
        (hrange p run).trans hrun'
      have hwhole : (block rows 0 (P.peerEnd p + 1)).foldlM (RunningAgg.pushRow codec lib kind) {} =
          .ok run' := by
        rw [hsplit, List.foldlM_append, hrun]
        exact hrun'
      obtain ⟨vals, hvals, hright⟩ := ih (P.n - (P.peerEnd p + 1)) (by omega) hend hwhole
        (fun r hr => hbatch r (by omega)) rfl
      obtain rfl := Except.ok.inj hsnap
      refine ⟨List.replicate (P.peerEnd p + 1 - p) (run'.snapshot lib kind) ++ vals, ?_, ?_⟩
      · rw [if_pos hlt]
        change (pushRange codec lib kind rows run p (P.peerEnd p) >>= _) = _
        rw [hstep]
        change (defaultFrames codec lib kind rows P (P.peerEnd p + 1) run' >>= _) = _
        rw [hvals]
        rfl
      · have hlen : d = (P.peerEnd p + 1 - p) + (P.n - (P.peerEnd p + 1)) := by omega
        rw [hlen, ← List.range'_append_1, List.map_append,
          show p + (P.peerEnd p + 1 - p) = P.peerEnd p + 1 by omega]
        apply List.rel_append _ hright
        have hsame : ∀ b ∈ (List.range' p (P.peerEnd p + 1 - p)).map fun r => (0, P.peerEnd r),
            Right codec lib kind rows b (run'.snapshot lib kind) := by
          intro b hb
          obtain ⟨r, hr, rfl⟩ := List.mem_map.mp hb
          have hmem := List.mem_range'_1.mp hr
          rw [Partition.peerEnd_eq hlt hmem.1 (by omega)]
          exact ⟨_, hw, Same.refl _⟩
        have hrep := forall₂_replicate hsame
        rwa [List.length_map, List.length_range'] at hrep
    · rw [if_neg hlt]
      have hzero : d = 0 := by omega
      rw [hzero]
      exact ⟨[], rfl, .nil⟩

/-- Frames that are folded on their own. -/
theorem mapM_freshFold (hexact : ∀ v ∈ rows.filterMap nonNull, Exact v) {bounds : List (ℕ × ℕ)}
    (hin : ∀ b ∈ bounds, b.1 ≤ b.2 → b.2 < rows.length)
    (hbatch : ∀ b ∈ bounds, ∃ w, batchOf codec lib kind rows b = .ok w) :
    ∃ vals, bounds.mapM (fun b => freshFold codec lib kind rows b.1 b.2) = .ok vals ∧
      List.Forall₂ (Right codec lib kind rows) bounds vals := by
  induction bounds with
  | nil => exact ⟨[], rfl, .nil⟩
  | cons b bounds ih =>
    obtain ⟨vals, hvals, hright⟩ := ih (fun c hc => hin c (List.mem_cons_of_mem b hc))
      fun c hc => hbatch c (List.mem_cons_of_mem b hc)
    obtain ⟨w, hw⟩ := hbatch b List.mem_cons_self
    have hfresh := freshFold_batch hexact (hin b List.mem_cons_self) hw
    refine ⟨w :: vals, ?_, .cons ⟨w, hw, Same.refl w⟩ hright⟩
    rw [List.mapM_cons, hfresh]
    change (bounds.mapM (fun b => freshFold codec lib kind rows b.1 b.2) >>= _) = _
    rw [hvals]
    rfl

end Defaults

/-! ## Rows with their expressions -/

section Rows

variable {ρ : Type} {call : AggCall ρ}

/-- What FILTER and the argument make of a row. -/
def AggCall.evaluated (call : AggCall ρ) (r : ρ) : Bool × Option Value :=
  (call.evalRow r).toOption.getD (false, none)

theorem evalRow_cases {r : ρ} {row : Bool × Option Value} (h : call.evalRow r = .ok row) :
    (call.passes r = .ok false ∧ row = (false, none)) ∨
      ∃ v, call.passes r = .ok true ∧ call.arg r = .ok v ∧ row = (true, some v) := by
  unfold AggCall.evalRow at h
  obtain ⟨kept, hkept, h⟩ := Except.bind_eq_ok_iff.mp h
  cases kept with
  | false => exact .inl ⟨hkept, (Except.ok.inj h).symm⟩
  | true =>
    obtain ⟨v, hv, h⟩ := Except.bind_eq_ok_iff.mp h
    exact .inr ⟨v, hkept, hv, (Except.ok.inj h).symm⟩

/-- The batch evaluator sees the rows as the window does. -/
theorem evalAgg_eq {docs : List ρ} (h : ∀ r ∈ docs, ∃ row, call.evalRow r = .ok row) :
    evalAgg call codec lib docs = combineAgg lib call.toAggKind
      ((docs.map call.evaluated).countP (·.1))
      (combined codec call.toAggKind ((docs.map call.evaluated).filterMap nonNull)) := by
  have hloop : ∃ kept vals, call.keptRows docs = .ok kept ∧ kept.mapM call.arg = .ok vals ∧
      kept.length = (docs.map call.evaluated).countP (·.1) ∧
      vals.filter (fun v => !isNull v) = (docs.map call.evaluated).filterMap nonNull := by
    induction docs with
    | nil => exact ⟨[], [], rfl, rfl, rfl, rfl⟩
    | cons d docs ih =>
      obtain ⟨kept, vals, hkept, hvals, hlen, hfilter⟩ := ih fun r hr =>
        h r (List.mem_cons_of_mem d hr)
      obtain ⟨row, hrow⟩ := h d List.mem_cons_self
      have heval : call.evaluated d = row := by
        rw [AggCall.evaluated, hrow]
        rfl
      rw [List.map_cons, heval]
      rcases evalRow_cases hrow with ⟨hpass, rfl⟩ | ⟨v, hpass, harg, rfl⟩
      · refine ⟨kept, vals, ?_, hvals, ?_, ?_⟩
        · rw [AggCall.keptRows, hpass]
          change (call.keptRows docs >>= _) = _
          rw [hkept]
          rfl
        · rw [List.countP_cons, hlen]
          rfl
        · rw [List.filterMap_cons, hfilter]
          rfl
      · refine ⟨d :: kept, v :: vals, ?_, ?_, ?_, ?_⟩
        · rw [AggCall.keptRows, hpass]
          change (call.keptRows docs >>= _) = _
          rw [hkept]
          rfl
        · rw [List.mapM_cons, harg]
          change (kept.mapM call.arg >>= _) = _
          rw [hvals]
          rfl
        · rw [List.countP_cons, List.length_cons, hlen]
          rfl
        · rw [List.filter_cons, List.filterMap_cons, hfilter]
          cases hv : isNull v <;> simp [nonNull, Option.filter, hv]
  obtain ⟨kept, vals, hkept, hvals, hlen, hfilter⟩ := hloop
  unfold evalAgg
  rw [hkept]
  change (kept.mapM call.arg >>= _) = _
  rw [hvals]
  change combineAgg lib call.toAggKind kept.length _ = _
  rw [hlen, hfilter]
  rfl

theorem block_map {α β : Type} (f : α → β) (xs : List α) (lo hi : ℕ) :
    block (xs.map f) lo hi = (block xs lo hi).map f := by
  unfold block
  rw [List.map_drop, List.map_take]

/-- Every value is the batch aggregate of the rows of its frame. -/
def AllRight (codec : DecimalCodec) (lib : Library) (call : AggCall ρ) (rows : List ρ)
    (bounds : List (ℕ × ℕ)) (vals : List Value) : Prop :=
  List.Forall₂ (fun b v => ∃ w, evalAgg call codec lib (block rows b.1 (b.2 + 1)) = .ok w ∧
    Same v w) bounds vals

/-- The condition on a clause; default frames need none, nor do fresh folds. -/
def Slides (call : AggCall ρ) (rows : List ρ) (step : ℕ → ℕ → ℕ → Prop)
    (frames : Option (List (ℕ × ℕ))) : Prop :=
  ∀ bounds, frames = some bounds → call.invertible = true →
    SlideFits call.toAggKind (rows.map call.evaluated) step 0 bounds

/-- The aggregates of a partition return, and they are the batch aggregates of their frames when
every step of the frames fits; but for the rounding of doubles they are so only then. -/
theorem windowAggregate_iff (hlib : ExactArithmetic lib) {P : Partition} {rows : List ρ}
    (hn : rows.length = P.n) {frames : Option (List (ℕ × ℕ))}
    (hframes : ∀ bounds, frames = some bounds → Forward P.n bounds)
    (hrows : ∀ r ∈ rows, ∃ row, call.evalRow r = .ok row) {s : ℕ}
    (hsum : Summable s ((rows.map call.evaluated).filterMap nonNull))
    (hbatch : ∀ b ∈ P.framesOf frames,
      ∃ w, evalAgg call codec lib (block rows b.1 (b.2 + 1)) = .ok w) :
    ∃ vals, windowAggregate call codec lib P rows frames = .ok vals ∧
      (Slides call rows (fun lo l h => FrameFits call.toAggKind (rows.map call.evaluated) lo l h ∧
          DoubleFits call.toAggKind (rows.map call.evaluated) l h) frames →
        AllRight codec lib call rows (P.framesOf frames) vals) ∧
      (AllRight codec lib call rows (P.framesOf frames) vals →
        Slides call rows (FrameFits call.toAggKind (rows.map call.evaluated)) frames) := by
  have hlen : (rows.map call.evaluated).length = P.n := by rw [List.length_map, hn]
  have hmap : rows.mapM call.evalRow = .ok (rows.map call.evaluated) := by
    clear hn hsum hbatch hlen
    induction rows with
    | nil => rfl
    | cons r rows ih =>
      obtain ⟨row, hrow⟩ := hrows r List.mem_cons_self
      rw [List.mapM_cons, hrow, List.map_cons, AggCall.evaluated, hrow]
      change (rows.mapM call.evalRow >>= _) = _
      rw [ih fun q hq => hrows q (List.mem_cons_of_mem r hq)]
      rfl
  have heq : ∀ b : ℕ × ℕ, evalAgg call codec lib (block rows b.1 (b.2 + 1)) =
      batchOf codec lib call.toAggKind (rows.map call.evaluated) b := by
    intro b
    rw [evalAgg_eq fun r hr => hrows r ((block_block rows b.1 (b.2 + 1)).subset hr), batchOf, args,
      block_map]
  have hrun : windowAggregate call codec lib P rows frames =
      aggregateFrames codec lib call.toAggKind (rows.map call.evaluated) P frames := by
    rw [windowAggregate, hmap]
    rfl
  have hall : ∀ bounds vals, AllRight codec lib call rows bounds vals ↔
      List.Forall₂ (Right codec lib call.toAggKind (rows.map call.evaluated)) bounds vals := by
    intro bounds vals
    simp only [AllRight, heq]
    rfl
  simp only [hall, heq] at hbatch ⊢
  rw [hrun]
  unfold aggregateFrames
  cases frames with
  | none =>
    obtain ⟨vals, hvals, hright⟩ := defaultFrames_spec (P := P) (p := 0) hlen
      hsum.exact (Nat.zero_le _) (by rw [block_self]; rfl) fun r _ hr =>
        hbatch (0, P.peerEnd r) (List.mem_map.mpr ⟨r, List.mem_range.mpr hr, rfl⟩)
    refine ⟨vals, hvals, fun _ => ?_, fun _ bounds hb => (by cases hb)⟩
    rwa [Nat.sub_zero, ← List.range_eq_range'] at hright
  | some bounds =>
    have hforward : Forward (rows.map call.evaluated).length bounds := hlen ▸ hframes bounds rfl
    dsimp only
    split_ifs with hinv
    · obtain ⟨vals, hvals, henough, hneeded⟩ := slideFrames_spec hlib
        hsum hinv (Live.start hlib) le_rfl hforward
        (fun b _ _ => ⟨Nat.zero_le _, Nat.zero_le _⟩) hbatch
      refine ⟨vals, hvals, fun hs => henough (hs bounds rfl hinv), fun hr bounds' hb _ => ?_⟩
      obtain rfl := Option.some.inj hb
      exact hneeded hr
    · obtain ⟨vals, hvals, hright⟩ := mapM_freshFold hsum.exact hforward.inside hbatch
      exact ⟨vals, hvals, fun _ => hright, fun _ _ _ ht => absurd ht hinv⟩

end Rows

/-! ## A library with exact arithmetic -/

/-- The mantissa of a decimal at a scale. -/
def unitsAt (s : ℕ) (d : Decimal) : ℤ := d.signed * 10 ^ (s - d.scale)

/-- A decimal from its mantissa and scale. -/
def exactDecimal (u : ℤ) (s : ℕ) (hs : s ≤ 28) : Option Decimal :=
  if h : u.natAbs < 2 ^ 96 then some ⟨⟨decide (u < 0), u.natAbs, s⟩, h, hs⟩ else none

def exactAdd (a b : Decimal) : Option Decimal :=
  exactDecimal (unitsAt (max a.scale b.scale) a + unitsAt (max a.scale b.scale) b)
    (max a.scale b.scale) (max_le a.scale_le b.scale_le)

def exactSub (a b : Decimal) : Option Decimal :=
  exactDecimal (unitsAt (max a.scale b.scale) a - unitsAt (max a.scale b.scale) b)
    (max a.scale b.scale) (max_le a.scale_le b.scale_le)

theorem unitsAt_num {d : Decimal} {s : ℕ} (h : d.scale ≤ s) :
    (unitsAt s d : ℚ) = d.num * 10 ^ s := by
  obtain ⟨k, rfl⟩ := Nat.exists_eq_add_of_le h
  unfold unitsAt Decimal.num
  rw [Nat.add_sub_cancel_left, pow_add]
  push_cast
  field_simp

/-- The exact result at the greater scale. -/
theorem exactDecimal_ok {q : ℚ} {u : ℤ} {m s : ℕ} (hm : m ≤ 28) (hms : m ≤ s)
    (hu : (u : ℚ) = q * 10 ^ m) (hsmall : Small s q) :
    ∃ c, exactDecimal u m hm = some c ∧ c.scale ≤ s ∧ c.num = q := by
  have habs : (u.natAbs : ℚ) < 2 ^ 96 := by
    rw [Nat.cast_natAbs, Int.cast_abs, hu, abs_mul, abs_of_pos (by positivity : (0 : ℚ) < 10 ^ m)]
    refine lt_of_le_of_lt ?_ hsmall
    apply mul_le_mul_of_nonneg_left _ (abs_nonneg q)
    exact pow_le_pow_right₀ (by norm_num) hms
  have hlt : u.natAbs < 2 ^ 96 := by exact_mod_cast habs
  refine ⟨⟨⟨decide (u < 0), u.natAbs, m⟩, hlt, hm⟩, dif_pos hlt, hms, ?_⟩
  have hsigned : (⟨⟨decide (u < 0), u.natAbs, m⟩, hlt, hm⟩ : Decimal).signed = u := by
    unfold Decimal.signed
    by_cases hneg : u < 0
    · rw [if_pos (by simpa using hneg)]
      dsimp only
      omega
    · rw [if_neg (by simpa using hneg)]
      dsimp only
      omega
  unfold Decimal.num
  rw [hsigned, hu]
  field_simp

theorem num_eq (d : Decimal) :
    d.num = (if d.neg then -1 else 1) * ((d.mantissa : ℚ) / 10 ^ d.scale) := by
  unfold Decimal.num Decimal.signed
  split_ifs
  · push_cast
    ring
  · push_cast
    ring

theorem abs_num (d : Decimal) : |d.num| = (d.mantissa : ℚ) / 10 ^ d.scale := by
  have hpos : (0 : ℚ) ≤ (d.mantissa : ℚ) / 10 ^ d.scale := by positivity
  rw [num_eq, abs_mul, abs_of_nonneg hpos]
  split_ifs
  · rw [abs_neg, abs_one, one_mul]
  · rw [abs_one, one_mul]

/-- Quotients by a power of ten, cut at the twenty-eighth digit. -/
theorem num_shiftRight (neg : Bool) (d : Decimal) {k : ℕ} (hk : k ≤ 28) :
    (Scalar.shiftRight neg d k).num = (if neg then -1 else 1) *
      ((⌊(d.mantissa : ℚ) / 10 ^ d.scale * 10 ^ (28 - k)⌋₊ : ℚ) / 10 ^ 28) := by
  rw [num_eq]
  congr 1
  unfold Scalar.shiftRight
  dsimp only
  have hfloor : ⌊(d.mantissa : ℚ) / 10 ^ d.scale * 10 ^ (28 - k)⌋₊ =
      d.mantissa * 10 ^ (28 - k) / 10 ^ d.scale := by
    have hcast := Nat.floor_div_natCast ((d.mantissa * 10 ^ (28 - k) : ℕ) : ℚ) (10 ^ d.scale)
    rw [Nat.floor_natCast] at hcast
    rw [← hcast]
    congr 1
    push_cast
    ring
  rw [hfloor]
  rcases Nat.lt_or_ge 28 (d.scale + k) with hdeep | hfit
  · rw [min_eq_right hdeep.le]
    congr 2
    have hsplit : d.scale = (d.scale + k - 28) + (28 - k) := by omega
    conv_rhs => rw [hsplit, pow_add]
    rw [Nat.mul_div_mul_right _ _ (by positivity)]
  · rw [min_eq_left hfit, Nat.sub_eq_zero_of_le hfit, pow_zero, Nat.div_one]
    obtain ⟨j, hj⟩ := Nat.exists_eq_add_of_le hfit
    have hsplit : 28 - k = j + d.scale := by omega
    have hdiv : d.mantissa * 10 ^ (28 - k) / 10 ^ d.scale = d.mantissa * 10 ^ j := by
      rw [hsplit, pow_add, ← Nat.mul_assoc]
      exact Nat.mul_div_cancel _ (by positivity)
    rw [hdiv]
    have h28 : (10 : ℚ) ^ 28 = 10 ^ (d.scale + k) * 10 ^ j := by rw [← pow_add, ← hj]
    rw [h28]
    push_cast
    field_simp

/-- Decimals and doubles as the real library computes them on small numbers. -/
def sampleArithmetic : Library :=
  { Scalar.sampleLibrary with
    intToF64 := fun i => Binary64.ofInt i.toInt
    addF64 := fun a b => Binary64.roundScaled (a.scaled + b.scaled)
    subF64 := fun a b => Binary64.roundScaled (a.scaled - b.scaled)
    checkedAdd := exactAdd
    checkedSub := exactSub }

theorem sampleArithmetic_intToF64 (i : Int64) :
    sampleArithmetic.intToF64 i = Binary64.ofInt i.toInt := rfl

theorem sampleArithmetic_addF64 (a b : Binary64) :
    sampleArithmetic.addF64 a b = Binary64.roundScaled (a.scaled + b.scaled) := rfl

theorem sampleArithmetic_subF64 (a b : Binary64) :
    sampleArithmetic.subF64 a b = Binary64.roundScaled (a.scaled - b.scaled) := rfl

theorem Small53.int {z : ℤ} (h : Small53 z) : |z| ≤ 2 ^ 53 := by
  unfold Small53 at h
  exact_mod_cast h

theorem sampleArithmetic_exact : ExactArithmetic sampleArithmetic where
  add a b s ha hb hsmall := by
    apply exactDecimal_ok _ (max_le ha hb) _ hsmall
    push_cast
    rw [unitsAt_num (le_max_left _ _), unitsAt_num (le_max_right _ _)]
    ring
  sub a b s ha hb hsmall := by
    apply exactDecimal_ok _ (max_le ha hb) _ hsmall
    push_cast
    rw [unitsAt_num (le_max_left _ _), unitsAt_num (le_max_right _ _)]
    ring
  div a b n h := by
    change (Scalar.sampleDiv a n).map Decimal.num = (Scalar.sampleDiv b n).map Decimal.num
    have hk : Nat.log 10 n.mantissa ≤ 28 := by
      apply Nat.lt_succ_iff.mp
      apply Nat.log_lt_of_lt_pow'
      · norm_num
      · exact n.mantissa_lt.trans (by norm_num)
    have habs : (a.mantissa : ℚ) / 10 ^ a.scale = (b.mantissa : ℚ) / 10 ^ b.scale := by
      rw [← abs_num, ← abs_num, h]
    unfold Scalar.sampleDiv
    dsimp only
    split_ifs with hp
    · rw [Option.map_some, Option.map_some, num_shiftRight _ _ hk, num_shiftRight _ _ hk, habs]
      congr 1
      by_cases hzero : (b.mantissa : ℚ) / 10 ^ b.scale = 0
      · rw [hzero]
        simp
      · have hsign : a.neg = b.neg := by
          rw [num_eq, num_eq, habs] at h
          have := mul_right_cancel₀ hzero h
          cases ha : a.neg <;> cases hb : b.neg <;> simp [ha, hb] at this ⊢ <;> linarith
        rw [hsign]
    · rfl
  zero := by
    rw [sampleArithmetic_intToF64, Int64.toInt_zero]
    exact Binary64.ofInt_zero
  addF64 a b c h ha hb _ := by
    rw [sampleArithmetic_addF64, sampleArithmetic_intToF64, sampleArithmetic_intToF64,
      sampleArithmetic_intToF64, ← h]
    exact Binary64.roundScaled_add ha.int hb.int
  subF64 a b c h ha hb _ := by
    rw [sampleArithmetic_subF64, sampleArithmetic_intToF64, sampleArithmetic_intToF64,
      sampleArithmetic_intToF64, ← h]
    exact Binary64.roundScaled_sub ha.int hb.int

/-- `SUM(v)` over rows that are their argument. -/
def sumCall : AggCall Value where
  op := .sum
  arg := .ok

theorem windowAggregate_iff_two_rows :
    ∃ vals, windowAggregate sumCall rustDecimal sampleArithmetic Partition.twoRows
        [.int 1, .int 2] (some [(0, 0), (0, 1)]) = .ok vals ∧
      AllRight rustDecimal sampleArithmetic sumCall [.int 1, .int 2] [(0, 0), (0, 1)] vals := by
  obtain ⟨vals, hvals, hright, -⟩ := @windowAggregate_iff rustDecimal sampleArithmetic Value sumCall
    sampleArithmetic_exact Partition.twoRows [.int 1, .int 2] rfl (some [(0, 0), (0, 1)])
    (fun bounds hb => by
      obtain rfl := Option.some.inj hb
      exact ⟨by decide, List.pairwise_pair.mpr (by decide)⟩)
    (fun r _ => ⟨_, rfl⟩) 0
    ⟨fun v hv => by
        rcases List.mem_pair.mp hv with rfl | rfl
        · trivial
        · trivial,
      fun v hv => by
        rcases List.mem_pair.mp hv with rfl | rfl
        · trivial
        · trivial,
      fun h => by cases h⟩
    (fun b hb => by
      rcases List.mem_pair.mp hb with rfl | rfl
      · exact ⟨_, rfl⟩
      · exact ⟨_, rfl⟩)
  refine ⟨vals, hvals, hright fun bounds hb _ => ?_⟩
  obtain rfl := Option.some.inj hb
  exact .inr ⟨⟨fun h => absurd rfl h, by nofun⟩,
    .inr ⟨⟨fun h => absurd rfl h, by nofun⟩, trivial⟩⟩

/-- A frame with NULLs only, after a row with a value: zero instead of NULL. -/
theorem sum_of_nulls_is_zero :
    Forward 2 [(0, 0), (1, 1)] ∧
      windowAggregate sumCall rustDecimal sampleArithmetic Partition.twoRows [.int 1, .null]
        (some [(0, 0), (1, 1)]) = .ok [.int 1, .int 0] ∧
      evalAgg sumCall rustDecimal sampleArithmetic (block [.int 1, .null] 1 2) = .ok .null ∧
      ¬AllRight rustDecimal sampleArithmetic sumCall [.int 1, .null] [(0, 0), (1, 1)]
        [.int 1, .int 0] := by
  refine ⟨⟨by decide, List.pairwise_pair.mpr (by decide)⟩, rfl, rfl, fun h => ?_⟩
  obtain ⟨-, hrest⟩ := List.forall₂_cons.mp h
  obtain ⟨⟨w, hw, hsame⟩, -⟩ := List.forall₂_cons.mp hrest
  obtain rfl := Except.ok.inj hw
  cases hsame

end Docsql.Window
