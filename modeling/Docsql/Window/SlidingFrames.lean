import Docsql.Window.SlidingAverage

/-!
# Aggregates over sliding frames

One frame after another: what the sliding fold holds after the rows of a frame, and when its
value is the batch aggregate.
-/

namespace Docsql.Window

open Scalar (Eval Library index isNull isDecimal)
open Lib (StrictWeak suffixBests firstBest suffixBests_concat head?_suffixBests)

/-! ## Arguments with their positions -/

section Rows

variable {rows : List (Bool × Option Value)} {lo mid hi : ℕ}

/-- The arguments of a frame with their positions. -/
def posArgs (rows : List (Bool × Option Value)) (lo hi : ℕ) : List (ℕ × Value) :=
  (numbered rows lo hi).filterMap fun x => (nonNull x.2).map fun v => (x.1, v)

theorem args_self (rows : List (Bool × Option Value)) (lo : ℕ) : args rows lo lo = [] := by
  rw [args, block_self, List.filterMap_nil]

theorem args_append (hlo : lo ≤ mid) (hhi : mid ≤ hi) (h : hi ≤ rows.length) :
    args rows lo hi = args rows lo mid ++ args rows mid hi := by
  rw [args, block_append hlo hhi h, List.filterMap_append]
  rfl

theorem filterMap_singleton {α β : Type} (f : α → Option β) (x : α) :
    [x].filterMap f = (f x).toList := by
  cases hx : f x <;> simp [hx]

theorem args_concat (hlo : lo ≤ hi) (h : hi < rows.length) :
    args rows lo (hi + 1) = args rows lo hi ++ (nonNull rows[hi]).toList := by
  rw [args, block_concat hlo h, List.filterMap_append, filterMap_singleton]
  rfl

theorem args_cons (hlt : lo < hi) (h : hi ≤ rows.length) :
    args rows lo hi = (nonNull rows[lo]).toList ++ args rows (lo + 1) hi := by
  rw [args, block_cons hlt h, ← List.singleton_append, List.filterMap_append, filterMap_singleton]
  rfl

theorem posArgs_concat (hlo : lo ≤ hi) (h : hi < rows.length) :
    posArgs rows lo (hi + 1) =
      posArgs rows lo hi ++ ((nonNull rows[hi]).map fun v => (hi, v)).toList := by
  rw [posArgs, numbered_append hlo hi.le_succ h, numbered_cons hi.lt_succ_self h, numbered_self,
    List.filterMap_append, filterMap_singleton]
  rfl

theorem posArgs_cons (hlt : lo < hi) (h : hi ≤ rows.length) :
    posArgs rows lo hi =
      ((nonNull rows[lo]).map fun v => (lo, v)).toList ++ posArgs rows (lo + 1) hi := by
  rw [posArgs, numbered_cons hlt h, ← List.singleton_append, List.filterMap_append,
    filterMap_singleton]
  rfl

theorem map_posArgs (h : hi ≤ rows.length) : (posArgs rows lo hi).map Prod.snd = args rows lo hi := by
  rw [args, ← map_numbered h, posArgs, List.map_filterMap, List.filterMap_map]
  congr 1
  funext x
  cases hx : nonNull x.2 <;> simp [hx]

theorem le_of_mem_posArgs {x : ℕ × Value} (h : x ∈ posArgs rows lo hi) : lo ≤ x.1 := by
  obtain ⟨y, hy, hx⟩ := List.mem_filterMap.mp h
  obtain ⟨v, -, rfl⟩ := Option.map_eq_some_iff.mp hx
  have hpos := (List.of_mem_zip hy).1
  exact (List.mem_range'_1.mp hpos).1

theorem args_block (rows : List (Bool × Option Value)) (lo hi : ℕ) :
    args rows lo hi <:+: rows.filterMap nonNull := (block_block rows lo hi).filterMap nonNull

end Rows

/-! ## Conditions -/

section Fits

variable (kind : AggKind) (rows : List (Bool × Option Value))

/-- From the frame that began at `lo` to the frame from `l` to `h`: a SUM that lost arguments has
the type it had with them, an AVG without a Decimal comes before all Decimals. -/
def FrameFits (lo l h : ℕ) : Prop :=
  match kind.op with
  | .sum => args rows lo l ≠ [] → sumKind (args rows l (h + 1)) = sumKind (args rows lo (h + 1))
  | .avg => args rows l (h + 1) ≠ [] → (args rows 0 (h + 1)).any isDecimal = true →
      (args rows l (h + 1)).any isDecimal = true
  | _ => True

/-- An AVG of Ints: nothing has left the frames, or no sum leaves the exact doubles. -/
def DoubleFits (l h : ℕ) : Prop :=
  kind.op = .avg → (args rows 0 (h + 1)).any isDecimal = false →
    args rows 0 l = [] ∨ ∀ ws, ws <:+: args rows 0 (h + 1) → Small53 (numSum ws)

/-- The code goes back to fresh folds. -/
def Abandons (lo l h : ℕ) : Prop :=
  kind.op = .sum ∧ args rows lo l ≠ [] ∧ GivenUp (args rows lo l) (args rows l (h + 1))

/-- Every step from frame to frame fits, until the sliding sum is given up; `lo` is the start of
the frame before, and empty frames do not count. -/
def SlideFits (step : ℕ → ℕ → ℕ → Prop) : ℕ → List (ℕ × ℕ) → Prop
  | _, [] => True
  | lo, (l, h) :: bounds =>
    if h < l then SlideFits step lo bounds
    else Abandons kind rows lo l h ∨ step lo l h ∧ SlideFits step l bounds

end Fits

section Sliding

variable {codec : DecimalCodec} {lib : Library} {kind : AggKind} {s : ℕ}
  {rows : List (Bool × Option Value)} {lo next : ℕ} {st : SlidingFrameAgg}

/-! ## What the fold holds -/

/-- Candidates by their values. -/
def beatsAt (beaten : Ordering) (b a : ℕ × Value) : Bool := beats beaten b.2 a.2

theorem strictWeak_beats (beaten : Ordering) (h : beaten ≠ .eq) :
    StrictWeak (beats beaten) := by
  intro x y z hxy hyz
  unfold beats at hxy hyz ⊢
  rw [beq_eq_false_iff_ne] at hxy hyz ⊢
  intro hxz
  have htri := cmpValues_triangle x y z
  cases beaten with
  | eq => exact h rfl
  | gt => exact hyz (htri.gt_of_le hxy hxz)
  | lt =>
    apply hyz
    have hswap := htri.swap.gt_of_le (by simpa using hxy) (by simpa using hxz)
    simpa using hswap

theorem strictWeak_beatsAt (beaten : Ordering) (h : beaten ≠ .eq) : StrictWeak (beatsAt beaten) :=
  fun x y z => strictWeak_beats beaten h x.2 y.2 z.2

/-- What the fields of the call's aggregate say of the rows `lo..next`. -/
def Contents (lib : Library) (kind : AggKind) (s : ℕ) (rows : List (Bool × Option Value))
    (lo next : ℕ) (st : SlidingFrameAgg) : Prop :=
  match kind.op with
  | .count => st.kept = ((block rows lo next).countP (·.1) : ℕ) ∧
      st.nonnull = (args rows lo next).length
  | .sum => Summed s (args rows lo next) st.sum
  | .avg => st.nonnull = (args rows lo next).length ∧
      AvgSlid lib s (args rows 0 next) (args rows lo next) st.avg
  | .min => st.extreme = suffixBests (beatsAt .gt) (posArgs rows lo next)
  | .max => st.extreme = suffixBests (beatsAt .lt) (posArgs rows lo next)
  | .groupConcat => True

structure Live (lib : Library) (kind : AggKind) (s : ℕ) (rows : List (Bool × Option Value))
    (lo next : ℕ) (st : SlidingFrameAgg) : Prop where
  contents : Contents lib kind s rows lo next st
  window : st.window = numbered rows lo next
  live : st.degraded = false

theorem Live.start (hlib : ExactArithmetic lib) : Live lib kind s rows 0 0 {} := by
  refine ⟨?_, (numbered_self rows 0).symm, rfl⟩
  unfold Contents
  rw [args_self, block_self]
  cases kind.op with
  | count => exact ⟨rfl, rfl⟩
  | sum => exact .inl ⟨rfl, rfl⟩
  | avg =>
    refine ⟨rfl, rfl, fun h => (by cases h), fun _ => rfl, fun _ _ => rfl, fun _ _ => ?_⟩
    exact ⟨0, hlib.zero.symm, by simp⟩
  | min => simp [posArgs, numbered_self, suffixBests]
  | max => simp [posArgs, numbered_self, suffixBests]
  | groupConcat => trivial

theorem Live.push (hlib : ExactArithmetic lib) (hsum : Summable s (rows.filterMap nonNull))
    (h : Live lib kind s rows lo next st) (hlo : lo ≤ next) (hnext : next < rows.length) :
    ∃ st', st.push lib kind next rows[next] = .ok st' ∧ Live lib kind s rows lo (next + 1) st' := by
  obtain ⟨hcontents, hwindow, hlive⟩ := h
  have hnumbered : numbered rows lo (next + 1) = numbered rows lo next ++ [(next, rows[next])] := by
    rw [numbered_append hlo next.le_succ hnext, numbered_cons next.lt_succ_self hnext,
      numbered_self]
  have hblock := block_concat hlo hnext
  have hargs := args_concat hlo hnext
  have hargs₀ := args_concat next.zero_le hnext
  have hpos := posArgs_concat hlo hnext
  have hsuf : args rows lo next <:+ args rows 0 next :=
    ⟨args rows 0 lo, (args_append lo.zero_le hlo hnext.le).symm⟩
  have hwindow' : st.window ++ [(next, rows[next])] = numbered rows lo (next + 1) := by
    rw [hwindow, hnumbered]
  have hcount : ((block rows lo (next + 1)).countP (·.1) : ℕ) =
      ((block rows lo next).countP (·.1) : ℕ) + (if rows[next].1 then 1 else 0 : ℤ) := by
    rw [hblock, List.countP_append]
    cases hkept : rows[next].1 <;> simp [hkept]
  unfold SlidingFrameAgg.push
  dsimp only
  unfold Contents at hcontents
  cases harg : nonNull rows[next] with
  | none =>
    rw [harg, Option.toList_none, List.append_nil] at hargs hargs₀
    rw [harg, Option.map_none, Option.toList_none, List.append_nil] at hpos
    refine ⟨{ st with
        window := st.window ++ [(next, rows[next])]
        kept := if rows[next].1 then st.kept + 1 else st.kept }, ?_, ?_, hwindow', hlive⟩
    · cases hv : rows[next].2 with
      | none => rfl
      | some v =>
        unfold nonNull at harg
        rw [hv] at harg
        have hnull : isNull v = true := by simpa using harg
        dsimp only
        rw [if_pos hnull]
        rfl
    · unfold Contents
      rw [hargs, hargs₀, hpos]
      cases hop : kind.op with
      | count =>
        rw [hop] at hcontents
        refine ⟨?_, hcontents.2⟩
        rw [hcount, ← hcontents.1]
        split_ifs <;> simp
      | _ =>
        rw [hop] at hcontents
        exact hcontents
  | some v =>
    have harg' : rows[next].2 = some v := (Option.filter_eq_some_iff.mp harg).1
    have hv : isNull v = false := by
      have := (Option.filter_eq_some_iff.mp harg).2
      simpa using this
    rw [harg, Option.toList_some] at hargs hargs₀
    rw [harg, Option.map_some, Option.toList_some] at hpos
    rw [harg']
    dsimp only
    rw [if_neg (by simp [hv])]
    have hsummable : Summable s (args rows lo next ++ [v]) :=
      hargs ▸ hsum.block (args_block rows lo (next + 1))
    have hsummable₀ : Summable s (args rows 0 next ++ [v]) :=
      hargs₀ ▸ hsum.block (args_block rows 0 (next + 1))
    cases hop : kind.op with
    | count =>
      rw [hop] at hcontents
      refine ⟨_, rfl, ?_, hwindow', hlive⟩
      unfold Contents
      rw [hop]
      refine ⟨?_, ?_⟩
      · change (if rows[next].1 then st.kept + 1 else st.kept) = _
        rw [hcount, ← hcontents.1]
        split_ifs <;> simp
      · change st.nonnull + 1 = _
        rw [hcontents.2, hargs, List.length_append]
        simp
    | sum =>
      rw [hop] at hcontents
      obtain ⟨sum', hpush, hsummed⟩ := Summed.push hlib hcontents hsummable
      refine ⟨{ st with
        window := st.window ++ [(next, rows[next])]
        kept := if rows[next].1 then st.kept + 1 else st.kept
        nonnull := st.nonnull + 1
        sum := sum' }, ?_, ?_, hwindow', hlive⟩
      · change (pushSum lib st.sum v >>= _) = _
        rw [hpush]
        rfl
      · unfold Contents
        rw [hop, hargs]
        exact hsummed
    | avg =>
      rw [hop] at hcontents
      obtain ⟨avg', hpush, hslid⟩ := hcontents.2.push hlib hsummable₀ hsuf
      refine ⟨{ st with
        window := st.window ++ [(next, rows[next])]
        kept := if rows[next].1 then st.kept + 1 else st.kept
        nonnull := st.nonnull + 1
        avg := avg' }, ?_, ?_, hwindow', hlive⟩
      · change (st.avg.push lib v >>= _) = _
        rw [hpush]
        rfl
      · unfold Contents
        rw [hop, hargs, hargs₀]
        refine ⟨?_, hslid⟩
        change st.nonnull + 1 = _
        rw [hcontents.1, List.length_append]
        simp
    | min =>
      rw [hop] at hcontents
      refine ⟨_, rfl, ?_, hwindow', hlive⟩
      unfold Contents
      rw [hop, hpos]
      dsimp only at hcontents ⊢
      rw [suffixBests_concat (strictWeak_beatsAt .gt (by decide)), ← hcontents]
      rfl
    | max =>
      rw [hop] at hcontents
      refine ⟨_, rfl, ?_, hwindow', hlive⟩
      unfold Contents
      rw [hop, hpos]
      dsimp only at hcontents ⊢
      rw [suffixBests_concat (strictWeak_beatsAt .lt (by decide)), ← hcontents]
      rfl
    | groupConcat =>
      refine ⟨_, rfl, ?_, hwindow', hlive⟩
      unfold Contents
      rw [hop]
      trivial

/-! ## The low edge -/

/-- The queue loses its front exactly when the front is the row that leaves. -/
theorem suffixBests_tail (beaten : Ordering) (hlt : lo < next) (hn : next ≤ rows.length) :
    (if (suffixBests (beatsAt beaten) (posArgs rows lo next)).head?.any (·.1 = lo) then
        (suffixBests (beatsAt beaten) (posArgs rows lo next)).tail
      else suffixBests (beatsAt beaten) (posArgs rows lo next)) =
      suffixBests (beatsAt beaten) (posArgs rows (lo + 1) next) := by
  have hfar : ∀ x ∈ suffixBests (beatsAt beaten) (posArgs rows (lo + 1) next), x.1 ≠ lo := by
    intro x hx
    have := le_of_mem_posArgs (Lib.mem_of_mem_suffixBests hx)
    omega
  have hstay : (suffixBests (beatsAt beaten) (posArgs rows (lo + 1) next)).head?.any (·.1 = lo) =
      false := by
    cases hqueue : suffixBests (beatsAt beaten) (posArgs rows (lo + 1) next) with
    | nil => rfl
    | cons x queue => simpa using hfar x (by rw [hqueue]; exact List.mem_cons_self)
  rw [posArgs_cons hlt hn]
  cases harg : nonNull rows[lo] with
  | none =>
    rw [Option.map_none, Option.toList_none, List.nil_append, hstay, if_neg Bool.false_ne_true]
  | some v =>
    rw [Option.map_some, Option.toList_some, List.singleton_append, suffixBests]
    split_ifs with hany hfront hfront
    · rw [hstay] at hfront
      cases hfront
    · rfl
    · rfl
    · simp at hfront

/-- A row without an argument only moves the counter. -/
theorem popRow_none (hop : kind.op.beaten = none) {pos : ℕ} {row : Bool × Option Value}
    (harg : nonNull row = none) : st.popRow lib kind pos row =
      { st with kept := if row.1 then st.kept - 1 else st.kept } := by
  obtain ⟨kept, arg⟩ := row
  unfold SlidingFrameAgg.popRow
  rw [hop]
  dsimp only
  cases arg with
  | none => cases kept <;> rfl
  | some v =>
    have hv : isNull v = true := by simpa [nonNull] using harg
    dsimp only
    rw [if_pos hv]
    cases kept <;> rfl

theorem popRow_some (hop : kind.op.beaten = none) {pos : ℕ} {row : Bool × Option Value} {v : Value}
    (harg : nonNull row = some v) : st.popRow lib kind pos row =
      match kind.op with
      | .sum => { st with
          kept := if row.1 then st.kept - 1 else st.kept
          nonnull := st.nonnull - 1
          sum := (popSum lib st.sum v).1
          degraded := st.degraded || (popSum lib st.sum v).2 }
      | .avg => { st with
          kept := if row.1 then st.kept - 1 else st.kept
          nonnull := st.nonnull - 1
          avg := (st.avg.pop lib v).1
          degraded := st.degraded || (st.avg.pop lib v).2 }
      | _ => { st with
          kept := if row.1 then st.kept - 1 else st.kept
          nonnull := st.nonnull - 1 } := by
  obtain ⟨kept, arg⟩ := row
  obtain ⟨harg', hv⟩ := Option.filter_eq_some_iff.mp harg
  obtain rfl : arg = some v := harg'
  have hnull : isNull v ≠ true := by simpa using hv
  unfold SlidingFrameAgg.popRow
  rw [hop]
  dsimp only
  rw [if_neg hnull]
  cases kept <;> cases kind.op <;> rfl

/-- A row leaves the fold of anything but a SUM. -/
theorem Contents.popRow (hlib : ExactArithmetic lib) (hsum : Summable s (rows.filterMap nonNull))
    (hop : kind.op ≠ .sum) (h : Contents lib kind s rows lo next st) (hlive : st.degraded = false)
    (hlt : lo < next) (hn : next ≤ rows.length) :
    Contents lib kind s rows (lo + 1) next (st.popRow lib kind lo rows[lo]) ∧
      (st.popRow lib kind lo rows[lo]).degraded = false := by
  have hargs := args_cons hlt hn
  have hblock := block_cons hlt hn
  unfold Contents at h ⊢
  cases hkind : kind.op with
  | sum => exact absurd hkind hop
  | groupConcat =>
    refine ⟨trivial, ?_⟩
    cases harg : nonNull rows[lo] with
    | none =>
      rw [popRow_none (by rw [hkind]; rfl) harg]
      exact hlive
    | some v =>
      rw [popRow_some (by rw [hkind]; rfl) harg, hkind]
      exact hlive
  | min =>
    rw [hkind] at h
    have htail := suffixBests_tail .gt hlt hn
    unfold SlidingFrameAgg.popRow
    rw [hkind]
    dsimp only [AggOp.beaten] at h ⊢
    rw [← h] at htail
    split_ifs at htail ⊢ <;> exact ⟨htail, hlive⟩
  | max =>
    rw [hkind] at h
    have htail := suffixBests_tail .lt hlt hn
    unfold SlidingFrameAgg.popRow
    rw [hkind]
    dsimp only [AggOp.beaten] at h ⊢
    rw [← h] at htail
    split_ifs at htail ⊢ <;> exact ⟨htail, hlive⟩
  | count =>
    rw [hkind] at h
    obtain ⟨hkept, hnonnull⟩ := h
    have hkept' : (if rows[lo].1 then st.kept - 1 else st.kept) =
        ((block rows (lo + 1) next).countP (·.1) : ℕ) := by
      rw [hkept, hblock, List.countP_cons]
      split_ifs <;> simp
    cases harg : nonNull rows[lo] with
    | none =>
      rw [popRow_none (by rw [hkind]; rfl) harg]
      rw [harg] at hargs
      exact ⟨⟨hkept', by rw [hnonnull, hargs]; rfl⟩, hlive⟩
    | some v =>
      rw [popRow_some (by rw [hkind]; rfl) harg, hkind]
      rw [harg] at hargs
      refine ⟨⟨hkept', ?_⟩, hlive⟩
      change st.nonnull - 1 = _
      rw [hnonnull, hargs]
      simp
  | avg =>
    rw [hkind] at h
    obtain ⟨hnonnull, hslid⟩ := h
    have hsuf : args rows lo next <:+ args rows 0 next :=
      ⟨args rows 0 lo, (args_append lo.zero_le hlt.le hn).symm⟩
    cases harg : nonNull rows[lo] with
    | none =>
      rw [popRow_none (by rw [hkind]; rfl) harg]
      rw [harg, Option.toList_none, List.nil_append] at hargs
      exact ⟨⟨by rw [hnonnull, hargs], hargs ▸ hslid⟩, hlive⟩
    | some v =>
      rw [popRow_some (by rw [hkind]; rfl) harg, hkind]
      rw [harg, Option.toList_some, List.singleton_append] at hargs
      rw [hargs] at hnonnull hslid hsuf
      obtain ⟨hdeg, hslid'⟩ := hslid.pop hlib (hsum.block (args_block rows 0 next)) hsuf
      refine ⟨⟨?_, hslid'⟩, ?_⟩
      · change st.nonnull - 1 = _
        rw [hnonnull]
        simp
      · change (st.degraded || (st.avg.pop lib v).2) = false
        rw [hlive, hdeg]
        rfl

/-- The rows that leave, one by one. -/
def popRows (lib : Library) (kind : AggKind) (gone : List (ℕ × Bool × Option Value))
    (st : SlidingFrameAgg) : SlidingFrameAgg :=
  gone.foldl (fun st x => st.popRow lib kind x.1 x.2) st

theorem popWindow_numbered {mid : ℕ} (hlo : lo ≤ mid) (hmid : mid ≤ next)
    (hn : next ≤ rows.length) :
    SlidingFrameAgg.popWindow lib kind mid (numbered rows lo next) st =
      { popRows lib kind (numbered rows lo mid) st with window := numbered rows mid next } := by
  induction hd : mid - lo generalizing lo st with
  | zero =>
    obtain rfl : lo = mid := by omega
    rw [numbered_self]
    rcases hmid.eq_or_lt with rfl | hlt
    · rw [numbered_self]
      rfl
    · rw [numbered_cons hlt hn, SlidingFrameAgg.popWindow, if_neg (lt_irrefl lo)]
      rfl
  | succ d ih =>
    have hlt : lo < mid := by omega
    rw [numbered_cons (hlt.trans_le hmid) hn, SlidingFrameAgg.popWindow, if_pos hlt,
      ih (by omega) (by omega), numbered_cons hlt (hmid.trans hn)]
    rfl

theorem Contents.popRows (hlib : ExactArithmetic lib) (hsum : Summable s (rows.filterMap nonNull))
    (hop : kind.op ≠ .sum) {mid : ℕ} (hlo : lo ≤ mid) (hmid : mid ≤ next) (hn : next ≤ rows.length)
    (h : Contents lib kind s rows lo next st) (hlive : st.degraded = false) :
    Contents lib kind s rows mid next (popRows lib kind (numbered rows lo mid) st) ∧
      (popRows lib kind (numbered rows lo mid) st).degraded = false := by
  induction hd : mid - lo generalizing lo st with
  | zero =>
    obtain rfl : lo = mid := by omega
    rw [numbered_self]
    exact ⟨h, hlive⟩
  | succ d ih =>
    have hlt : lo < mid := by omega
    obtain ⟨hnext, hlive'⟩ := h.popRow hlib hsum hop hlive (hlt.trans_le hmid) hn
    rw [numbered_cons hlt (hmid.trans hn)]
    exact ih (by omega) hnext hlive' (by omega)

theorem popRows_sum (hop : kind.op = .sum) (gone : List (ℕ × Bool × Option Value)) :
    ((popRows lib kind gone st).sum, (popRows lib kind gone st).degraded) =
      popSums lib (gone.filterMap fun x => nonNull x.2) (st.sum, st.degraded) := by
  induction gone generalizing st with
  | nil => rfl
  | cons x gone ih =>
    have hfold : popRows lib kind (x :: gone) st =
        popRows lib kind gone (st.popRow lib kind x.1 x.2) := rfl
    rw [hfold, ih, List.filterMap_cons]
    cases harg : nonNull x.2 with
    | none => rw [popRow_none (by rw [hop]; rfl) harg]
    | some v =>
      rw [popRow_some (by rw [hop]; rfl) harg, hop]
      rfl

end Sliding

end Docsql.Window
