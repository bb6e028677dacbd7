import Docsql.Scalar.Total
import Docsql.Window.SlidingFrames

/-!
# Aggregates of a whole partition

Each row's value against the batch aggregate of its frame, over all bounds that move forward.
-/

namespace Docsql.Window

open Scalar (Eval Library index isNull isDecimal)
open Lib (firstBest head?_suffixBests suffixBests)

section Frames

variable {codec : DecimalCodec} {lib : Library} {kind : AggKind} {s : ℕ}
  {rows : List (Bool × Option Value)} {lo next l h : ℕ} {st : SlidingFrameAgg}

/-! ## One frame -/

/-- The batch aggregate of a frame. -/
def batchOf (codec : DecimalCodec) (lib : Library) (kind : AggKind)
    (rows : List (Bool × Option Value)) (b : ℕ × ℕ) : Eval Value :=
  combineAgg lib kind ((block rows b.1 (b.2 + 1)).countP (·.1))
    (combined codec kind (args rows b.1 (b.2 + 1)))

theorem firstBest_map (beaten : Ordering) (xs : List (ℕ × Value)) :
    (firstBest (beatsAt beaten) xs).map Prod.snd = firstBest (beats beaten) (xs.map Prod.snd) := by
  induction xs using List.reverseRecOn with
  | nil => rfl
  | append_singleton xs x ih =>
    rw [List.map_append, List.map_singleton, Lib.firstBest_concat, Lib.firstBest_concat, ← ih]
    cases firstBest (beatsAt beaten) xs with
    | none => rfl
    | some y =>
      dsimp only [Option.elim_some, Option.map_some, beatsAt]
      split_ifs with hb <;> simp [hb]

/-- The value of the queues is the first extremum. -/
theorem extreme_value {beaten : Ordering} (hb : beaten ≠ .eq) (hn : next ≤ rows.length)
    (hst : st.extreme = suffixBests (beatsAt beaten) (posArgs rows lo next)) :
    (st.extreme.head?.map (·.2)).getD .null =
      (firstBest (beats beaten) (args rows lo next)).getD .null := by
  rw [hst, head?_suffixBests (strictWeak_beatsAt beaten hb), ← map_posArgs hn, ← firstBest_map]

/-- The type of a sum. -/
def valueKind : Value → Total.Kind
  | .int _ => .int
  | .decimal _ => .dec
  | _ => .null

theorem Same.valueKind {v w : Value} (h : Same v w) : valueKind v = valueKind w := by
  cases v <;> cases w <;> first | rfl | cases h

theorem Represents.valueKind {x : Value} {t : Total} (h : Represents s x t) :
    valueKind x = t.kind := by
  cases x <;> cases t <;> first | rfl | exact h.elim

theorem Represents.same {x y : Value} {t : Total} (hx : Represents s x t)
    (hy : Represents s y t) : Same x y := by
  cases t with
  | int z =>
    cases x with
    | int i =>
      cases y with
      | int j => exact congrArg Value.int (Int64.toInt_inj.mp (hx.trans hy.symm))
      | _ => exact hy.elim
    | _ => exact hx.elim
  | dec q =>
    cases x with
    | decimal d =>
      cases y with
      | decimal e => exact hx.1.trans hy.1.symm
      | _ => exact hy.elim
    | _ => exact hx.elim
  | lost =>
    cases x with
    | null =>
      cases y with
      | null => rfl
      | _ => exact hy.elim
    | _ => exact hx.elim

/-- The batch sum. -/
theorem sum_batch (hlib : ExactArithmetic lib) {vals : List Value} (hvals : Summable s vals)
    (hop : kind.op = .sum) {w : Value} {kept : ℕ} (hw : combineAgg lib kind kept vals = .ok w) :
    (vals = [] ∧ w = .null) ∨ vals ≠ [] ∧ Represents s w (total vals) := by
  unfold combineAgg at hw
  rw [hop] at hw
  dsimp only at hw
  split_ifs at hw with hnil
  · exact .inl ⟨hnil, (Except.ok.inj hw).symm⟩
  · obtain ⟨w', hw', hrep⟩ := addValues_total hlib hvals
    obtain rfl := Except.ok.inj (hw'.symm.trans hw)
    exact .inr ⟨hnil, hrep⟩

theorem Summed.same (hlib : ExactArithmetic lib) {vals : List Value} (hvals : Summable s vals)
    (hop : kind.op = .sum) {sum : Option Value} (h : Summed s vals sum) {w : Value} {kept : ℕ}
    (hw : combineAgg lib kind kept vals = .ok w) : Same (sum.getD .null) w := by
  rcases sum_batch hlib hvals hop hw with ⟨hnil, rfl⟩ | ⟨hne, hrep⟩
  · obtain ⟨-, rfl⟩ | ⟨hne, -⟩ := h
    · rfl
    · exact absurd hnil hne
  · obtain ⟨hnil, -⟩ | ⟨-, x, rfl, hx⟩ := h
    · exact absurd hnil hne
    · exact hx.same hrep

/-- A sum that keeps its type is the sum of the rest. -/
theorem Slid.summed {rest : List Value} {t : Total} {sum : Option Value}
    (h : Slid s t rest sum) (hrest : Summable s rest) (hlost : t ≠ .lost)
    (hkind : sumKind rest = t.kind) : Summed s rest sum := by
  obtain ⟨x, rfl, hx⟩ := h
  have hne : rest ≠ [] := by
    intro hnil
    rw [sumKind, if_pos hnil] at hkind
    cases t with
    | lost => exact hlost rfl
    | _ => cases hkind
  rw [sumKind, if_neg hne] at hkind
  have hspec := total_spec hrest.exact
  refine .inr ⟨hne, x, rfl, ?_⟩
  cases t with
  | lost => exact absurd rfl hlost
  | int z =>
    obtain ⟨i, rfl, hi⟩ := hx
    cases hr : total rest with
    | int y =>
      rw [hr] at hspec
      have hiy : i.toInt = y := by exact_mod_cast hi.trans hspec.1.symm
      exact hiy
    | _ =>
      rw [hr] at hkind
      cases hkind
  | dec q =>
    obtain ⟨d, rfl, hd, hds⟩ := hx
    cases hr : total rest with
    | dec p =>
      rw [hr] at hspec
      exact ⟨hd.trans hspec.1.symm, hds⟩
    | _ =>
      rw [hr] at hkind
      cases hkind

theorem same_sum (hlib : ExactArithmetic lib) {rest : List Value} (hrest : Summable s rest)
    {t : Total} {sum : Option Value} {w : Value} {kept : ℕ} (hop : kind.op = .sum)
    (hlost : t ≠ .lost) (hslid : Slid s t rest sum)
    (hw : combineAgg lib kind kept rest = .ok w) :
    Same (sum.getD .null) w ↔ sumKind rest = t.kind := by
  constructor
  · intro hsame
    have hwkind : valueKind w = sumKind rest := by
      unfold sumKind
      rcases sum_batch hlib hrest hop hw with ⟨hnil, rfl⟩ | ⟨hne, hrep⟩
      · rw [if_pos hnil]
        rfl
      · rw [if_neg hne]
        exact hrep.valueKind
    rw [← hwkind, ← hsame.valueKind]
    obtain ⟨x, rfl, hx⟩ := hslid
    cases t with
    | lost => exact absurd rfl hlost
    | int z =>
      obtain ⟨i, rfl, -⟩ := hx
      rfl
    | dec q =>
      obtain ⟨d, rfl, -⟩ := hx
      rfl
  · exact fun hkind => (hslid.summed hrest hlost hkind).same hlib hrest hop hw

/-- The pushes up to the high edge. -/
theorem pushes_ok (hlib : ExactArithmetic lib) (hsum : Summable s (rows.filterMap nonNull))
    (hlive : Live lib kind s rows lo next st) (hlo : lo ≤ next) {hi : ℕ} (hnext : next ≤ hi)
    (hhi : hi ≤ rows.length) :
    ∃ st', (List.range' next (hi - next)).foldlM
        (fun st r => do SlidingFrameAgg.push lib kind st r (← index rows r)) st = .ok st' ∧
      Live lib kind s rows lo hi st' := by
  induction hd : hi - next generalizing next st with
  | zero =>
    obtain rfl : next = hi := by omega
    exact ⟨st, rfl, hlive⟩
  | succ d ih =>
    have hlt : next < rows.length := by omega
    obtain ⟨st₁, hst₁, hlive₁⟩ := hlive.push hlib hsum hlo hlt
    obtain ⟨st', hst', hlive'⟩ := ih hlive₁ (by omega) (by omega) (by omega)
    refine ⟨st', ?_, hlive'⟩
    rw [List.range'_succ, List.foldlM_cons]
    have hindex : index rows next = .ok rows[next] := by
      rw [index, List.getElem?_eq_getElem]
    rw [hindex]
    change (SlidingFrameAgg.push lib kind st next rows[next] >>= _) = _
    rw [hst₁]
    exact hst'

/-- What a frame leaves behind. -/
structure FrameStep (lib : Library) (kind : AggKind) (s : ℕ) (rows : List (Bool × Option Value))
    (lo l h : ℕ) (st : SlidingFrameAgg) (w : Value) : Prop where
  abandons : st.degraded = true ↔ Abandons kind rows lo l h
  enough : st.degraded = false → FrameFits kind rows lo l h → DoubleFits kind rows l h →
    Same (st.value lib kind) w
  needed : st.degraded = false → Same (st.value lib kind) w → FrameFits kind rows lo l h
  next : st.degraded = false → (kind.op = .sum → FrameFits kind rows lo l h) →
    Live lib kind s rows l (h + 1) st

theorem popTo_other (hlib : ExactArithmetic lib) (hsum : Summable s (rows.filterMap nonNull))
    (hop : kind.op ≠ .sum) (hgc : kind.op ≠ .groupConcat) (hlive : Live lib kind s rows lo (h + 1) st)
    (hlo : lo ≤ l) (hlh : l ≤ h) (hh : h < rows.length) {w : Value}
    (hw : combineAgg lib kind ((block rows l (h + 1)).countP (·.1)) (args rows l (h + 1)) = .ok w) :
    FrameStep lib kind s rows lo l h (st.popTo lib kind l) w := by
  obtain ⟨hcontents, hwindow, hdeg⟩ := hlive
  obtain ⟨hcontents', hdeg'⟩ := hcontents.popRows hlib hsum hop hlo (by omega) hh hdeg
  unfold SlidingFrameAgg.popTo
  rw [hwindow, popWindow_numbered hlo (by omega) hh]
  set st' := popRows lib kind (numbered rows lo l) st
  have hnext : Live lib kind s rows l (h + 1) { st' with window := numbered rows l (h + 1) } :=
    ⟨hcontents', rfl, hdeg'⟩
  have habandon : ¬Abandons kind rows lo l h := fun ha => hop ha.1
  have hsuf : args rows l (h + 1) <:+ args rows 0 (h + 1) :=
    ⟨args rows 0 l, (args_append l.zero_le (by omega) hh).symm⟩
  unfold Contents at hcontents'
  have hpart : (FrameFits kind rows lo l h → DoubleFits kind rows l h →
      Same (st'.value lib kind) w) ∧ (Same (st'.value lib kind) w → FrameFits kind rows lo l h) := by
    have hw' := hw
    unfold FrameFits DoubleFits SlidingFrameAgg.value
    unfold combineAgg at hw
    cases hkind : kind.op with
    | sum => exact absurd hkind hop
    | groupConcat => exact absurd hkind hgc
    | count =>
      rw [hkind] at hcontents' hw
      obtain ⟨hkept, hnonnull⟩ := hcontents'
      refine ⟨fun _ _ => Same.of_eq ?_, fun _ => trivial⟩
      rw [← Except.ok.inj hw]
      dsimp only
      rw [hkept, hnonnull]
    | min =>
      rw [hkind] at hcontents' hw
      refine ⟨fun _ _ => Same.of_eq ?_, fun _ => trivial⟩
      exact (extreme_value (by decide) hh hcontents').trans (Except.ok.inj hw)
    | max =>
      rw [hkind] at hcontents' hw
      refine ⟨fun _ _ => Same.of_eq ?_, fun _ => trivial⟩
      exact (extreme_value (by decide) hh hcontents').trans (Except.ok.inj hw)
    | avg =>
      rw [hkind] at hcontents'
      obtain ⟨hnonnull, hslid⟩ := hcontents'
      obtain ⟨hneeded, henough⟩ := hslid.value_same hlib (hsum.block (args_block rows 0 (h + 1)))
        hsuf (batch_of_combineAgg hkind hw')
      dsimp only
      rw [hnonnull]
      refine ⟨fun hfits hdouble => henough hfits fun hdec => ?_, hneeded⟩
      rcases hdouble rfl hdec with hnil | hsmall
      · left
        rw [args_append l.zero_le (show l ≤ h + 1 by omega) hh, hnil, List.nil_append]
      · exact .inr hsmall
  exact ⟨iff_of_false (by simp [hdeg']) habandon, fun _ => hpart.1, fun _ => hpart.2,
    fun _ _ => hnext⟩

/-- A SUM: given up, or right exactly where it keeps its type. -/
theorem popTo_sum (hlib : ExactArithmetic lib) (hsum : Summable s (rows.filterMap nonNull))
    (hop : kind.op = .sum) (hlive : Live lib kind s rows lo (h + 1) st)
    (hlo : lo ≤ l) (hlh : l ≤ h) (hh : h < rows.length) {w : Value} {kept : ℕ}
    (hw : combineAgg lib kind kept (args rows l (h + 1)) = .ok w) :
    FrameStep lib kind s rows lo l h (st.popTo lib kind l) w := by
  obtain ⟨hcontents, hwindow, hdeg⟩ := hlive
  unfold Contents at hcontents
  rw [hop] at hcontents
  dsimp only at hcontents
  have hargs : args rows lo (h + 1) = args rows lo l ++ args rows l (h + 1) :=
    args_append hlo (by omega) hh
  have hpops := @popRows_sum lib kind st hop (numbered rows lo l)
  have hgone : (numbered rows lo l).filterMap (fun x => nonNull x.2) = args rows lo l := by
    rw [args, ← map_numbered (show l ≤ rows.length by omega), List.filterMap_map]
    rfl
  rw [hgone, hdeg] at hpops
  have hsum' : (popRows lib kind (numbered rows lo l) st).sum =
      (popSums lib (args rows lo l) (st.sum, false)).1 := congrArg Prod.fst hpops
  have hdeg' : (popRows lib kind (numbered rows lo l) st).degraded =
      (popSums lib (args rows lo l) (st.sum, false)).2 := congrArg Prod.snd hpops
  unfold SlidingFrameAgg.popTo
  rw [hwindow, popWindow_numbered hlo (by omega) hh]
  have hvalue : ({ popRows lib kind (numbered rows lo l) st with
      window := numbered rows l (h + 1) } : SlidingFrameAgg).value lib kind =
        (popSums lib (args rows lo l) (st.sum, false)).1.getD .null := by
    unfold SlidingFrameAgg.value
    rw [hop]
    dsimp only
    rw [hsum']
  have hrest := hsum.block (args_block rows l (h + 1))
  have hnextOf : Summed s (args rows l (h + 1)) (popSums lib (args rows lo l) (st.sum, false)).1 →
      (popSums lib (args rows lo l) (st.sum, false)).2 = false →
      Live lib kind s rows l (h + 1)
        { popRows lib kind (numbered rows lo l) st with window := numbered rows l (h + 1) } := by
    intro hsummed hlive
    refine ⟨?_, rfl, hdeg'.trans hlive⟩
    unfold Contents
    rw [hop]
    exact hsum' ▸ hsummed
  by_cases hnil : args rows lo l = []
  · -- nothing leaves
    have hsame : popSums lib (args rows lo l) (st.sum, false) = (st.sum, false) := by
      rw [hnil]
      rfl
    rw [hnil, List.nil_append] at hargs
    rw [hargs] at hcontents
    rw [hsame] at hvalue hnextOf hdeg'
    have hright : Same (st.sum.getD .null) w := hcontents.same hlib hrest hop hw
    have hfits : FrameFits kind rows lo l h := by
      unfold FrameFits
      rw [hop]
      exact fun hne => absurd hnil hne
    refine ⟨iff_of_false (by simp [hdeg']) fun ha => ha.2.1 hnil, fun _ _ _ => ?_,
      fun _ _ => hfits, fun _ _ => hnextOf hcontents rfl⟩
    rw [hvalue]
    exact hright
  · have hall := hsum.block (args_block rows lo (h + 1))
    rw [hargs] at hcontents hall
    obtain ⟨hgiven, hslid⟩ := popSums_spec hlib hcontents hall hnil
    have hdegraded : (popRows lib kind (numbered rows lo l) st).degraded = true ↔
        Abandons kind rows lo l h := by
      rw [hdeg', hgiven]
      exact ⟨fun hg => ⟨hop, hnil, hg⟩, fun ha => ha.2.2⟩
    have hkind : sumKind (args rows lo l ++ args rows l (h + 1)) =
        (total (args rows lo l ++ args rows l (h + 1))).kind := if_neg (by simp [hnil])
    have hfits : FrameFits kind rows lo l h ↔ sumKind (args rows l (h + 1)) =
        (total (args rows lo l ++ args rows l (h + 1))).kind := by
      unfold FrameFits
      rw [hop, hargs, ← hkind]
      exact ⟨fun hf => hf hnil, fun hf _ => hf⟩
    have hgoing : (popRows lib kind (numbered rows lo l) st).degraded = false →
        total (args rows lo l ++ args rows l (h + 1)) ≠ .lost ∧
          Slid s (total (args rows lo l ++ args rows l (h + 1))) (args rows l (h + 1))
            (popSums lib (args rows lo l) (st.sum, false)).1 := by
      intro hlive
      refine ⟨fun hlost => ?_, hslid (hdeg'.symm.trans hlive)⟩
      have hgive : GivenUp (args rows lo l) (args rows l (h + 1)) := by
        unfold GivenUp
        rw [hlost]
        trivial
      rw [hdeg', hgiven.mpr hgive] at hlive
      cases hlive
    refine ⟨hdegraded, fun hlive hf _ => ?_, fun hlive hsame => ?_, fun hlive hf => ?_⟩
    · obtain ⟨hlost, hrestOf⟩ := hgoing hlive
      rw [hvalue]
      exact (same_sum hlib hrest hop hlost hrestOf hw).mpr (hfits.mp hf)
    · obtain ⟨hlost, hrestOf⟩ := hgoing hlive
      rw [hvalue] at hsame
      exact hfits.mpr ((same_sum hlib hrest hop hlost hrestOf hw).mp hsame)
    · obtain ⟨hlost, hrestOf⟩ := hgoing hlive
      exact hnextOf (hrestOf.summed hrest hlost (hfits.mp (hf hop))) (hdeg'.symm.trans hlive)

/-! ## Frame after frame -/

/-- The bounds never move back, and their frames are in the partition. -/
structure Forward (n : ℕ) (bounds : List (ℕ × ℕ)) : Prop where
  inside : ∀ b ∈ bounds, b.1 ≤ b.2 → b.2 < n
  sorted : bounds.Pairwise fun b c => b.1 ≤ c.1 ∧ b.2 ≤ c.2

/-- A value for a frame: the batch aggregate of its rows. -/
def Right (codec : DecimalCodec) (lib : Library) (kind : AggKind)
    (rows : List (Bool × Option Value)) (b : ℕ × ℕ) (v : Value) : Prop :=
  ∃ w, batchOf codec lib kind rows b = .ok w ∧ Same v w

theorem freshFold_batch (hexact : ∀ v ∈ rows.filterMap nonNull, Exact v) {b : ℕ × ℕ}
    (hin : b.1 ≤ b.2 → b.2 < rows.length) {w : Value}
    (hw : batchOf codec lib kind rows b = .ok w) :
    freshFold codec lib kind rows b.1 b.2 = .ok w := by
  rcases Nat.lt_or_ge b.2 b.1 with hlt | hle
  · -- an empty frame folds nothing
    have hblock : block rows b.1 (b.2 + 1) = [] := by
      rw [block, List.drop_eq_nil_iff]
      exact (List.length_take_le _ _).trans hlt
    unfold batchOf args at hw
    rw [hblock] at hw
    obtain ⟨hfolded, hkept, hnonnull, -⟩ := @Pushed.start codec lib kind
    have hstart := hfolded.snapshot hkept hnonnull
    obtain rfl := Except.ok.inj (hstart.symm.trans hw)
    unfold freshFold pushRange
    rw [Nat.sub_eq_zero_of_le hlt]
    rfl
  · exact freshFold_eq (hin hle)
      (fun v hv => hexact v ((args_block rows b.1 (b.2 + 1)).subset hv)) hw

theorem distinct_eq (hd : kind.distinct = false) : { kind with distinct := false } = kind := by
  cases kind
  subst hd
  rfl

/-- After the sliding fold is given up. -/
theorem slideFrames_degraded (hexact : ∀ v ∈ rows.filterMap nonNull, Exact v)
    (hd : kind.distinct = false) (hdeg : st.degraded = true) {bounds : List (ℕ × ℕ)}
    (hin : ∀ b ∈ bounds, b.1 ≤ b.2 → b.2 < rows.length)
    (hbatch : ∀ b ∈ bounds, ∃ w, batchOf codec lib kind rows b = .ok w) :
    ∃ vals, slideFrames codec lib kind rows bounds st next = .ok vals ∧
      List.Forall₂ (Right codec lib kind rows) bounds vals := by
  induction bounds with
  | nil => exact ⟨[], rfl, .nil⟩
  | cons b bounds ih =>
    obtain ⟨vals, hvals, hright⟩ := ih (fun c hc => hin c (List.mem_cons_of_mem b hc))
      fun c hc => hbatch c (List.mem_cons_of_mem b hc)
    obtain ⟨w, hw⟩ := hbatch b List.mem_cons_self
    have hfresh := freshFold_batch hexact (hin b List.mem_cons_self) hw
    refine ⟨w :: vals, ?_, .cons ⟨w, hw, Same.refl w⟩ hright⟩
    obtain ⟨lo, hi⟩ := b
    rw [slideFrames, if_pos (by simp [hdeg]), distinct_eq hd, hfresh]
    change (slideFrames codec lib kind rows bounds st next >>= _) = _
    rw [hvals]
    rfl

/-- The loop over a frame that is not empty. -/
theorem slideFrames_cons {bounds : List (ℕ × ℕ)} (hle : l ≤ h) (hdeg : st.degraded = false)
    (hd : kind.distinct = false) {st₁ : SlidingFrameAgg} {v : Value} {vals : List Value}
    (hpush : (List.range' next (h + 1 - next)).foldlM
      (fun st r => do SlidingFrameAgg.push lib kind st r (← index rows r)) st = .ok st₁)
    (hv : (if (st₁.popTo lib kind l).degraded then freshFold codec lib kind rows l h
      else .ok ((st₁.popTo lib kind l).value lib kind)) = .ok v)
    (hvals : slideFrames codec lib kind rows bounds (st₁.popTo lib kind l) (max next (h + 1)) =
      .ok vals) :
    slideFrames codec lib kind rows ((l, h) :: bounds) st next = .ok (v :: vals) := by
  rw [slideFrames, if_neg (by simp [hle, hdeg]), hpush, distinct_eq hd]
  change (if (st₁.popTo lib kind l).degraded = true then freshFold codec lib kind rows l h >>= fun v =>
      slideFrames codec lib kind rows bounds (st₁.popTo lib kind l) (max next (h + 1)) >>=
        fun rest => Except.ok (v :: rest)
    else Except.ok ((st₁.popTo lib kind l).value lib kind) >>= fun v =>
      slideFrames codec lib kind rows bounds (st₁.popTo lib kind l) (max next (h + 1)) >>=
        fun rest => Except.ok (v :: rest)) = _
  rw [hvals]
  split_ifs at hv ⊢
  · rw [hv]
    rfl
  · rw [hv]
    rfl

theorem slideFrames_empty {bounds : List (ℕ × ℕ)} (hlt : h < l) (hd : kind.distinct = false)
    {v : Value} {vals : List Value} (hv : freshFold codec lib kind rows l h = .ok v)
    (hvals : slideFrames codec lib kind rows bounds st next = .ok vals) :
    slideFrames codec lib kind rows ((l, h) :: bounds) st next = .ok (v :: vals) := by
  rw [slideFrames, if_pos (by simp [hlt]), distinct_eq hd, hv]
  change (slideFrames codec lib kind rows bounds st next >>= _) = _
  rw [hvals]
  rfl

/-! ## The loop returns -/

/-- The state of a SUM, right or wrong. -/
structure Sound (st : SlidingFrameAgg) : Prop where
  sum : ∀ x, st.sum = some x → SumValue x
  window : ∀ x ∈ st.window, ∀ v, nonNull x.2 = some v → Exact v

theorem popSum_sound {sum : Option Value} (hs : ∀ x, sum = some x → SumValue x) {v : Value}
    (hv : Exact v) : ∀ x, (popSum lib sum v).1 = some x → SumValue x := by
  intro x hx
  unfold popSum at hx
  split at hx
  · obtain rfl := Option.some.inj hx
    trivial
  · obtain rfl := Option.some.inj hx
    trivial
  · obtain ⟨next, hnext, hsum⟩ := @combineValues_ok lib lib.checkedSub lib.subF64 (· - ·) _ _
      (hs _ rfl) hv
    rw [subValues, hnext] at hx
    obtain rfl := Option.some.inj hx
    exact hsum

theorem Sound.popTo (hop : kind.op = .sum) (hst : Sound st) : Sound (st.popTo lib kind l) := by
  have hrun : ∀ (window : List (ℕ × Bool × Option Value)) (st : SlidingFrameAgg),
      (∀ x, st.sum = some x → SumValue x) →
      (∀ x ∈ window, ∀ v, nonNull x.2 = some v → Exact v) →
      Sound (SlidingFrameAgg.popWindow lib kind l window st) := by
    intro window
    induction window with
    | nil => exact fun st hs _ => ⟨hs, fun x hx => absurd hx List.not_mem_nil⟩
    | cons x window ih =>
      intro st hs hw
      obtain ⟨pos, row⟩ := x
      unfold SlidingFrameAgg.popWindow
      split_ifs
      · refine ih _ ?_ fun y hy => hw y (List.mem_cons_of_mem _ hy)
        cases harg : nonNull row with
        | none =>
          rw [popRow_none (by rw [hop]; rfl) harg]
          exact hs
        | some v =>
          rw [popRow_some (by rw [hop]; rfl) harg, hop]
          exact popSum_sound hs (hw _ List.mem_cons_self v harg)
      · exact ⟨hs, hw⟩
  exact hrun st.window st hst.sum hst.window

theorem Sound.push (hop : kind.op = .sum) (hst : Sound st) {pos : ℕ} {row : Bool × Option Value}
    (hexact : ∀ v, nonNull row = some v → Exact v) :
    ∃ st', st.push lib kind pos row = .ok st' ∧ Sound st' := by
  have hwindow : ∀ x ∈ st.window ++ [(pos, row)], ∀ v, nonNull x.2 = some v → Exact v := by
    intro x hx
    rcases List.mem_append.mp hx with hx | hx
    · exact hst.window x hx
    · obtain rfl := List.mem_singleton.mp hx
      exact hexact
  unfold SlidingFrameAgg.push
  rw [hop]
  dsimp only [AggOp.beaten]
  cases harg : row.2 with
  | none => exact ⟨_, rfl, hst.sum, hwindow⟩
  | some v =>
    dsimp only
    by_cases hnull : isNull v = true
    · rw [if_pos hnull]
      exact ⟨_, rfl, hst.sum, hwindow⟩
    · rw [if_neg hnull]
      have hv := hexact v (by simp [nonNull, harg, Option.filter, hnull])
      have hsum : SumValue (st.sum.getD (.int 0)) := by
        cases hs : st.sum with
        | none => trivial
        | some x => exact hst.sum x hs
      obtain ⟨next, hnext, hnextSum⟩ := @combineValues_ok lib lib.checkedAdd lib.addF64 (· + ·)
        _ _ hsum hv
      unfold pushSum addValues
      rw [hnext]
      refine ⟨_, rfl, fun x hx => ?_, hwindow⟩
      obtain rfl := Option.some.inj hx
      exact hnextSum

theorem Sound.pushes (hop : kind.op = .sum) (hexact : ∀ v ∈ rows.filterMap nonNull, Exact v)
    (hst : Sound st) {hi : ℕ} (hhi : hi ≤ rows.length) :
    ∃ st', (List.range' next (hi - next)).foldlM
        (fun st r => do SlidingFrameAgg.push lib kind st r (← index rows r)) st = .ok st' ∧
      Sound st' := by
  induction hd : hi - next generalizing next st with
  | zero => exact ⟨st, rfl, hst⟩
  | succ d ih =>
    have hlt : next < rows.length := by omega
    obtain ⟨st₁, hst₁, hsound⟩ := @Sound.push lib kind st hop hst next rows[next]
      fun v hv => hexact v (List.mem_filterMap.mpr ⟨_, List.getElem_mem hlt, hv⟩)
    obtain ⟨st', hst', hsound'⟩ := @ih (next + 1) st₁ hsound (by omega)
    refine ⟨st', ?_, hsound'⟩
    have hindex : index rows next = .ok rows[next] := by
      rw [index, List.getElem?_eq_getElem]
    rw [List.range'_succ, List.foldlM_cons, hindex]
    change (SlidingFrameAgg.push lib kind st next rows[next] >>= _) = _
    rw [hst₁]
    exact hst'

theorem slideFrames_total (hop : kind.op = .sum) (hd : kind.distinct = false)
    (hexact : ∀ v ∈ rows.filterMap nonNull, Exact v) (hst : Sound st) {bounds : List (ℕ × ℕ)}
    (hin : ∀ b ∈ bounds, b.1 ≤ b.2 → b.2 < rows.length)
    (hbatch : ∀ b ∈ bounds, ∃ w, batchOf codec lib kind rows b = .ok w) :
    ∃ vals, slideFrames codec lib kind rows bounds st next = .ok vals := by
  induction bounds generalizing st next with
  | nil => exact ⟨[], rfl⟩
  | cons b bounds ih =>
    have hin' := fun c hc => hin c (List.mem_cons_of_mem b hc)
    have hbatch' := fun c hc => hbatch c (List.mem_cons_of_mem b hc)
    obtain ⟨w, hw⟩ := hbatch b List.mem_cons_self
    have hfresh := freshFold_batch hexact (hin b List.mem_cons_self) hw
    obtain ⟨l, h⟩ := b
    cases hdeg : st.degraded with
    | true =>
      obtain ⟨vals, hvals, -⟩ := @slideFrames_degraded codec lib kind rows next st hexact hd hdeg
        _ hin hbatch
      exact ⟨vals, hvals⟩
    | false =>
      rcases Nat.lt_or_ge h l with hlt | hle
      · obtain ⟨vals, hvals⟩ := @ih next st hst hin' hbatch'
        exact ⟨_, slideFrames_empty hlt hd hfresh hvals⟩
      · have hh := hin (l, h) List.mem_cons_self hle
        obtain ⟨st₁, hst₁, hsound⟩ := @Sound.pushes lib kind rows next st hop hexact hst _ hh
        obtain ⟨vals, hvals⟩ := @ih (max next (h + 1)) _ (hsound.popTo (l := l) hop) hin' hbatch'
        cases hdeg' : (st₁.popTo lib kind l).degraded with
        | true =>
          exact ⟨_, slideFrames_cons hle hdeg hd hst₁ (by rw [hdeg']; exact hfresh) hvals⟩
        | false =>
          exact ⟨_, slideFrames_cons hle hdeg hd hst₁ (by rw [hdeg']; rfl) hvals⟩

theorem Live.sound (hop : kind.op = .sum) (hexact : ∀ v ∈ rows.filterMap nonNull, Exact v)
    (hlive : Live lib kind s rows lo next st) : Sound st := by
  obtain ⟨hcontents, hwindow, -⟩ := hlive
  unfold Contents at hcontents
  rw [hop] at hcontents
  refine ⟨fun x hx => ?_, fun x hx v hv => ?_⟩
  · obtain ⟨-, hnone⟩ | ⟨-, y, hy, hrep⟩ := hcontents
    · rw [hnone] at hx
      cases hx
    · obtain rfl := Option.some.inj (hx.symm.trans hy)
      cases ht : total (args rows lo next) <;> rw [ht] at hrep <;> cases x <;> trivial
  · rw [hwindow] at hx
    have hrow : x.2 ∈ rows := (block_block rows lo next).subset (List.of_mem_zip hx).2
    exact hexact v (List.mem_filterMap.mpr ⟨x.2, hrow, hv⟩)

/-- The sliding loop: right on all frames when every step fits, and only then but for the
rounding of doubles. -/
theorem slideFrames_spec (hlib : ExactArithmetic lib)
    (hsum : Summable s (rows.filterMap nonNull)) (hinv : kind.invertible = true)
    (hlive : Live lib kind s rows lo next st) (hlo : lo ≤ next) {bounds : List (ℕ × ℕ)}
    (hforward : Forward rows.length bounds)
    (hlater : ∀ b ∈ bounds, b.1 ≤ b.2 → lo ≤ b.1 ∧ next ≤ b.2 + 1)
    (hbatch : ∀ b ∈ bounds, ∃ w, batchOf codec lib kind rows b = .ok w) :
    ∃ vals, slideFrames codec lib kind rows bounds st next = .ok vals ∧
      (SlideFits kind rows
        (fun lo l h => FrameFits kind rows lo l h ∧ DoubleFits kind rows l h) lo bounds →
          List.Forall₂ (Right codec lib kind rows) bounds vals) ∧
      (List.Forall₂ (Right codec lib kind rows) bounds vals →
        SlideFits kind rows (FrameFits kind rows) lo bounds) := by
  have hop : kind.op ≠ .groupConcat ∧ kind.distinct = false := by
    unfold AggKind.invertible at hinv
    simpa using hinv
  induction bounds generalizing lo next st with
  | nil => exact ⟨[], rfl, fun _ => .nil, fun _ => trivial⟩
  | cons b bounds ih =>
    obtain ⟨l, h⟩ := b
    have hin := fun c hc => hforward.inside c (List.mem_cons_of_mem (l, h) hc)
    have hforward' : Forward rows.length bounds :=
      ⟨hin, (List.pairwise_cons.mp hforward.sorted).2⟩
    have hbatch' := fun c hc => hbatch c (List.mem_cons_of_mem (l, h) hc)
    obtain ⟨w, hw⟩ := hbatch (l, h) List.mem_cons_self
    have hfresh := freshFold_batch hsum.exact (hforward.inside _ List.mem_cons_self) hw
    rw [SlideFits, SlideFits]
    by_cases hempty : h < l
    · -- an empty frame is folded on its own and leaves the state
      obtain ⟨vals, hvals, hfits⟩ := ih hlive hlo hforward'
        (fun c hc => hlater c (List.mem_cons_of_mem _ hc)) hbatch'
      refine ⟨w :: vals, slideFrames_empty hempty hop.2 hfresh hvals, ?_, ?_⟩
      · rw [if_pos hempty]
        exact fun hf => .cons ⟨w, hw, Same.refl w⟩ (hfits.1 hf)
      · rw [if_pos hempty]
        exact fun hr => hfits.2 (List.forall₂_cons.mp hr).2
    · have hlh : l ≤ h := not_lt.mp hempty
      have hh : h < rows.length := hforward.inside _ List.mem_cons_self hlh
      obtain ⟨hlol, hnext⟩ := hlater _ List.mem_cons_self hlh
      obtain ⟨st₁, hst₁, hlive₁⟩ := pushes_ok hlib hsum hlive hlo hnext hh
      have hcombined : ∀ vals, combined codec kind vals = vals := fun vals =>
        if_neg (by simp [hop.2])
      have hw' := hw
      unfold batchOf at hw'
      rw [hcombined] at hw'
      obtain ⟨habandon, henough, hneeded, hnextLive⟩ :
          FrameStep lib kind s rows lo l h (st₁.popTo lib kind l) w := by
        by_cases hsumOp : kind.op = .sum
        · exact popTo_sum hlib hsum hsumOp hlive₁ hlol hlh hh hw'
        · exact popTo_other hlib hsum hsumOp hop.1 hlive₁ hlol hlh hh hw'
      rw [if_neg hempty, if_neg hempty]
      cases hdeg : (st₁.popTo lib kind l).degraded with
      | true =>
        obtain ⟨vals, hvals, hright⟩ := @slideFrames_degraded codec lib kind rows
          (max next (h + 1)) _ hsum.exact hop.2 hdeg _ hin hbatch'
        refine ⟨w :: vals, slideFrames_cons hlh hlive.live hop.2 hst₁ ?_ hvals,
          fun _ => .cons ⟨w, hw, Same.refl w⟩ hright, fun _ => .inl (habandon.mp hdeg)⟩
        rw [hdeg]
        exact hfresh
      | false =>
        have hnot : ¬Abandons kind rows lo l h := fun ha => by
          rw [habandon.mpr ha] at hdeg
          cases hdeg
        have hmax : max next (h + 1) = h + 1 := max_eq_right hnext
        by_cases hgoes : kind.op = .sum → FrameFits kind rows lo l h
        · obtain ⟨vals, hvals, hrest⟩ := ih (hnextLive hdeg hgoes) (by omega) hforward'
            (fun c hc hle => by
              have hle' := (List.pairwise_cons.mp hforward.sorted).1 c hc
              dsimp only at hle'
              exact ⟨hle'.1, by omega⟩) hbatch'
          rw [← hmax] at hvals
          refine ⟨_, slideFrames_cons hlh hlive.live hop.2 hst₁ (by rw [hdeg]; rfl) hvals,
            fun hor => ?_, fun hr => ?_⟩
          · obtain ⟨⟨hfits, hdouble⟩, hbounds⟩ := hor.resolve_left hnot
            exact .cons ⟨w, hw, henough hdeg hfits hdouble⟩ (hrest.1 hbounds)
          · obtain ⟨⟨w', hw'', hsame⟩, hrest'⟩ := List.forall₂_cons.mp hr
            obtain rfl := Except.ok.inj (hw.symm.trans hw'')
            exact .inr ⟨hneeded hdeg hsame, hrest.2 hrest'⟩
        · -- a sum of the wrong type: the loop goes on, and this frame is wrong
          obtain ⟨hsumOp, hfits⟩ := Classical.not_imp.mp hgoes
          obtain ⟨vals, hvals⟩ := @slideFrames_total codec lib kind rows (max next (h + 1)) _ hsumOp
            hop.2 hsum.exact ((hlive₁.sound hsumOp hsum.exact).popTo (l := l) hsumOp)
            _ hin hbatch'
          refine ⟨_, slideFrames_cons hlh hlive.live hop.2 hst₁ (by rw [hdeg]; rfl) hvals,
            fun hor => absurd (hor.resolve_left hnot).1.1 hfits, fun hr => ?_⟩
          obtain ⟨⟨w', hw'', hsame⟩, -⟩ := List.forall₂_cons.mp hr
          obtain rfl := Except.ok.inj (hw.symm.trans hw'')
          exact absurd (hneeded hdeg hsame) hfits

end Frames

end Docsql.Window
