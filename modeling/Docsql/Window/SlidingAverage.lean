import Docsql.Window.ExactSums

/-!
# Averages that slide

The first Decimal turns the average into an exact one, whatever the later frames hold.  Before
it the sum is a double, which only small integers leave as they found it.
-/

namespace Docsql.Window

open Scalar (Eval Library isNull isDecimal asDecimal)

variable {lib : Library} {s : ℕ} {kind : AggKind}

/-! ## Values up to the representation of a Decimal -/

/-- The equality of values in the code: decimals by their number. -/
def Same : Value → Value → Prop
  | .decimal a, .decimal b => a.num = b.num
  | v, w => v = w

theorem Same.refl (v : Value) : Same v v := by
  cases v <;> rfl

theorem Same.of_eq {v w : Value} (h : v = w) : Same v w := h ▸ Same.refl v

/-- The double of a list of arguments. -/
def foldF64 (lib : Library) (vals : List Value) : Eval Binary64 :=
  vals.foldlM (fun acc v => return lib.addF64 acc (← Avg.toF64 lib v)) .zero

/-- The average after `pushed`, of which the suffix `vals` is left. -/
structure AvgSlid (lib : Library) (s : ℕ) (pushed vals : List Value) (a : Avg) : Prop where
  mode : a.decMode = pushed.any isDecimal
  exact : a.decMode = true → a.dec.num = numSum vals ∧ a.dec.scale ≤ s
  buffered : a.decMode = false → a.vals = vals
  whole : a.decMode = false → vals = pushed → foldF64 lib pushed = .ok a.f64
  double : a.decMode = false → (∀ ws, ws <:+: pushed → Small53 (numSum ws)) →
    ∃ i, a.f64 = lib.intToF64 i ∧ (i.toInt : ℚ) = numSum vals

/-! ## Steps of the exact sum -/

theorem addValue_ok (hlib : ExactArithmetic lib) {acc : Decimal} {v : Value} (hacc : acc.scale ≤ s)
    (hv : Exact v) (hscale : ScaleLe s v) (hsmall : Small s (acc.num + numOf v)) :
    ∃ d, Avg.addValue lib acc v = .ok d ∧ d.scale ≤ s ∧ d.num = acc.num + numOf v := by
  have hstep : ∀ b : Decimal, asDecimal lib v = .ok b → b.scale ≤ s → b.num = numOf v →
      ∃ d, Avg.addValue lib acc v = .ok d ∧ d.scale ≤ s ∧ d.num = acc.num + numOf v := by
    intro b hb hbs hbn
    rw [← hbn] at hsmall ⊢
    obtain ⟨c, hc, hcs, hcn⟩ := hlib.add acc b s hacc hbs hsmall
    refine ⟨c, ?_, hcs, hcn⟩
    rw [Avg.addValue, hb]
    change Avg.addDec lib acc b = _
    rw [Avg.addDec, hc]
    rfl
  cases v with
  | int i => exact hstep (.ofInt i) rfl (ofInt_scale i) (Decimal.num_ofInt i)
  | decimal d => exact hstep d rfl hscale rfl
  | _ => exact hv.elim

theorem foldlM_addValue (hlib : ExactArithmetic lib) {vals : List Value}
    (hexact : ∀ v ∈ vals, Exact v) (hscale : ∀ v ∈ vals, ScaleLe s v)
    (hsmall : ∀ ws, ws <+: vals → Small s (numSum ws)) :
    ∃ d, vals.foldlM (Avg.addValue lib) (.ofInt 0) = .ok d ∧ d.scale ≤ s ∧ d.num = numSum vals := by
  induction vals using List.reverseRecOn with
  | nil => exact ⟨_, rfl, ofInt_scale 0, by rw [Decimal.num_ofInt]; simp⟩
  | append_singleton vals v ih =>
    obtain ⟨acc, hfold, hacc, hnum⟩ := ih (fun w hw => hexact w (List.mem_append_left _ hw))
      (fun w hw => hscale w (List.mem_append_left _ hw))
      fun ws hws => hsmall ws (hws.trans (List.prefix_append _ _))
    have hsum : acc.num + numOf v = numSum (vals ++ [v]) := by
      rw [numSum_append, hnum]
      simp
    obtain ⟨d, hd, hds, hdn⟩ := addValue_ok hlib hacc (hexact v (by simp)) (hscale v (by simp))
      (hsum ▸ hsmall _ List.prefix_rfl)
    refine ⟨d, ?_, hds, hdn.trans hsum⟩
    rw [List.foldlM_append, hfold]
    change (Avg.addValue lib acc v >>= pure) = _
    rw [bind_pure, hd]

/-! ## Steps of the double -/

theorem Small53.inI64 {z : ℤ} (h : Small53 z) : (Int64.ofInt z).toInt = z := by
  unfold Small53 at h
  have habs : |z| ≤ 2 ^ 53 := by exact_mod_cast h
  obtain ⟨hlow, hhigh⟩ := abs_le.mp habs
  exact Int64.toInt_ofInt_of_le (by omega) (by omega)

theorem foldF64_concat (vals : List Value) (i : Int64) {f : Binary64}
    (h : foldF64 lib vals = .ok f) :
    foldF64 lib (vals ++ [.int i]) = .ok (lib.addF64 f (lib.intToF64 i)) := by
  unfold foldF64 at h ⊢
  rw [List.foldlM_append, h]
  rfl

/-- Small integers add up exactly. -/
theorem foldF64_exact (hlib : ExactArithmetic lib) {vals : List Value}
    (hexact : ∀ v ∈ vals, Exact v) (hdec : vals.any isDecimal = false)
    (hsmall : ∀ ws, ws <:+: vals → Small53 (numSum ws)) :
    ∃ i, foldF64 lib vals = .ok (lib.intToF64 i) ∧ (i.toInt : ℚ) = numSum vals := by
  induction vals using List.reverseRecOn with
  | nil =>
    refine ⟨0, ?_, by simp⟩
    rw [hlib.zero]
    rfl
  | append_singleton vals v ih =>
    rw [List.any_append, Bool.or_eq_false_iff] at hdec
    obtain ⟨i, hfold, hi⟩ := ih (fun w hw => hexact w (List.mem_append_left _ hw)) hdec.1
      fun ws hws => hsmall ws (hws.trans (List.prefix_append _ _).isInfix)
    have hv := hexact v (by simp)
    cases v with
    | int j =>
      have hsum : ((i.toInt + j.toInt : ℤ) : ℚ) = numSum (vals ++ [.int j]) := by
        rw [numSum_append, ← hi]
        simp [numOf]
      have hsmall' := hsmall _ List.infix_rfl
      rw [← hsum] at hsmall'
      have hone : Small53 (j.toInt : ℚ) := by
        have := hsmall [.int j] (List.suffix_append _ _).isInfix
        simpa [numOf] using this
      have hvals : Small53 (i.toInt : ℚ) := by
        rw [hi]
        exact hsmall vals (List.prefix_append _ _).isInfix
      refine ⟨.ofInt (i.toInt + j.toInt), ?_, by rw [hsmall'.inI64, hsum]⟩
      rw [foldF64_concat vals j hfold]
      exact congrArg Except.ok (hlib.addF64 i j _ hsmall'.inI64.symm hvals hone
        (by rw [hsmall'.inI64]; exact hsmall'))
    | decimal d => simp [isDecimal] at hdec
    | _ => exact hv.elim

/-! ## Pushing and popping -/

theorem AvgSlid.push (hlib : ExactArithmetic lib) {pushed vals : List Value} {a : Avg} {v : Value}
    (h : AvgSlid lib s pushed vals a) (hsum : Summable s (pushed ++ [v])) (hsuf : vals <:+ pushed) :
    ∃ a', a.push lib v = .ok a' ∧ AvgSlid lib s (pushed ++ [v]) (vals ++ [v]) a' := by
  have hsuf' : vals ++ [v] <:+ pushed ++ [v] := by
    obtain ⟨front, rfl⟩ := hsuf
    exact ⟨front, by simp⟩
  have hv := hsum.exact v (by simp)
  have hscale := hsum.scale v (by simp)
  have hnum : numSum (vals ++ [v]) = numSum vals + numOf v := by
    rw [numSum_append]
    simp
  -- an exact step from the sum of what is left
  have hstep : (pushed ++ [v]).any isDecimal = true → ∀ acc : Decimal, acc.scale ≤ s →
      acc.num = numSum vals → ∃ d, Avg.addValue lib acc v = .ok d ∧ d.scale ≤ s ∧
        d.num = numSum (vals ++ [v]) := by
    intro hdec acc hacc haccn
    rw [hnum, ← haccn]
    apply addValue_ok hlib hacc hv hscale
    rw [haccn, ← hnum]
    exact hsum.small hdec _ hsuf'.isInfix
  cases v with
  | decimal d =>
    have hany : (pushed ++ [Value.decimal d]).any isDecimal = true := by simp [isDecimal]
    have hflip : ∀ acc : Decimal, acc.scale ≤ s → acc.num = numSum vals → ∃ e,
        Avg.addDec lib acc d = .ok e ∧ e.scale ≤ s ∧ e.num = numSum (vals ++ [.decimal d]) :=
      hstep hany
    have hdone : ∀ (e : Decimal) (vs : List Value), e.scale ≤ s →
        e.num = numSum (vals ++ [.decimal d]) → AvgSlid lib s (pushed ++ [.decimal d])
          (vals ++ [.decimal d]) { a with decMode := true, vals := vs, dec := e } :=
      fun e vs hes hen => ⟨hany.symm, fun _ => ⟨hen, hes⟩, fun hf => (by cases hf),
        fun hf => (by cases hf), fun hf => (by cases hf)⟩
    unfold Avg.push
    dsimp only
    cases hmode : a.decMode with
    | true =>
      obtain ⟨hnum', hs⟩ := h.exact hmode
      obtain ⟨e, he, hes, hen⟩ := hflip a.dec hs hnum'
      refine ⟨{ a with decMode := true, vals := a.vals, dec := e }, ?_, hdone e a.vals hes hen⟩
      change (Avg.addDec lib a.dec d >>= _) = _
      rw [he]
      rfl
    | false =>
      obtain ⟨acc, hacc, haccs, haccn⟩ := foldlM_addValue (s := s) hlib
        (fun w hw => hsum.exact w (hsuf'.subset (List.mem_append_left _ hw)))
        (fun w hw => hsum.scale w (hsuf'.subset (List.mem_append_left _ hw)))
        fun ws hws => hsum.small hany ws
          (hws.isInfix.trans ((List.prefix_append _ _).isInfix.trans hsuf'.isInfix))
      obtain ⟨e, he, hes, hen⟩ := hflip acc haccs haccn
      refine ⟨{ a with decMode := true, vals := [], dec := e }, ?_, hdone e [] hes hen⟩
      rw [if_neg Bool.false_ne_true, h.buffered hmode, hacc]
      change (Avg.addDec lib acc d >>= _) = _
      rw [he]
      rfl
  | int i =>
    have hany : (pushed ++ [Value.int i]).any isDecimal = pushed.any isDecimal := by simp [isDecimal]
    unfold Avg.push
    dsimp only
    cases hmode : a.decMode with
    | true =>
      obtain ⟨hnum', hs⟩ := h.exact hmode
      obtain ⟨e, he, hes, hen⟩ := hstep (hany.trans (h.mode.symm.trans hmode)) a.dec hs hnum'
      rw [if_pos rfl, he]
      refine ⟨_, rfl, ?_⟩
      refine ⟨(hany.trans (h.mode.symm.trans hmode)).symm, fun _ => ⟨hen, hes⟩, ?_, ?_, ?_⟩
      all_goals exact fun hf => by cases hf
    | false =>
      rw [if_neg Bool.false_ne_true]
      refine ⟨_, rfl, ?_⟩
      refine ⟨(hany.trans (h.mode.symm.trans hmode)).symm, fun ht => (by cases ht), fun _ => ?_,
        fun _ hall => ?_, fun _ hsmall => ?_⟩
      · exact congrArg (· ++ [Value.int i]) (h.buffered hmode)
      · have hvals : vals = pushed := List.append_cancel_right hall
        exact foldF64_concat pushed i (h.whole hmode hvals)
      · obtain ⟨j, hj, hjn⟩ := h.double hmode fun ws hws =>
          hsmall ws (hws.trans (List.prefix_append _ _).isInfix)
        have hcast : ((j.toInt + i.toInt : ℤ) : ℚ) = numSum (vals ++ [.int i]) := by
          rw [hnum, ← hjn]
          simp [numOf]
        have hnew := hsmall _ hsuf'.isInfix
        rw [← hcast] at hnew
        have hone : Small53 (i.toInt : ℚ) := by
          have := hsmall [.int i] (List.suffix_append _ _).isInfix
          simpa [numOf] using this
        have hold : Small53 (j.toInt : ℚ) := by
          rw [hjn]
          exact hsmall vals (hsuf.isInfix.trans (List.prefix_append _ _).isInfix)
        refine ⟨.ofInt (j.toInt + i.toInt), ?_, by rw [hnew.inI64, hcast]⟩
        change lib.addF64 a.f64 (lib.intToF64 i) = _
        rw [hj]
        exact hlib.addF64 j i _ hnew.inI64.symm hold hone (by rw [hnew.inI64]; exact hnew)
  | _ => exact hv.elim

theorem AvgSlid.pop (hlib : ExactArithmetic lib) {pushed rest : List Value} {a : Avg} {v : Value}
    (h : AvgSlid lib s pushed (v :: rest) a) (hsum : Summable s pushed)
    (hsuf : v :: rest <:+ pushed) :
    (a.pop lib v).2 = false ∧ AvgSlid lib s pushed rest (a.pop lib v).1 := by
  have hmem : v ∈ pushed := hsuf.subset List.mem_cons_self
  have hv := hsum.exact v hmem
  have hsuf' : rest <:+ pushed := (List.suffix_cons v rest).trans hsuf
  unfold Avg.pop
  cases hmode : a.decMode with
  | true =>
    obtain ⟨hnum, hs⟩ := h.exact hmode
    obtain ⟨b, hb, hbs, hbn⟩ : ∃ b, asDecimal lib v = .ok b ∧ b.scale ≤ s ∧ b.num = numOf v := by
      have hscale := hsum.scale v hmem
      cases v with
      | int i => exact ⟨_, rfl, ofInt_scale i, Decimal.num_ofInt i⟩
      | decimal d => exact ⟨d, rfl, hscale, rfl⟩
      | _ => exact hv.elim
    have hrest : a.dec.num - b.num = numSum rest := by
      rw [hnum, hbn, numSum_cons]
      ring
    have hsmall := hsum.small (h.mode.symm.trans hmode) rest hsuf'.isInfix
    obtain ⟨c, hc, hcs, hcn⟩ := hlib.sub a.dec b s hs hbs (hrest ▸ hsmall)
    have hbind : (asDecimal lib v).toOption.bind (lib.checkedSub a.dec) = some c := by
      rw [hb]
      exact hc
    rw [Bool.not_true, Bool.and_false, if_neg Bool.false_ne_true, if_pos rfl, hbind]
    refine ⟨rfl, (h.mode.symm.trans hmode).symm, fun _ => ⟨hcn.trans hrest, hcs⟩, ?_, ?_, ?_⟩
    · exact fun hf => (by cases hf)
    · exact fun hf => (by cases hf)
    · exact fun hf => (by cases hf)
  | false =>
    have hnone : pushed.any isDecimal = false := h.mode.symm.trans hmode
    have hdec : isDecimal v = false := by
      by_contra hne
      have := List.any_eq_true.mpr ⟨v, hmem, Bool.not_eq_false _ ▸ hne⟩
      rw [hnone] at this
      cases this
    cases v with
    | int i =>
      rw [hdec, Bool.false_and, if_neg Bool.false_ne_true, if_neg Bool.false_ne_true,
        h.buffered hmode]
      refine ⟨rfl, hnone.symm, ?_, fun _ => rfl, fun _ hall => ?_, fun _ hsmall => ?_⟩
      · exact fun ht => (by cases ht)
      · have hlen := hsuf.length_le
        rw [hall] at hlen
        exact absurd hlen (by simp)
      · obtain ⟨j, hj, hjn⟩ := h.double hmode hsmall
        have hcast : ((j.toInt - i.toInt : ℤ) : ℚ) = numSum rest := by
          push_cast
          rw [hjn, numSum_cons, numOf]
          ring
        have hnew := hsmall rest hsuf'.isInfix
        rw [← hcast] at hnew
        have hone : Small53 (i.toInt : ℚ) := by
          have hpre : [Value.int i] <:+: pushed :=
            (List.prefix_append [Value.int i] rest).isInfix.trans hsuf.isInfix
          simpa [numOf] using hsmall _ hpre
        have hold : Small53 (j.toInt : ℚ) := by
          rw [hjn]
          exact hsmall _ hsuf.isInfix
        refine ⟨.ofInt (j.toInt - i.toInt), ?_, by rw [hnew.inI64, hcast]⟩
        change lib.subF64 a.f64 (lib.intToF64 i) = _
        rw [hj]
        exact hlib.subF64 j i _ hnew.inI64.symm hold hone (by rw [hnew.inI64]; exact hnew)
    | decimal d => cases hdec
    | _ => exact hv.elim

/-! ## The average -/

/-- The batch average of these values. -/
def Batch (lib : Library) (vals : List Value) (w : Value) : Prop :=
  if vals = [] then w = .null
  else if vals.any isDecimal then
    ∃ acc, vals.foldlM (Avg.addValue lib) (.ofInt 0) = .ok acc ∧
      w = (lib.checkedDiv acc (.ofInt (.ofInt vals.length))).elim .null .decimal
  else ∃ f, foldF64 lib vals = .ok f ∧
    w = .float (lib.divF64 f (lib.intToF64 (.ofInt vals.length)))

theorem batch_of_combineAgg (hop : kind.op = .avg) {vals : List Value} {kept : ℕ} {w : Value}
    (h : combineAgg lib kind kept vals = .ok w) : Batch lib vals w := by
  unfold combineAgg at h
  rw [hop] at h
  dsimp only at h
  unfold Batch
  split_ifs at h ⊢
  · exact (Except.ok.inj h).symm
  · obtain ⟨acc, hacc, hw⟩ := Except.bind_eq_ok_iff.mp h
    exact ⟨acc, hacc, (Except.ok.inj hw).symm⟩
  · obtain ⟨f, hf, hw⟩ := Except.bind_eq_ok_iff.mp h
    exact ⟨f, hf, (Except.ok.inj hw).symm⟩

theorem same_quotient (hlib : ExactArithmetic lib) {a b : Decimal} (h : a.num = b.num)
    (n : Decimal) : Same ((lib.checkedDiv a n).elim .null .decimal)
      ((lib.checkedDiv b n).elim .null .decimal) := by
  have hdiv := hlib.div a b n h
  cases ha : lib.checkedDiv a n with
  | none =>
    rw [ha] at hdiv
    cases hb : lib.checkedDiv b n with
    | none => rfl
    | some q =>
      rw [hb] at hdiv
      cases hdiv
  | some p =>
    rw [ha] at hdiv
    cases hb : lib.checkedDiv b n with
    | none =>
      rw [hb] at hdiv
      cases hdiv
    | some q =>
      rw [hb] at hdiv
      exact Option.some.inj hdiv

/-- The average slides right where a frame without a Decimal comes before all Decimals, and the
doubles are exact or nothing has left them. -/
theorem AvgSlid.value_same (hlib : ExactArithmetic lib) {pushed vals : List Value} {a : Avg}
    (h : AvgSlid lib s pushed vals a) (hsum : Summable s pushed) (hsuf : vals <:+ pushed) {w : Value}
    (hw : Batch lib vals w) :
    (Same (a.value lib vals.length) w →
      vals ≠ [] → pushed.any isDecimal = true → vals.any isDecimal = true) ∧
    ((vals ≠ [] → pushed.any isDecimal = true → vals.any isDecimal = true) →
      (pushed.any isDecimal = false →
        vals = pushed ∨ ∀ ws, ws <:+: pushed → Small53 (numSum ws)) →
      Same (a.value lib vals.length) w) := by
  unfold Batch at hw
  unfold Avg.value
  by_cases hnil : vals = []
  · rw [if_pos hnil] at hw
    rw [hw, hnil]
    exact ⟨fun _ hne => absurd rfl hne, fun _ _ => rfl⟩
  rw [if_neg hnil] at hw
  rw [if_neg (show ((vals.length : ℕ) : ℤ) ≠ 0 by simpa using hnil)]
  cases hmode : a.decMode with
  | true =>
    have hpushed := h.mode.symm.trans hmode
    cases hdec : vals.any isDecimal with
    | true =>
      rw [hdec, if_pos rfl] at hw
      obtain ⟨acc, hacc, rfl⟩ := hw
      obtain ⟨d, hd, -, hdn⟩ := foldlM_addValue (s := s) hlib (hsum.exact_block hsuf.isInfix)
        (fun v hv => hsum.scale v (hsuf.subset hv))
        fun ws hws => hsum.small hpushed ws (hws.isInfix.trans hsuf.isInfix)
      obtain rfl := Except.ok.inj (hd.symm.trans hacc)
      exact ⟨fun _ _ _ => rfl, fun _ _ => same_quotient hlib ((h.exact hmode).1.trans hdn.symm) _⟩
    | false =>
      rw [hdec, if_neg Bool.false_ne_true] at hw
      obtain ⟨f, -, rfl⟩ := hw
      refine ⟨fun hsame => ?_, fun hfits => ?_⟩
      · rw [if_pos rfl] at hsame
        cases hq : lib.checkedDiv a.dec (.ofInt (.ofInt vals.length)) with
        | none =>
          rw [hq] at hsame
          cases hsame
        | some q =>
          rw [hq] at hsame
          cases hsame
      · cases hfits hnil hpushed
  | false =>
    have hpushed := h.mode.symm.trans hmode
    have hdec : vals.any isDecimal = false := by
      by_contra hne
      have := any_isDecimal_of_block hsuf.isInfix (Bool.not_eq_false _ ▸ hne)
      rw [hpushed] at this
      cases this
    rw [hdec, if_neg Bool.false_ne_true] at hw
    obtain ⟨f, hf, rfl⟩ := hw
    refine ⟨fun _ _ ht => ?_, fun _ hdouble => ?_⟩
    · rw [hpushed] at ht
      cases ht
    · rw [if_neg Bool.false_ne_true]
      apply Same.of_eq
      rcases hdouble hpushed with hall | hsmall
      · have hwhole := h.whole hmode hall
        rw [← hall] at hwhole
        rw [Except.ok.inj (hwhole.symm.trans hf)]
      · obtain ⟨i, hi, hin⟩ := h.double hmode hsmall
        obtain ⟨j, hj, hjn⟩ := foldF64_exact hlib (hsum.exact_block hsuf.isInfix) hdec
          fun ws hws => hsmall ws (hws.trans hsuf.isInfix)
        have hij : i = j := Int64.toInt_inj.mp (by exact_mod_cast hin.trans hjn.symm)
        rw [hi, hij, Except.ok.inj (hj.symm.trans hf)]

end Docsql.Window
