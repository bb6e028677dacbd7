import Docsql.Window.FreshFold

/-!
# Sums that slide

In exact arithmetic removing an argument undoes adding it.  What the code keeps beside the
number is its type: an Int, a Decimal, or NULL once an Int sum has overflowed.
-/

namespace Docsql

/-- The number a decimal stands for. -/
def Decimal.num (d : Decimal) : ℚ := d.signed / 10 ^ d.scale

theorem Decimal.num_ofInt (i : Int64) : (Decimal.ofInt i).num = i.toInt := by
  unfold Decimal.num Decimal.signed Decimal.ofInt
  dsimp only
  rw [pow_zero, div_one]
  split_ifs with h
  · have hneg : i.toInt < 0 := by simpa using h
    rw [Int.ofNat_natAbs_of_nonpos hneg.le, neg_neg]
  · have hpos : 0 ≤ i.toInt := by simpa using h
    rw [Int.natAbs_of_nonneg hpos]

namespace Window

open Scalar (Eval Library isNull isDecimal asDecimal checkedI64 i64Min i64Max)

/-- The sum has a mantissa at scale `s`. -/
def Small (s : ℕ) (q : ℚ) : Prop := |q| * 10 ^ s < 2 ^ 96

/-- Int values whose double is exact. -/
def Small53 (z : ℚ) : Prop := |z| ≤ 2 ^ 53

/-- `rust_decimal` is exact where the mantissa has room, and its quotient depends on the numbers
only; doubles are exact on small integers. -/
structure ExactArithmetic (lib : Library) : Prop where
  add : ∀ (a b : Decimal) (s : ℕ), a.scale ≤ s → b.scale ≤ s → Small s (a.num + b.num) →
    ∃ c, lib.checkedAdd a b = some c ∧ c.scale ≤ s ∧ c.num = a.num + b.num
  sub : ∀ (a b : Decimal) (s : ℕ), a.scale ≤ s → b.scale ≤ s → Small s (a.num - b.num) →
    ∃ c, lib.checkedSub a b = some c ∧ c.scale ≤ s ∧ c.num = a.num - b.num
  div : ∀ a b n : Decimal, a.num = b.num →
    (lib.checkedDiv a n).map Decimal.num = (lib.checkedDiv b n).map Decimal.num
  zero : lib.intToF64 0 = .zero
  addF64 : ∀ a b c : Int64, a.toInt + b.toInt = c.toInt → Small53 a.toInt → Small53 b.toInt →
    Small53 c.toInt → lib.addF64 (lib.intToF64 a) (lib.intToF64 b) = lib.intToF64 c
  subF64 : ∀ a b c : Int64, a.toInt - b.toInt = c.toInt → Small53 a.toInt → Small53 b.toInt →
    Small53 c.toInt → lib.subF64 (lib.intToF64 a) (lib.intToF64 b) = lib.intToF64 c

/-! ## Sums in exact arithmetic -/

def numOf : Value → ℚ
  | .int i => i.toInt
  | .decimal d => d.num
  | _ => 0

def numSum (vals : List Value) : ℚ := (vals.map numOf).sum

def InI64 (z : ℤ) : Prop := i64Min ≤ z ∧ z ≤ i64Max

instance (z : ℤ) : Decidable (InI64 z) := inferInstanceAs (Decidable (_ ∧ _))

/-- A sum with its type; `lost` is the NULL of an Int overflow. -/
inductive Total where
  | int (z : ℤ)
  | dec (q : ℚ)
  | lost

namespace Total

def add (t : Total) (v : Value) : Total :=
  match t, v with
  | .int z, .int i => if InI64 (z + i.toInt) then .int (z + i.toInt) else .lost
  | .int z, v => .dec (z + numOf v)
  | .dec q, v => .dec (q + numOf v)
  | .lost, _ => .lost

theorem add_int_int (z : ℤ) (i : Int64) :
    add (.int z) (.int i) = if InI64 (z + i.toInt) then .int (z + i.toInt) else .lost := rfl

inductive Kind where
  | int
  | dec
  | null
deriving DecidableEq

def kind : Total → Kind
  | .int _ => .int
  | .dec _ => .dec
  | .lost => .null

end Total

def total (vals : List Value) : Total := vals.foldl Total.add (.int 0)

/-- The type of SUM. -/
def sumKind (vals : List Value) : Total.Kind := if vals = [] then .null else (total vals).kind

@[simp] theorem numSum_nil : numSum [] = 0 := rfl

@[simp] theorem numSum_cons (v : Value) (vals : List Value) :
    numSum (v :: vals) = numOf v + numSum vals := by
  rw [numSum, List.map_cons, List.sum_cons]
  rfl

theorem numSum_append (xs ys : List Value) : numSum (xs ++ ys) = numSum xs + numSum ys := by
  rw [numSum, List.map_append, List.sum_append]
  rfl

theorem total_concat (vals : List Value) (v : Value) :
    total (vals ++ [v]) = (total vals).add v := by
  rw [total, List.foldl_append]
  rfl

/-- The number and the type of a sum. -/
theorem total_spec {vals : List Value} (hexact : ∀ v ∈ vals, Exact v) :
    match total vals with
    | .int z => (z : ℚ) = numSum vals ∧ vals.any isDecimal = false
    | .dec q => q = numSum vals ∧ vals.any isDecimal = true
    | .lost => True := by
  induction vals using List.reverseRecOn with
  | nil => exact ⟨by simp, rfl⟩
  | append_singleton vals v ih =>
    have hv := hexact v (by simp)
    replace ih := ih fun w hw => hexact w (List.mem_append_left _ hw)
    rw [total_concat, numSum_append]
    have hany : (vals ++ [v]).any isDecimal = (vals.any isDecimal || isDecimal v) := by simp
    rw [hany]
    cases ht : total vals with
    | lost =>
      cases v <;> trivial
    | dec q =>
      rw [ht] at ih
      obtain ⟨rfl, hdec⟩ := ih
      rw [hdec]
      cases v <;> first | exact hv.elim | exact ⟨by simp, rfl⟩
    | int z =>
      rw [ht] at ih
      obtain ⟨hz, hdec⟩ := ih
      rw [hdec]
      cases v with
      | int i =>
        rw [Total.add_int_int]
        split_ifs
        · exact ⟨by simp [numOf, ← hz], rfl⟩
        · trivial
      | decimal d => exact ⟨by simp [hz], rfl⟩
      | _ => exact hv.elim

/-! ## The code's sum -/

/-- A value is a sum with this number and type. -/
def Represents (s : ℕ) : Value → Total → Prop
  | .int i, .int z => i.toInt = z
  | .decimal d, .dec q => d.num = q ∧ d.scale ≤ s
  | .null, .lost => True
  | _, _ => False

/-- The arguments have this scale at most. -/
def ScaleLe (s : ℕ) : Value → Prop
  | .decimal d => d.scale ≤ s
  | _ => True

/-- Exact values of a bounded scale, none of whose blocks overflows a Decimal.  Without a
Decimal there is nothing to overflow. -/
structure Summable (s : ℕ) (vals : List Value) : Prop where
  exact : ∀ v ∈ vals, Exact v
  scale : ∀ v ∈ vals, ScaleLe s v
  small : vals.any isDecimal = true → ∀ ws, ws <:+: vals → Small s (numSum ws)

variable {lib : Library} {s : ℕ}

theorem Summable.exact_block {vals ws : List Value} (h : Summable s vals) (hws : ws <:+: vals) :
    ∀ v ∈ ws, Exact v := fun v hv => h.exact v (hws.subset hv)

theorem any_isDecimal_of_block {vals ws : List Value} (hws : ws <:+: vals)
    (h : ws.any isDecimal = true) : vals.any isDecimal = true := by
  obtain ⟨v, hv, hdec⟩ := List.any_eq_true.mp h
  exact List.any_eq_true.mpr ⟨v, hws.subset hv, hdec⟩

theorem Summable.block {vals ws : List Value} (h : Summable s vals) (hws : ws <:+: vals) :
    Summable s ws where
  exact := h.exact_block hws
  scale v hv := h.scale v (hws.subset hv)
  small hdec us hus := h.small (any_isDecimal_of_block hws hdec) us (hus.trans hws)

theorem checkedI64_eq (z : ℤ) :
    checkedI64 z = if InI64 z then .int (.ofInt z) else .null := rfl

theorem represents_checkedI64 (z : ℤ) :
    Represents s (checkedI64 z) (if InI64 z then .int z else .lost) := by
  rw [checkedI64_eq]
  by_cases h : InI64 z
  · rw [if_pos h, if_pos h]
    have h' := h
    unfold InI64 i64Min i64Max at h'
    exact Int64.toInt_ofInt_of_le (by omega) (by omega)
  · rw [if_neg h, if_neg h]
    trivial

theorem ofInt_scale (i : Int64) : (Decimal.ofInt i).scale ≤ s := Nat.zero_le s

theorem Represents.add (hlib : ExactArithmetic lib) {x v : Value} {t : Total}
    (h : Represents s x t) (hv : Exact v) (hscale : ScaleLe s v)
    (hsmall : ∀ q, t.add v = .dec q → Small s q) :
    ∃ x', addValues lib x v = .ok x' ∧ Represents s x' (t.add v) := by
  have hdec : ∀ (a b : Decimal), a.scale ≤ s → b.scale ≤ s → Small s (a.num + b.num) →
      Represents s ((lib.checkedAdd a b).elim .null .decimal) (.dec (a.num + b.num)) := by
    intro a b ha hb hab
    obtain ⟨c, hc, hcs, hcn⟩ := hlib.add a b s ha hb hab
    rw [hc]
    exact ⟨hcn, hcs⟩
  cases t with
  | lost =>
    cases x with
    | null =>
      refine ⟨.null, rfl, ?_⟩
      cases v <;> trivial
    | _ => exact h.elim
  | int z =>
    cases x with
    | int i =>
      obtain rfl : i.toInt = z := h
      cases v with
      | int j => exact ⟨_, rfl, represents_checkedI64 _⟩
      | decimal d =>
        have hq := hsmall _ rfl
        have hsum := hdec (.ofInt i) d (ofInt_scale i) hscale (by rwa [Decimal.num_ofInt])
        rw [Decimal.num_ofInt] at hsum
        exact ⟨_, rfl, hsum⟩
      | _ => exact hv.elim
    | _ => exact h.elim
  | dec q =>
    cases x with
    | decimal a =>
      obtain ⟨rfl, ha⟩ := h
      have hq := hsmall _ rfl
      cases v with
      | int j =>
        have hsum := hdec a (.ofInt j) ha (ofInt_scale j) (by rwa [Decimal.num_ofInt])
        rw [Decimal.num_ofInt] at hsum
        exact ⟨_, rfl, hsum⟩
      | decimal d => exact ⟨_, rfl, hdec a d ha hscale hq⟩
      | _ => exact hv.elim
    | _ => exact h.elim

/-- The sum state after these arguments. -/
def Summed (s : ℕ) (vals : List Value) (sum : Option Value) : Prop :=
  (vals = [] ∧ sum = none) ∨ vals ≠ [] ∧ ∃ x, sum = some x ∧ Represents s x (total vals)

theorem Summed.push (hlib : ExactArithmetic lib) {vals : List Value} {sum : Option Value}
    {v : Value} (h : Summed s vals sum) (hvals : Summable s (vals ++ [v])) :
    ∃ sum', pushSum lib sum v = .ok sum' ∧ Summed s (vals ++ [v]) sum' := by
  have hrep : Represents s (sum.getD (.int 0)) (total vals) := by
    rcases h with ⟨rfl, rfl⟩ | ⟨-, x, rfl, hx⟩
    · exact Int64.toInt_zero
    · exact hx
  have hsmall : ∀ q, (total vals).add v = .dec q → Small s q := by
    intro q hq
    have hspec := total_spec hvals.exact
    rw [total_concat, hq] at hspec
    rw [hspec.1]
    exact hvals.small hspec.2 _ List.infix_rfl
  obtain ⟨x', hadd, hrep'⟩ := hrep.add hlib (hvals.exact v (by simp)) (hvals.scale v (by simp))
    hsmall
  rw [← total_concat] at hrep'
  refine ⟨some x', ?_, .inr ⟨by simp, x', rfl, hrep'⟩⟩
  rw [pushSum, hadd]
  rfl

theorem addValues_total (hlib : ExactArithmetic lib) {vals : List Value}
    (hvals : Summable s vals) :
    ∃ x, vals.foldlM (addValues lib) (.int 0) = .ok x ∧ Represents s x (total vals) := by
  induction vals using List.reverseRecOn with
  | nil => exact ⟨.int 0, rfl, Int64.toInt_zero⟩
  | append_singleton vals v ih =>
    obtain ⟨x, hfold, hx⟩ := ih (hvals.block (List.prefix_append _ _).isInfix)
    have hsmall : ∀ q, (total vals).add v = .dec q → Small s q := by
      intro q hq
      have hspec := total_spec hvals.exact
      rw [total_concat, hq] at hspec
      rw [hspec.1]
      exact hvals.small hspec.2 _ List.infix_rfl
    obtain ⟨x', hadd, hx'⟩ := hx.add hlib (hvals.exact v (by simp)) (hvals.scale v (by simp)) hsmall
    refine ⟨x', ?_, total_concat vals v ▸ hx'⟩
    rw [List.foldlM_append, hfold]
    change (addValues lib x v >>= pure) = _
    rw [bind_pure, hadd]

/-! ## Removing arguments -/

/-- Some sum of Ints overflows while the arguments `left` are removed from the front. -/
def Overflows : List Value → List Value → Prop
  | [], _ => False
  | _ :: left, rest => (∀ z : ℤ, (z : ℚ) = numSum (left ++ rest) → ¬InI64 z) ∨ Overflows left rest

/-- The sliding sum cannot go on: it is lost already, or an Int sum overflows on the way. -/
def GivenUp (left rest : List Value) : Prop :=
  match total (left ++ rest) with
  | .int _ => Overflows left rest
  | .dec _ => False
  | .lost => True

/-- `pop_to` on the sum alone. -/
def popSums (lib : Library) (left : List Value) (st : Option Value × Bool) : Option Value × Bool :=
  left.foldl (fun st v => let next := popSum lib st.1 v; (next.1, st.2 || next.2)) st

theorem popSums_cons (v : Value) (left : List Value) (sum : Option Value) :
    popSums lib (v :: left) (sum, false) = popSums lib left (popSum lib sum v) := rfl

theorem popSums_degraded (left : List Value) {st : Option Value × Bool} (h : st.2 = true) :
    (popSums lib left st).2 = true := by
  induction left generalizing st with
  | nil => exact h
  | cons v left ih => exact ih (by simp [h])

/-- The sum of the arguments that are left, in the type of the sum before. -/
def Slid (s : ℕ) (t : Total) (rest : List Value) (sum : Option Value) : Prop :=
  ∃ x, sum = some x ∧ match t with
    | .int _ => ∃ i : Int64, x = .int i ∧ (i.toInt : ℚ) = numSum rest
    | .dec _ => ∃ d, x = .decimal d ∧ d.num = numSum rest ∧ d.scale ≤ s
    | .lost => x = .null

theorem Summed.slid {vals : List Value} {sum : Option Value} (h : Summed s vals sum)
    (hne : vals ≠ []) (hexact : ∀ v ∈ vals, Exact v) : Slid s (total vals) vals sum := by
  obtain ⟨hnil, -⟩ | ⟨-, x, rfl, hx⟩ := h
  · exact absurd hnil hne
  · have hspec := total_spec hexact
    refine ⟨x, rfl, ?_⟩
    cases ht : total vals with
    | int z =>
      rw [ht] at hx hspec
      cases x with
      | int i =>
        obtain rfl : i.toInt = z := hx
        exact ⟨i, rfl, hspec.1⟩
      | _ => exact hx.elim
    | dec q =>
      rw [ht] at hx hspec
      cases x with
      | decimal d => exact ⟨d, rfl, hx.1.trans hspec.1, hx.2⟩
      | _ => exact hx.elim
    | lost =>
      rw [ht] at hx
      cases x with
      | null => rfl
      | _ => exact hx.elim

/-- One argument less: an Int sum may overflow, a Decimal sum may not. -/
theorem Slid.pop_int {rest : List Value} {z : ℤ} {v : Value} {sum : Option Value}
    (h : Slid s (.int z) (v :: rest) sum) (hv : Exact v) (hdec : isDecimal v = false) :
    ((popSum lib sum v).2 = true ↔ ∀ z : ℤ, (z : ℚ) = numSum rest → ¬InI64 z) ∧
      ((popSum lib sum v).2 = false → Slid s (.int z) rest (popSum lib sum v).1) := by
  obtain ⟨_, rfl, i, rfl, hi⟩ := h
  cases v with
  | int j =>
    have hnum : ((i.toInt - j.toInt : ℤ) : ℚ) = numSum rest := by
      rw [numSum_cons, numOf] at hi
      push_cast
      linarith
    have hpop : popSum lib (some (.int i)) (.int j) =
        (some (checkedI64 (i.toInt - j.toInt)), isNull (checkedI64 (i.toInt - j.toInt))) := rfl
    rw [hpop]
    by_cases hin : InI64 (i.toInt - j.toInt)
    · have hcheck : checkedI64 (i.toInt - j.toInt) = .int (.ofInt (i.toInt - j.toInt)) :=
        if_pos hin
      have hrep := represents_checkedI64 (s := s) (i.toInt - j.toInt)
      rw [if_pos hin, hcheck] at hrep
      rw [hcheck]
      refine ⟨iff_of_false Bool.false_ne_true fun h => h _ hnum hin, fun _ => ?_⟩
      exact ⟨_, rfl, _, rfl, by rw [show (Int64.ofInt (i.toInt - j.toInt)).toInt = _ from hrep, hnum]⟩
    · have hcheck : checkedI64 (i.toInt - j.toInt) = .null := if_neg hin
      rw [hcheck]
      refine ⟨iff_of_true rfl fun z hz => ?_, fun h => (by cases h)⟩
      have : z = i.toInt - j.toInt := by exact_mod_cast hz.trans hnum.symm
      rwa [this]
  | decimal d => cases hdec
  | _ => exact hv.elim

theorem Slid.pop_dec (hlib : ExactArithmetic lib) {rest : List Value} {q : ℚ} {v : Value}
    {sum : Option Value} (h : Slid s (.dec q) (v :: rest) sum) (hv : Exact v)
    (hscale : ScaleLe s v) (hsmall : Small s (numSum rest)) :
    (popSum lib sum v).2 = false ∧ Slid s (.dec q) rest (popSum lib sum v).1 := by
  obtain ⟨_, rfl, d, rfl, hd, hds⟩ := h
  rw [numSum_cons] at hd
  have hstep : ∀ b : Decimal, b.scale ≤ s → b.num = numOf v → asDecimal lib v = .ok b →
      (popSum lib (some (.decimal d)) v).2 = false ∧
        Slid s (.dec q) rest (popSum lib (some (.decimal d)) v).1 := by
    intro b hb hnum hv'
    have hrest : d.num - b.num = numSum rest := by rw [hd, hnum]; ring
    obtain ⟨c, hc, hcs, hcn⟩ := hlib.sub d b s hds hb (hrest ▸ hsmall)
    have hsub : subValues lib (.decimal d) v = .ok (.decimal c) := by
      have hnull : (isNull (.decimal d) || isNull v) = false := by
        rw [hv.ne_null]
        rfl
      unfold subValues combineValues
      rw [hnull, if_neg Bool.false_ne_true, if_pos (by simp [isDecimal]), hv']
      change Except.ok ((lib.checkedSub d b).elim Value.null Value.decimal) = _
      rw [hc]
      rfl
    have hpop : popSum lib (some (.decimal d)) v = (some (.decimal c), false) := by
      unfold popSum
      dsimp only
      rw [hsub]
      rfl
    rw [hpop]
    exact ⟨rfl, _, rfl, c, rfl, hcn.trans hrest, hcs⟩
  cases v with
  | int j => exact hstep (.ofInt j) (ofInt_scale j) (Decimal.num_ofInt j) rfl
  | decimal e => exact hstep e hscale rfl rfl
  | _ => exact hv.elim

theorem popSums_int {left rest : List Value} {z : ℤ} {sum : Option Value}
    (h : Slid s (.int z) (left ++ rest) sum) (hexact : ∀ v ∈ left, Exact v)
    (hdec : left.any isDecimal = false) :
    ((popSums lib left (sum, false)).2 = true ↔ Overflows left rest) ∧
      ((popSums lib left (sum, false)).2 = false →
        Slid s (.int z) rest (popSums lib left (sum, false)).1) := by
  induction left generalizing sum with
  | nil => exact ⟨iff_of_false Bool.false_ne_true id, fun _ => h⟩
  | cons v left ih =>
    rw [List.any_cons, Bool.or_eq_false_iff] at hdec
    obtain ⟨hover, hslid⟩ := Slid.pop_int h (hexact v List.mem_cons_self) hdec.1
    rw [popSums_cons, Overflows]
    cases hdeg : (popSum lib sum v).2 with
    | true =>
      have hd := @popSums_degraded lib left _ hdeg
      exact ⟨iff_of_true hd (.inl (hover.mp hdeg)), fun hf => by rw [hd] at hf; cases hf⟩
    | false =>
      have hpair : popSum lib sum v = ((popSum lib sum v).1, false) := by rw [← hdeg]
      rw [hpair]
      obtain ⟨hih, hih'⟩ := ih (hslid hdeg) (fun w hw => hexact w (List.mem_cons_of_mem v hw)) hdec.2
      refine ⟨hih.trans ⟨.inr, fun hor => hor.resolve_left fun hno => ?_⟩, hih'⟩
      rw [hover.mpr hno] at hdeg
      cases hdeg

theorem popSums_dec (hlib : ExactArithmetic lib) {left rest : List Value} {q : ℚ}
    {sum : Option Value} (h : Slid s (.dec q) (left ++ rest) sum)
    (hall : ∀ v ∈ left, Exact v ∧ ScaleLe s v)
    (hsmall : ∀ ws, ws <:+: left ++ rest → Small s (numSum ws)) :
    (popSums lib left (sum, false)).2 = false ∧
      Slid s (.dec q) rest (popSums lib left (sum, false)).1 := by
  induction left generalizing sum with
  | nil => exact ⟨rfl, h⟩
  | cons v left ih =>
    obtain ⟨hv, hscale⟩ := hall v List.mem_cons_self
    obtain ⟨hdeg, hslid⟩ := Slid.pop_dec hlib h hv hscale
      (hsmall _ (List.suffix_cons v (left ++ rest)).isInfix)
    have hpair : popSum lib sum v = ((popSum lib sum v).1, false) := by rw [← hdeg]
    rw [popSums_cons, hpair]
    exact ih hslid (fun w hw => hall w (List.mem_cons_of_mem v hw))
      fun ws hws => hsmall ws (hws.trans (List.suffix_cons v (left ++ rest)).isInfix)

/-- Removing the front: given up, or the sum of the rest in the type of the whole. -/
theorem popSums_spec (hlib : ExactArithmetic lib) {left rest : List Value} {sum : Option Value}
    (h : Summed s (left ++ rest) sum) (hvals : Summable s (left ++ rest)) (hne : left ≠ []) :
    ((popSums lib left (sum, false)).2 = true ↔ GivenUp left rest) ∧
      ((popSums lib left (sum, false)).2 = false →
        Slid s (total (left ++ rest)) rest (popSums lib left (sum, false)).1) := by
  have hslid := h.slid (by simp [hne]) hvals.exact
  have hleft : ∀ v ∈ left, Exact v := fun v hv => hvals.exact v (List.mem_append_left _ hv)
  have hspec := total_spec hvals.exact
  unfold GivenUp
  cases ht : total (left ++ rest) with
  | int z =>
    rw [ht] at hslid hspec
    rw [List.any_append, Bool.or_eq_false_iff] at hspec
    exact popSums_int hslid hleft hspec.2.1
  | dec q =>
    rw [ht] at hslid hspec
    obtain ⟨hdeg, hrest⟩ := popSums_dec hlib hslid
      (fun v hv => ⟨hleft v hv, hvals.scale v (List.mem_append_left _ hv)⟩)
      (hvals.small hspec.2)
    exact ⟨iff_of_false (by simp [hdeg]) id, fun _ => hrest⟩
  | lost =>
    rw [ht] at hslid
    obtain ⟨x, rfl, rfl⟩ := hslid
    obtain ⟨v, left, rfl⟩ := List.exists_cons_of_ne_nil hne
    have hdeg : (popSums lib (v :: left) (some .null, false)).2 = true :=
      popSums_degraded left rfl
    exact ⟨iff_of_true hdeg trivial, fun hf => by rw [hdeg] at hf; cases hf⟩

end Window

end Docsql
