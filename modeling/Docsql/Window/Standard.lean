import Docsql.Window.Frame

/-!
# Standard frames

What a frame clause means for a sorted partition: which rows lie between its bounds.
-/

namespace Docsql.Window

open Scalar (Eval Library isNull)

/-! ## The sort order is a preorder -/

namespace OrderKey

variable (o : OrderKey) (a b c : Value)

/-- NULLs come before all other values. -/
def nullsLead : Bool := o.nullsFirst.getD true == o.ascending

theorem isNull_iff {v : Value} : isNull v = true ↔ v = .null := by
  cases v <;> simp [isNull]

theorem cmp_null_null : o.cmp .null .null = .eq := by
  unfold cmp cmpMaybeNull
  cases o.ascending <;> rfl

theorem cmp_null_left {v : Value} (h : isNull v = false) :
    o.cmp .null v = if o.nullsLead then .lt else .gt := by
  unfold cmp cmpMaybeNull nullsLead
  cases v with
  | null => cases h
  | _ => cases o.nullsFirst.getD true <;> cases o.ascending <;> rfl

theorem cmp_null_right {v : Value} (h : isNull v = false) :
    o.cmp v .null = if o.nullsLead then .gt else .lt := by
  unfold cmp cmpMaybeNull nullsLead
  cases v with
  | null => cases h
  | _ => cases o.nullsFirst.getD true <;> cases o.ascending <;> rfl

theorem cmp_values {a b : Value} (ha : isNull a = false) (hb : isNull b = false) :
    o.cmp a b = if o.ascending then cmpValues a b else (cmpValues a b).swap := by
  have hcmp : cmpMaybeNull a b o.nullsFirst = cmpValues a b := by
    unfold cmpMaybeNull
    cases a with
    | null => cases ha
    | _ =>
      cases b with
      | null => cases hb
      | _ => rfl
  rw [cmp, hcmp]

/-- NULLs on their side, then the values. -/
def side (v : Value) : ℕ := if isNull v == o.nullsLead then 0 else 1

theorem cmp_eq : o.cmp a b = (compare (o.side a) (o.side b)).then
    (if o.ascending then cmpValues a b else (cmpValues a b).swap) := by
  unfold side
  cases ha : isNull a <;> cases hb : isNull b
  · rw [o.cmp_values ha hb, compare_eq_iff_eq.mpr rfl, Ordering.eq_then]
  · obtain rfl := isNull_iff.mp hb
    rw [o.cmp_null_right ha]
    cases o.nullsLead <;> rfl
  · obtain rfl := isNull_iff.mp ha
    rw [o.cmp_null_left hb]
    cases o.nullsLead <;> rfl
  · obtain rfl := isNull_iff.mp ha
    obtain rfl := isNull_iff.mp hb
    rw [cmp_null_null, compare_eq_iff_eq.mpr rfl, Ordering.eq_then, cmpValues_self]
    cases o.ascending <;> rfl

theorem cmp_triangle : Triangle (o.cmp a b) (o.cmp b c) (o.cmp a c) := by
  rw [cmp_eq, cmp_eq, cmp_eq]
  apply (Triangle.of_transCmp compare _ _ _).andThen
  split_ifs
  · exact cmpValues_triangle a b c
  · exact (cmpValues_triangle a b c).swap

theorem cmp_self : o.cmp a a = .eq := by
  rw [cmp_eq, compare_eq_iff_eq.mpr rfl, Ordering.eq_then, cmpValues_self]
  cases o.ascending <;> rfl

end OrderKey

theorem cmpKeys_self (order : List OrderKey) (as : List Value) : cmpKeys order as as = .eq := by
  induction order generalizing as with
  | nil => rfl
  | cons o order ih =>
    cases as with
    | nil => rfl
    | cons a as => rw [cmpKeys, o.cmp_self, ih, Ordering.eq_then]

/-- Keys of the width of the order. -/
theorem cmpKeys_triangle (order : List OrderKey) {as bs cs : List Value}
    (ha : as.length = order.length) (hb : bs.length = order.length)
    (hc : cs.length = order.length) :
    Triangle (cmpKeys order as bs) (cmpKeys order bs cs) (cmpKeys order as cs) := by
  induction order generalizing as bs cs with
  | nil => exact ⟨fun _ => rfl, fun _ => rfl, fun _ => rfl⟩
  | cons o order ih =>
    obtain ⟨a, as, rfl⟩ := List.exists_cons_of_length_eq_add_one ha
    obtain ⟨b, bs, rfl⟩ := List.exists_cons_of_length_eq_add_one hb
    obtain ⟨c, cs, rfl⟩ := List.exists_cons_of_length_eq_add_one hc
    exact (o.cmp_triangle a b c).andThen (ih (Nat.succ.inj ha) (Nat.succ.inj hb) (Nat.succ.inj hc))

/-! ## Positions and limits -/

/-- A place in the sort order; `below` and `above` are beyond all values. -/
inductive Limit where
  | first
  | below
  | key (ks : List Value)
  | above
  | last

namespace Partition

variable (lib : Library) (P : Partition)

/-- A row against a limit. -/
def place (q : ℕ) : Limit → Ordering
  | .first => .gt
  | .below => if isNull (P.firstKey q) && P.firstOrder.nullsLead then .lt else .gt
  | .key ks => cmpKeys P.order (P.key q) ks
  | .above => if isNull (P.firstKey q) && !P.firstOrder.nullsLead then .gt else .lt
  | .last => .lt

/-- A key that is moved: NULL stays with its peers. -/
def movedLimit (p : ℕ) (off : FrameRangeOffset) (up : Bool) (beyond : Limit) : Eval Limit :=
  if isNull (P.firstKey p) then return .key (P.key p)
  else do
    match ← shiftRangeKey lib (P.firstKey p) off up with
    | some t => return .key [t]
    | none => return beyond

def limit (p : ℕ) : FrameValueBound → Eval Limit
  | .unbounded => return .first
  | .preceding off => P.movedLimit lib p off (!P.firstOrder.ascending) .below
  | .currentRow => return .key (P.key p)
  | .following off => P.movedLimit lib p off P.firstOrder.ascending .above
  | .unboundedFollowing => return .last

/-- The number of the peer group. -/
def groupNumber (p : ℕ) : ℕ := ((List.range p).filter fun r => !P.peers r (r + 1)).length

end Partition

/-- The start bound of position `p` is not after `q`. -/
def startsBy (bound : FrameRowBound) (p q : ℤ) : Prop :=
  match bound with
  | .unbounded => True
  | .preceding k => p - k ≤ q
  | .currentRow => p ≤ q
  | .following k => p + k ≤ q
  | .unboundedFollowing => False

/-- The end bound of position `p` is not before `q`. -/
def endsBy (bound : FrameRowBound) (p q : ℤ) : Prop :=
  match bound with
  | .unbounded => False
  | .preceding k => q ≤ p - k
  | .currentRow => q ≤ p
  | .following k => q ≤ p + k
  | .unboundedFollowing => True

/-- The bounds of position `p` stay inside the positions up to `last`. -/
def InsidePartition (start stop : FrameRowBound) (p last : ℕ) : Prop :=
  (∀ k, stop = .preceding k → k ≤ p) ∧ ∀ k, start = .following k → p + k ≤ last

namespace Partition

variable (lib : Library) (P : Partition)

/-- Row `q` belongs to the frame of row `p`. -/
def InFrame (plan : WindowFramePlan) (p q : ℕ) : Prop :=
  q < P.n ∧ match plan with
    | .rows start stop => startsBy start p q ∧ endsBy stop p q
    | .groups start stop =>
      startsBy start (P.groupNumber p) (P.groupNumber q) ∧
        endsBy stop (P.groupNumber p) (P.groupNumber q)
    | .range start stop => ∃ s e, P.limit lib p start = .ok s ∧ P.limit lib p stop = .ok e ∧
        P.place q s ≠ .lt ∧ P.place q e ≠ .gt

/-- The frames are the standard ones, and what the aggregates and the value functions rely on. -/
structure FramesStandard (plan : WindowFramePlan) (bounds : List (ℕ × ℕ)) : Prop where
  rows : ∀ (p : ℕ) (b : ℕ × ℕ), bounds[p]? = some b → ∀ q, (b.1 ≤ q ∧ q ≤ b.2) ↔ P.InFrame lib plan p q
  forward : ∀ (p q : ℕ) (b c : ℕ × ℕ), p ≤ q → bounds[p]? = some b → bounds[q]? = some c → b.1 ≤ b.2 →
    c.1 ≤ c.2 → b.1 ≤ c.1 ∧ b.2 ≤ c.2
  values : ∀ (arg : ℕ → Eval Value) (p : ℕ) (b : ℕ × ℕ), bounds[p]? = some b →
    P.firstValue arg b = (if b.2 < b.1 then .ok .null else arg b.1) ∧
      P.lastValue arg b = if b.2 < b.1 then .ok .null else arg b.2

/-! ## When the code is right -/

/-- An offset of a row that is not NULL leaves the domain of its key. -/
def LeavesDomain (p : ℕ) (off : FrameRangeOffset) (up : Bool) : Prop :=
  isNull (P.firstKey p) = false ∧ shiftRangeKey lib (P.firstKey p) off up = .ok none

def StartFits (p : ℕ) : FrameValueBound → Prop
  -- a NULL row starts with its peers
  | .unbounded => isNull (P.firstKey p) = true →
      ∀ q < P.n, P.firstOrder.cmp (P.firstKey q) .null ≠ .lt
  -- the first key decides
  | .currentRow => ∀ q < P.n, cmpKeys P.order (P.key q) (P.key p) = .lt →
      P.firstOrder.cmp (P.firstKey q) (P.firstKey p) = .lt
  -- beyond the domain the frame starts with the partition
  | .preceding off => P.LeavesDomain lib p off (!P.firstOrder.ascending) →
      ∀ q < P.n, P.place q .below ≠ .lt
  | .following off => ¬P.LeavesDomain lib p off P.firstOrder.ascending
  | .unboundedFollowing => False

def StopFits (p : ℕ) : FrameValueBound → Prop
  | .unbounded => False
  -- beyond the domain the frame stops before the last row
  | .preceding off => P.LeavesDomain lib p off (!P.firstOrder.ascending) →
      ∀ q < P.n, P.place q .below = .gt ↔ q = P.n - 1
  | .currentRow => ∀ q < P.n, cmpKeys P.order (P.key q) (P.key p) = .gt →
      P.firstOrder.cmp (P.firstKey q) (P.firstKey p) = .gt
  | .following off => P.LeavesDomain lib p off P.firstOrder.ascending →
      ∀ q < P.n, P.place q .above = .gt ↔ q = P.n - 1
  | .unboundedFollowing => isNull (P.firstKey p) = true ∧
      ∀ q < P.n, P.firstOrder.cmp (P.firstKey q) .null ≠ .gt

/-- Later rows do not have earlier limits. -/
def Advances (start stop : FrameValueBound) : Prop :=
  ∀ p q, p ≤ q → q < P.n → ∀ s s' e e', P.limit lib p start = .ok s → P.limit lib q start = .ok s' →
    P.limit lib p stop = .ok e → P.limit lib q stop = .ok e' → ∀ r < P.n,
      (P.place r s = .lt → P.place r s' = .lt) ∧ (P.place r e' = .gt → P.place r e = .gt)

def FramesFit : WindowFramePlan → Prop
  | .rows start stop => ∀ p < P.n, InsidePartition start stop p (P.n - 1)
  | .groups start stop => ∀ p < P.n,
      InsidePartition start stop (P.groupNumber p) (P.groupNumber (P.n - 1))
  | .range start stop =>
      (∀ p < P.n, (∃ q, P.InFrame lib (.range start stop) p q) ∧ P.StartFits lib p start ∧
        P.StopFits lib p stop) ∧ P.Advances lib start stop

end Partition

end Docsql.Window
