import Docsql.Window.Standard

/-!
# The bounds of a frame

The intervals that `frame_bounds` gives are compared with the standard frames, row by row.
-/

namespace Docsql.Window

open Scalar (Eval Library isNull)
open Lib

/-- A limit that can be compared with keys of this width. -/
def Limit.Width (l : Limit) (w : ℕ) : Prop := ∀ ks, l = .key ks → ks.length = w

namespace Partition

variable {lib : Library} {P : Partition} {p q : ℕ}

/-! ## Sorted rows -/

theorem n_pos (P : Partition) : 0 < P.n := List.length_pos_of_ne_nil P.nonempty

theorem key_eq (h : p < P.n) : P.key p = P.keys[p] := by
  rw [key, List.getD_eq_getElem?_getD, List.getElem?_eq_getElem h, Option.getD_some]

theorem key_length (h : p < P.n) : (P.key p).length = P.order.length := by
  rw [key_eq h]
  exact P.widths _ (List.getElem_mem h)

theorem key_le (hpq : p ≤ q) (hq : q < P.n) : cmpKeys P.order (P.key p) (P.key q) ≠ .gt := by
  rcases hpq.eq_or_lt with rfl | hlt
  · rw [cmpKeys_self]
    exact Ordering.noConfusion
  · rw [key_eq (hlt.trans hq), key_eq hq]
    exact List.pairwise_iff_getElem.mp P.sorted p q (hlt.trans hq) hq hlt

/-- The first key compares as the keys do, as long as it decides. -/
theorem cmpKeys_first {as bs : List Value} (ha : as.length = P.order.length)
    (hb : bs.length = P.order.length) : cmpKeys P.order as bs =
      (P.firstOrder.cmp (as.headD .null) (bs.headD .null)).then
        (cmpKeys P.order.tail as.tail bs.tail) := by
  unfold firstOrder
  cases horder : P.order with
  | nil =>
    rw [horder] at ha hb
    obtain rfl := List.length_eq_zero_iff.mp ha
    obtain rfl := List.length_eq_zero_iff.mp hb
    rfl
  | cons o order =>
    rw [horder] at ha hb
    obtain ⟨a, as, rfl⟩ := List.exists_cons_of_length_eq_add_one ha
    obtain ⟨b, bs, rfl⟩ := List.exists_cons_of_length_eq_add_one hb
    rfl

theorem first_le (hpq : p ≤ q) (hq : q < P.n) :
    P.firstOrder.cmp (P.firstKey p) (P.firstKey q) ≠ .gt := by
  intro hgt
  apply key_le hpq hq
  rw [cmpKeys_first (key_length (hpq.trans_lt hq)) (key_length hq)]
  exact congrArg (Ordering.then · _) hgt

/-- Leading NULLs are before other rows, and other NULLs after them. -/
theorem isNull_of_lead (hpq : p ≤ q) (hq : q < P.n) (hlead : P.firstOrder.nullsLead = true)
    (hnull : isNull (P.firstKey q) = true) : isNull (P.firstKey p) = true := by
  by_contra hne
  apply first_le hpq hq
  rw [OrderKey.isNull_iff.mp hnull, OrderKey.cmp_null_right _ (Bool.eq_false_iff.mpr hne), hlead]
  rfl

theorem isNull_of_trail (hpq : p ≤ q) (hq : q < P.n) (hlead : P.firstOrder.nullsLead = false)
    (hnull : isNull (P.firstKey p) = true) : isNull (P.firstKey q) = true := by
  by_contra hne
  apply first_le hpq hq
  rw [OrderKey.isNull_iff.mp hnull, OrderKey.cmp_null_left _ (Bool.eq_false_iff.mpr hne), hlead]
  rfl

theorem place_mono {l : Limit} (hl : l.Width P.order.length) (hpq : p ≤ q) (hq : q < P.n) :
    (P.place p l = .gt → P.place q l = .gt) ∧ (P.place q l = .lt → P.place p l = .lt) := by
  cases l with
  | first => exact ⟨fun _ => rfl, fun h => Ordering.noConfusion h⟩
  | last => exact ⟨fun h => Ordering.noConfusion h, fun _ => rfl⟩
  | key ks =>
    have htri := cmpKeys_triangle P.order (key_length (hpq.trans_lt hq)) (key_length hq) (hl ks rfl)
    exact ⟨htri.gt_of_le (key_le hpq hq), htri.lt_of_le (key_le hpq hq)⟩
  | below =>
    have hnull := @isNull_of_lead P p q hpq hq
    unfold place
    cases hlead : P.firstOrder.nullsLead with
    | false => simp
    | true =>
      cases hn : isNull (P.firstKey q) with
      | false => simp
      | true => simp [hnull hlead hn]
  | above =>
    have hnull := @isNull_of_trail P p q hpq hq
    unfold place
    cases hlead : P.firstOrder.nullsLead with
    | true => simp
    | false =>
      cases hn : isNull (P.firstKey p) with
      | false => simp
      | true => simp [hnull hlead hn]

theorem lasting_start {l : Limit} (hl : l.Width P.order.length) :
    Lasting P.n fun q => P.place q l ≠ .lt :=
  fun _ _ hpq hq hp hlt => hp ((place_mono hl hpq hq).2 hlt)

theorem lasting_stop {l : Limit} (hl : l.Width P.order.length) :
    Lasting P.n fun q => P.place q l = .gt :=
  fun _ _ hpq hq hp => (place_mono hl hpq hq).1 hp

/-! ## The search -/

theorem lasting_lower (P : Partition) (t : Value) :
    Lasting P.n fun q => P.firstOrder.cmp (P.firstKey q) t ≠ .lt :=
  fun _ _ hpq hq hp hlt => hp ((P.firstOrder.cmp_triangle _ _ t).lt_of_le (first_le hpq hq) hlt)

theorem lasting_upper (P : Partition) (t : Value) :
    Lasting P.n fun q => P.firstOrder.cmp (P.firstKey q) t = .gt :=
  fun _ _ hpq hq hp => (P.firstOrder.cmp_triangle _ _ t).gt_of_le (first_le hpq hq) hp

theorem search_lower (P : Partition) (t : Value) :
    IsCut P.n (fun q => P.firstOrder.cmp (P.firstKey q) t ≠ .lt) (P.windowKeySearch t false) := by
  have hpass : ∀ q, (if P.firstOrder.ascending then
      decide (cmpMaybeNull (P.firstKey q) t P.firstOrder.nullsFirst ≠ .lt)
      else decide (cmpMaybeNull (P.firstKey q) t P.firstOrder.nullsFirst ≠ .gt)) =
        decide (P.firstOrder.cmp (P.firstKey q) t ≠ .lt) := by
    intro q
    unfold OrderKey.cmp
    cases P.firstOrder.ascending <;>
      cases cmpMaybeNull (P.firstKey q) t P.firstOrder.nullsFirst <;> rfl
  unfold windowKeySearch
  simp only [Bool.false_eq_true, if_false, hpass]
  have hcut := @bisect_all_isCut P.n
    (fun q => decide (P.firstOrder.cmp (P.firstKey q) t ≠ .lt))
    (by simpa only [decide_eq_true_iff] using lasting_lower P t)
  simpa only [decide_eq_true_iff] using hcut

theorem search_upper (P : Partition) (t : Value) :
    IsCut P.n (fun q => P.firstOrder.cmp (P.firstKey q) t = .gt) (P.windowKeySearch t true) := by
  have hpass : ∀ q, (if P.firstOrder.ascending then
      decide (cmpMaybeNull (P.firstKey q) t P.firstOrder.nullsFirst = .gt)
      else decide (cmpMaybeNull (P.firstKey q) t P.firstOrder.nullsFirst = .lt)) =
        decide (P.firstOrder.cmp (P.firstKey q) t = .gt) := by
    intro q
    unfold OrderKey.cmp
    cases P.firstOrder.ascending <;>
      cases cmpMaybeNull (P.firstKey q) t P.firstOrder.nullsFirst <;> rfl
  unfold windowKeySearch
  simp only [if_true, hpass]
  have hcut := @bisect_all_isCut P.n
    (fun q => decide (P.firstOrder.cmp (P.firstKey q) t = .gt))
    (by simpa only [decide_eq_true_iff] using lasting_upper P t)
  simpa only [decide_eq_true_iff] using hcut

/-! ## One row of a value frame -/

/-- How the code reads a bound: the value it searches for, if any. -/
def StartReads (P : Partition) (low : Option Value) (q : ℕ) : Prop :=
  low.elim True fun t => P.firstOrder.cmp (P.firstKey q) t ≠ .lt

def StopReads (P : Partition) (high : Option Value) (q : ℕ) : Prop :=
  high.elim (q = P.n - 1) fun t => P.firstOrder.cmp (P.firstKey q) t = .gt

theorem start_isCut (P : Partition) (low : Option Value) :
    IsCut P.n (P.StartReads low) (low.elim 0 fun t => P.windowKeySearch t false) := by
  cases low with
  | none => exact IsCut.all
  | some t => exact search_lower P t

theorem stop_isCut (P : Partition) (high : Option Value) :
    IsCut P.n (P.StopReads high) (high.elim (P.n - 1) fun t => P.windowKeySearch t true) := by
  cases high with
  | none => exact IsCut.last P.n_pos
  | some t => exact search_upper P t

/-- The encoding of an empty interval. -/
theorem mem_inclusive {lo hi : ℕ} (q : ℕ) :
    ((if hi = 0 then (max lo 1, 0) else (lo, hi - 1)).1 ≤ q ∧
      q ≤ (if hi = 0 then (max lo 1, 0) else (lo, hi - 1)).2) ↔ lo ≤ q ∧ q < hi := by
  split_ifs <;> dsimp only <;> omega

theorem boundValues_ok {key : Value} {start stop : FrameValueBound} {low high : Option Value} :
    P.boundValues lib key start stop = .ok (low, high) ↔
      P.boundValue lib key start = .ok low ∧ P.boundValue lib key stop = .ok high := by
  unfold boundValues
  cases P.boundValue lib key start <;> cases P.boundValue lib key stop <;>
    cases P.firstOrder.ascending <;> simp [Bind.bind, Except.bind, Pure.pure, Except.pure]

/-- What the code reads for a row. -/
structure Reads (lib : Library) (P : Partition) (start stop : FrameValueBound) (p : ℕ)
    (low high : Option Value) : Prop where
  null : isNull (P.firstKey p) = true → low = some .null ∧ high = some .null
  value : isNull (P.firstKey p) = false → P.boundValue lib (P.firstKey p) start = .ok low ∧
    P.boundValue lib (P.firstKey p) stop = .ok high

/-- The interval of a row is between the two cuts. -/
theorem rangeBounds_spec {start stop : FrameValueBound} {b : ℕ × ℕ} (hp : p < P.n)
    (h : P.rangeBounds lib start stop p = .ok b) :
    ∃ low high, Reads lib P start stop p low high ∧ ∀ q, (b.1 ≤ q ∧ q ≤ b.2) ↔
      (low.elim 0 fun t => P.windowKeySearch t false) ≤ q ∧
        q < high.elim (P.n - 1) fun t => P.windowKeySearch t true := by
  unfold rangeBounds at h
  dsimp only at h
  cases hnull : isNull (P.firstKey p) with
  | true =>
    rw [hnull, if_pos rfl] at h
    obtain rfl := Except.ok.inj h
    have hkey := OrderKey.isNull_iff.mp hnull
    rw [hkey]
    refine ⟨some .null, some .null, ⟨fun _ => ⟨rfl, rfl⟩, fun hn => ?_⟩, fun q => ?_⟩
    · rw [hnull] at hn
      cases hn
    · -- the row itself is not after its peers
      have hself : p < P.windowKeySearch .null true := by
        by_contra hle
        have hgt := ((search_upper P .null).iff p hp).mpr (not_lt.mp hle)
        rw [hkey, OrderKey.cmp_null_null] at hgt
        cases hgt
      dsimp only [Option.elim_some]
      omega
  | false =>
    rw [hnull, if_neg Bool.false_ne_true] at h
    cases hvalues : P.boundValues lib (P.firstKey p) start stop with
    | error e =>
      rw [hvalues] at h
      cases h
    | ok values =>
      rw [hvalues] at h
      obtain ⟨low, high⟩ := values
      obtain rfl := Except.ok.inj h
      refine ⟨low, high, ⟨fun hn => ?_, fun _ => boundValues_ok.mp hvalues⟩, fun q => mem_inclusive q⟩
      rw [hnull] at hn
      cases hn

/-! ## Limits and what is read -/

theorem place_key {ks : List Value} (hq : q < P.n) (hks : ks.length = P.order.length) :
    P.place q (.key ks) = (P.firstOrder.cmp (P.firstKey q) (ks.headD .null)).then
      (cmpKeys P.order.tail (P.key q).tail ks.tail) :=
  cmpKeys_first (key_length hq) hks

theorem cmpKeys_nil (as bs : List Value) : cmpKeys [] as bs = .eq := by
  cases as <;> cases bs <;> rfl

/-- A single key decides alone. -/
theorem place_single {ks : List Value} (hone : P.order.length = 1) (hq : q < P.n)
    (hks : ks.length = P.order.length) :
    P.place q (.key ks) = P.firstOrder.cmp (P.firstKey q) (ks.headD .null) := by
  have htail : P.order.tail = [] := by
    apply List.eq_nil_of_length_eq_zero
    rw [List.length_tail, hone]
  rw [place_key hq hks, htail, cmpKeys_nil]
  exact Ordering.then_eq

variable {start stop : FrameValueBound} {off : FrameRangeOffset} {up : Bool} {l beyond : Limit}
  {low high : Option Value}

/-- Where an offset leads, and what the code searches for. -/
theorem moved_cases (hone : P.order.length = 1) (hp : p < P.n)
    (hlimit : P.movedLimit lib p off up beyond = .ok l)
    (hnull : isNull (P.firstKey p) = true → low = some .null)
    (hvalue : isNull (P.firstKey p) = false → shiftRangeKey lib (P.firstKey p) off up = .ok low) :
    (P.LeavesDomain lib p off up ∧ l = beyond ∧ low = none) ∨
      (¬P.LeavesDomain lib p off up ∧ ∃ t, low = some t ∧
        ∀ q < P.n, P.place q l = P.firstOrder.cmp (P.firstKey q) t) := by
  unfold movedLimit at hlimit
  cases hn : isNull (P.firstKey p) with
  | true =>
    rw [hn, if_pos rfl] at hlimit
    obtain rfl := Except.ok.inj hlimit
    refine .inr ⟨fun h => ?_, .null, hnull hn, fun q hq => ?_⟩
    · rw [h.1] at hn
      cases hn
    · rw [place_single hone hq (key_length hp)]
      exact congrArg _ (OrderKey.isNull_iff.mp hn)
  | false =>
    rw [hn, if_neg Bool.false_ne_true, hvalue hn] at hlimit
    have hshift := hvalue hn
    cases low with
    | none =>
      obtain rfl := Except.ok.inj hlimit
      exact .inl ⟨⟨hn, hshift⟩, rfl, rfl⟩
    | some t =>
      obtain rfl := Except.ok.inj hlimit
      refine .inr ⟨fun h => ?_, t, rfl, fun q hq => place_single hone hq hone.symm⟩
      cases h.2.symm.trans hshift

theorem moved_start_iff (hone : P.order.length = 1) (hp : p < P.n)
    (hlimit : P.movedLimit lib p off up beyond = .ok l)
    (hnull : isNull (P.firstKey p) = true → low = some .null)
    (hvalue : isNull (P.firstKey p) = false → shiftRangeKey lib (P.firstKey p) off up = .ok low) :
    (∀ q < P.n, P.StartReads low q ↔ P.place q l ≠ .lt) ↔
      (P.LeavesDomain lib p off up → ∀ q < P.n, P.place q beyond ≠ .lt) := by
  rcases moved_cases hone hp hlimit hnull hvalue with ⟨hleaves, rfl, rfl⟩ | ⟨hstays, t, rfl, hplace⟩
  · simp only [StartReads, Option.elim_none, true_iff, hleaves, forall_const]
  · refine iff_of_true (fun q hq => ?_) fun h => absurd h hstays
    rw [hplace q hq]
    rfl

theorem moved_stop_iff (hone : P.order.length = 1) (hp : p < P.n)
    (hlimit : P.movedLimit lib p off up beyond = .ok l)
    (hnull : isNull (P.firstKey p) = true → low = some .null)
    (hvalue : isNull (P.firstKey p) = false → shiftRangeKey lib (P.firstKey p) off up = .ok low) :
    (∀ q < P.n, P.StopReads low q ↔ P.place q l = .gt) ↔
      (P.LeavesDomain lib p off up → ∀ q < P.n, P.place q beyond = .gt ↔ q = P.n - 1) := by
  rcases moved_cases hone hp hlimit hnull hvalue with ⟨hleaves, rfl, rfl⟩ | ⟨hstays, t, rfl, hplace⟩
  · simp only [StopReads, Option.elim_none, hleaves, forall_const]
    exact forall₂_congr fun _ _ => Iff.comm
  · refine iff_of_true (fun q hq => ?_) fun h => absurd h hstays
    rw [hplace q hq]
    rfl

/-- The row's own keys: what is read is its first key. -/
theorem reads_current (hreads : Reads lib P start stop p low high) :
    (start = .currentRow → low = some (P.firstKey p)) ∧
      (stop = .currentRow → high = some (P.firstKey p)) := by
  cases hn : isNull (P.firstKey p) with
  | true =>
    rw [OrderKey.isNull_iff.mp hn]
    exact ⟨fun _ => (hreads.null hn).1, fun _ => (hreads.null hn).2⟩
  | false =>
    constructor
    · rintro rfl
      exact (Except.ok.inj (hreads.value hn).1).symm
    · rintro rfl
      exact (Except.ok.inj (hreads.value hn).2).symm

theorem startFits_iff (hone : hasOffset start = true → P.order.length = 1) (hp : p < P.n)
    (hstart : start ≠ .unboundedFollowing) (hlimit : P.limit lib p start = .ok l)
    (hreads : Reads lib P start stop p low high) :
    (∀ q < P.n, P.StartReads low q ↔ P.place q l ≠ .lt) ↔ P.StartFits lib p start := by
  cases start with
  | unboundedFollowing => exact absurd rfl hstart
  | unbounded =>
    obtain rfl := Except.ok.inj hlimit
    unfold StartFits
    cases hn : isNull (P.firstKey p) with
    | true =>
      rw [(hreads.null hn).1]
      simp [StartReads, place]
    | false =>
      obtain rfl := Except.ok.inj (hreads.value hn).1
      simp [StartReads, place]
  | currentRow =>
    obtain rfl := Except.ok.inj hlimit
    rw [(reads_current hreads).1 rfl]
    unfold StartFits
    refine forall₂_congr fun q hq => ?_
    have hplace : cmpKeys P.order (P.key q) (P.key p) =
        (P.firstOrder.cmp (P.firstKey q) (P.firstKey p)).then
          (cmpKeys P.order.tail (P.key q).tail (P.key p).tail) := place_key hq (key_length hp)
    simp only [StartReads, Option.elim_some, place, hplace]
    generalize P.firstOrder.cmp (P.firstKey q) (P.firstKey p) = ord
    generalize cmpKeys P.order.tail (P.key q).tail (P.key p).tail = rest
    cases ord <;> cases rest <;> simp
  | preceding off =>
    exact moved_start_iff (hone rfl) hp hlimit (fun hn => (hreads.null hn).1)
      fun hn => (hreads.value hn).1
  | following off =>
    refine (moved_start_iff (hone rfl) hp hlimit (fun hn => (hreads.null hn).1)
      fun hn => (hreads.value hn).1).trans ⟨fun h hleaves => h hleaves p hp ?_, fun h hl => absurd hl h⟩
    rw [place, hleaves.1]
    rfl

theorem stopFits_iff (hone : hasOffset stop = true → P.order.length = 1) (hp : p < P.n)
    (hstop : stop ≠ .unbounded) (hlimit : P.limit lib p stop = .ok l)
    (hreads : Reads lib P start stop p low high) :
    (∀ q < P.n, P.StopReads high q ↔ P.place q l = .gt) ↔ P.StopFits lib p stop := by
  cases stop with
  | unbounded => exact absurd rfl hstop
  | unboundedFollowing =>
    obtain rfl := Except.ok.inj hlimit
    unfold StopFits
    cases hn : isNull (P.firstKey p) with
    | true =>
      rw [(hreads.null hn).2]
      simp [StopReads, place]
    | false =>
      obtain rfl := Except.ok.inj (hreads.value hn).2
      have hpos := P.n_pos
      simp only [StopReads, Option.elim_none, place, Bool.false_eq_true, false_and, iff_false]
      intro h
      have := (h (P.n - 1) (by omega)).mp rfl
      cases this
  | currentRow =>
    obtain rfl := Except.ok.inj hlimit
    rw [(reads_current hreads).2 rfl]
    unfold StopFits
    refine forall₂_congr fun q hq => ?_
    have hplace : cmpKeys P.order (P.key q) (P.key p) =
        (P.firstOrder.cmp (P.firstKey q) (P.firstKey p)).then
          (cmpKeys P.order.tail (P.key q).tail (P.key p).tail) := place_key hq (key_length hp)
    simp only [StopReads, Option.elim_some, place, hplace]
    generalize P.firstOrder.cmp (P.firstKey q) (P.firstKey p) = ord
    generalize cmpKeys P.order.tail (P.key q).tail (P.key p).tail = rest
    cases ord <;> cases rest <;> simp
  | preceding off =>
    exact moved_stop_iff (hone rfl) hp hlimit (fun hn => (hreads.null hn).2)
      fun hn => (hreads.value hn).2
  | following off =>
    exact moved_stop_iff (hone rfl) hp hlimit (fun hn => (hreads.null hn).2)
      fun hn => (hreads.value hn).2

/-- Both limits of a row exist once its bounds do. -/
theorem limits_of_reads (hreads : Reads lib P start stop p low high) :
    (∃ s, P.limit lib p start = .ok s) ∧ ∃ e, P.limit lib p stop = .ok e := by
  have hmoved : ∀ {off up beyond} {read : Option Value},
      (isNull (P.firstKey p) = false → shiftRangeKey lib (P.firstKey p) off up = .ok read) →
        ∃ l, P.movedLimit lib p off up beyond = .ok l := by
    intro off up beyond read hvalue
    unfold movedLimit
    cases hn : isNull (P.firstKey p) with
    | true => exact ⟨_, rfl⟩
    | false =>
      rw [if_neg Bool.false_ne_true, hvalue hn]
      cases read with
      | none => exact ⟨_, rfl⟩
      | some t => exact ⟨_, rfl⟩
  constructor
  · cases start with
    | preceding off => exact hmoved fun hn => (hreads.value hn).1
    | following off => exact hmoved fun hn => (hreads.value hn).1
    | _ => exact ⟨_, rfl⟩
  · cases stop with
    | preceding off => exact hmoved fun hn => (hreads.value hn).2
    | following off => exact hmoved fun hn => (hreads.value hn).2
    | _ => exact ⟨_, rfl⟩

theorem limit_width {bound : FrameValueBound} (hone : hasOffset bound = true → P.order.length = 1)
    (hp : p < P.n) (h : P.limit lib p bound = .ok l) : l.Width P.order.length := by
  have hmoved : ∀ {off up beyond}, (∀ ks, beyond ≠ .key ks) → P.order.length = 1 →
      P.movedLimit lib p off up beyond = .ok l → l.Width P.order.length := by
    intro off up beyond hbeyond hlen hl ks hks
    unfold movedLimit at hl
    split_ifs at hl with hn
    · obtain rfl := Except.ok.inj hl
      cases hks
      exact key_length hp
    · cases hshift : shiftRangeKey lib (P.firstKey p) off up with
      | error e =>
        rw [hshift] at hl
        cases hl
      | ok shifted =>
        rw [hshift] at hl
        cases shifted with
        | none =>
          obtain rfl := Except.ok.inj hl
          exact absurd hks (hbeyond ks)
        | some t =>
          obtain rfl := Except.ok.inj hl
          cases hks
          exact hlen.symm
  cases bound with
  | preceding off => exact hmoved (fun _ => Limit.noConfusion) (hone rfl) h
  | following off => exact hmoved (fun _ => Limit.noConfusion) (hone rfl) h
  | currentRow =>
    obtain rfl := Except.ok.inj h
    intro ks hks
    cases hks
    exact key_length hp
  | unbounded =>
    obtain rfl := Except.ok.inj h
    intro ks hks
    cases hks
  | unboundedFollowing =>
    obtain rfl := Except.ok.inj h
    intro ks hks
    cases hks

theorem inFrame_range {s e : Limit} (hs : P.limit lib p start = .ok s)
    (he : P.limit lib p stop = .ok e) : P.InFrame lib (.range start stop) p q ↔
      q < P.n ∧ P.place q s ≠ .lt ∧ ¬P.place q e = .gt := by
  unfold InFrame
  dsimp only
  constructor
  · rintro ⟨hq, s', e', hs', he', hplace⟩
    obtain rfl := Except.ok.inj (hs.symm.trans hs')
    obtain rfl := Except.ok.inj (he.symm.trans he')
    exact ⟨hq, hplace⟩
  · rintro ⟨hq, hplace⟩
    exact ⟨hq, s, e, hs, he, hplace⟩

/-- One row of a value frame: the interval is the frame exactly where both bounds fit. -/
theorem range_row_iff (hone : (hasOffset start || hasOffset stop) = true → P.order.length = 1)
    (hp : p < P.n) (hstart : start ≠ .unboundedFollowing) (hstop : stop ≠ .unbounded) {b : ℕ × ℕ}
    (h : P.rangeBounds lib start stop p = .ok b)
    (hsome : ∃ q, P.InFrame lib (.range start stop) p q) :
    (∀ q, (b.1 ≤ q ∧ q ≤ b.2) ↔ P.InFrame lib (.range start stop) p q) ↔
      P.StartFits lib p start ∧ P.StopFits lib p stop := by
  obtain ⟨low, high, hreads, hmem⟩ := rangeBounds_spec hp h
  obtain ⟨⟨s, hs⟩, e, he⟩ := limits_of_reads hreads
  have hones : hasOffset start = true → P.order.length = 1 := fun ho => hone (by simp [ho])
  have honee : hasOffset stop = true → P.order.length = 1 := fun ho => hone (by simp [ho])
  obtain ⟨a, ha⟩ := IsCut.exists_of_lasting (lasting_start (limit_width hones hp hs))
  obtain ⟨c, hc⟩ := IsCut.exists_of_lasting (lasting_stop (limit_width honee hp he))
  obtain ⟨r, hr⟩ := hsome
  rw [← startFits_iff hones hp hstart hs hreads, ← stopFits_iff honee hp hstop he hreads]
  simp only [hmem, inFrame_range hs he]
  exact IsCut.interval_eq_iff (P.start_isCut low) (P.stop_isCut high) ha hc
    ⟨r, (inFrame_range hs he).mp hr⟩

end Partition

end Docsql.Window
