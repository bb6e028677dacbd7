import Docsql.Lib.StateExcept
import Docsql.Scalar.Total
import Docsql.Window.PeerGroups

/-!
# Frames of a whole partition

`frame_bounds` gives the standard frames exactly when no bound leaves the partition on its far
side and every value bound is one that the search can express.
-/

namespace Docsql.Window

open Scalar (Eval Library isNull)
open Lib

/-! ## Accepted clauses -/

section Accepted

variable {lib : Library} {frame : WindowFrame} {plan : WindowFramePlan} {orderLen : ℕ}

theorem frameBound_ends {α : Type} {read : OffsetExpr → Eval α} {b : WindowFrameBound}
    {x : FrameBound α} (h : frameBound read b = .ok x) :
    (x = .unboundedFollowing → b = .following none) ∧ (x = .unbounded → b = .preceding none) := by
  cases b with
  | currentRow =>
    obtain rfl := Except.ok.inj h
    exact ⟨fun h => (by cases h), fun h => (by cases h)⟩
  | preceding offset =>
    cases offset with
    | none =>
      obtain rfl := Except.ok.inj h
      exact ⟨fun h => (by cases h), fun _ => rfl⟩
    | some e =>
      obtain ⟨k, -, hk⟩ := Except.bind_eq_ok_iff.mp h
      obtain rfl := Except.ok.inj hk
      exact ⟨fun h => (by cases h), fun h => (by cases h)⟩
  | following offset =>
    cases offset with
    | none =>
      obtain rfl := Except.ok.inj h
      exact ⟨fun _ => rfl, fun h => (by cases h)⟩
    | some e =>
      obtain ⟨k, -, hk⟩ := Except.bind_eq_ok_iff.mp h
      obtain rfl := Except.ok.inj hk
      exact ⟨fun h => (by cases h), fun h => (by cases h)⟩

/-- The start is not the far end, nor the end the near one. -/
structure Standard (frame : WindowFrame) : Prop where
  begins : frame.startBound ≠ .following none
  ends : frame.endBound ≠ some (.preceding none)

theorem Standard.stop (h : Standard frame) :
    frame.endBound.getD .currentRow ≠ .preceding none := by
  have hends := h.ends
  cases hbound : frame.endBound with
  | none => exact WindowFrameBound.noConfusion
  | some b =>
    rw [hbound] at hends
    exact fun heq => hends (congrArg some heq)

theorem rowFrame_ordered (hframe : Standard frame) {start stop : FrameRowBound}
    (h : rowFrame frame = .ok (start, stop)) : Ordered start stop := by
  unfold rowFrame at h
  obtain ⟨s, hs, h⟩ := Except.bind_eq_ok_iff.mp h
  obtain ⟨e, he, h⟩ := Except.bind_eq_ok_iff.mp h
  split_ifs at h with hmis
  · cases h
  · obtain ⟨rfl, rfl⟩ := Prod.mk.inj (Except.ok.inj h)
    exact ⟨fun hbad => hframe.begins ((frameBound_ends hs).1 hbad),
      fun hbad => hframe.stop ((frameBound_ends he).2 hbad), by simpa using hmis⟩

/-- What an accepted clause guarantees of its plan. -/
def Accepted (orderLen : ℕ) : WindowFramePlan → Prop
  | .rows start stop | .groups start stop => Ordered start stop
  | .range start stop => start ≠ .unboundedFollowing ∧ stop ≠ .unbounded ∧
      ((hasOffset start || hasOffset stop) = true → orderLen = 1)

theorem parse_accepted (hframe : Standard frame)
    (h : parseWindowFrame lib frame orderLen = .ok plan) : Accepted orderLen plan := by
  unfold parseWindowFrame at h
  cases hunits : frame.units with
  | rows =>
    rw [hunits] at h
    obtain ⟨⟨start, stop⟩, hrow, h⟩ := Except.bind_eq_ok_iff.mp h
    obtain rfl := Except.ok.inj h
    exact rowFrame_ordered hframe hrow
  | groups =>
    rw [hunits] at h
    obtain ⟨⟨start, stop⟩, hrow, h⟩ := Except.bind_eq_ok_iff.mp h
    obtain rfl := Except.ok.inj h
    exact rowFrame_ordered hframe hrow
  | range =>
    rw [hunits] at h
    obtain ⟨s, hs, h⟩ := Except.bind_eq_ok_iff.mp h
    obtain ⟨e, he, h⟩ := Except.bind_eq_ok_iff.mp h
    split_ifs at h with hmis hone
    · cases h
    · cases h
    · obtain rfl := Except.ok.inj h
      refine ⟨fun hbad => hframe.begins ((frameBound_ends hs).1 hbad),
        fun hbad => hframe.stop ((frameBound_ends he).2 hbad), fun hoffset => ?_⟩
      rw [hoffset, Bool.true_and] at hone
      simpa using hone

end Accepted

namespace Partition

variable {lib : Library} {P : Partition} {plan : WindowFramePlan} {bounds : List (ℕ × ℕ)}

/-! ## Empty frames -/

/-- A value function shows that a frame is not empty. -/
theorem nonempty_of_values {b : ℕ × ℕ}
    (h : ∀ arg : ℕ → Eval Value, P.firstValue arg b = if b.2 < b.1 then .ok .null else arg b.1) :
    b.1 ≤ b.2 := by
  by_contra hlt
  have hone := h fun _ => .ok (.int 1)
  rw [if_pos (not_le.mp hlt), firstValue, valueAt] at hone
  split_ifs at hone
  cases hone

/-- The interval of a row, not empty and its frame. -/
def RowRight (lib : Library) (P : Partition) (plan : WindowFramePlan) (p : ℕ) (b : ℕ × ℕ) : Prop :=
  b.1 ≤ b.2 ∧ ∀ q, (b.1 ≤ q ∧ q ≤ b.2) ↔ P.InFrame lib plan p q

theorem RowRight.lt {p : ℕ} {b : ℕ × ℕ} (h : RowRight lib P plan p b) : b.2 < P.n :=
  ((h.2 b.2).mp ⟨h.1, le_rfl⟩).1

theorem framesStandard_iff : P.FramesStandard lib plan bounds ↔
    (∀ (p : ℕ) (b : ℕ × ℕ), bounds[p]? = some b → RowRight lib P plan p b) ∧
      ∀ (p q : ℕ) (b c : ℕ × ℕ), p ≤ q → bounds[p]? = some b → bounds[q]? = some c →
        b.1 ≤ c.1 ∧ b.2 ≤ c.2 := by
  constructor
  · intro h
    have hright : ∀ (p : ℕ) (b : ℕ × ℕ), bounds[p]? = some b → RowRight lib P plan p b :=
      fun p b hb => ⟨nonempty_of_values fun arg => (h.values arg p b hb).1, h.rows p b hb⟩
    exact ⟨hright, fun p q b c hpq hb hc =>
      h.forward p q b c hpq hb hc (hright p b hb).1 (hright q c hc).1⟩
  · rintro ⟨hright, hforward⟩
    refine ⟨fun p b hb => (hright p b hb).2,
      fun p q b c hpq hb hc _ _ => hforward p q b c hpq hb hc, fun arg p b hb => ?_⟩
    have hb' := hright p b hb
    rw [if_neg (not_lt.mpr hb'.1), if_neg (not_lt.mpr hb'.1)]
    exact ⟨if_pos (hb'.1.trans_lt hb'.lt), if_pos hb'.lt⟩

/-- Intervals move forward exactly when their cuts do. -/
theorem forward_iff {n : ℕ} {b c : ℕ × ℕ} {start stop start' stop' : ℕ → Prop}
    (hs : Lasting n start) (he : Lasting n stop) (hs' : Lasting n start') (he' : Lasting n stop')
    (hb : b.1 ≤ b.2 ∧ ∀ q, (b.1 ≤ q ∧ q ≤ b.2) ↔ q < n ∧ start q ∧ ¬stop q)
    (hc : c.1 ≤ c.2 ∧ ∀ q, (c.1 ≤ q ∧ q ≤ c.2) ↔ q < n ∧ start' q ∧ ¬stop' q) :
    (b.1 ≤ c.1 ∧ b.2 ≤ c.2) ↔
      (∀ q < n, start' q → start q) ∧ ∀ q < n, stop' q → stop q := by
  obtain ⟨hb₁, hb₂⟩ := IsCut.of_interval hs he hb.2 hb.1
  obtain ⟨hc₁, hc₂⟩ := IsCut.of_interval hs' he' hc.2 hc.1
  constructor
  · rintro ⟨h₁, h₂⟩
    exact ⟨hc₁.imp_of_le hb₁ h₁, hc₂.imp_of_le hb₂ (Nat.succ_le_succ h₂)⟩
  · rintro ⟨h₁, h₂⟩
    exact ⟨hc₁.le_of_imp hb₁ h₁, Nat.le_of_succ_le_succ (hc₂.le_of_imp hb₂ h₂)⟩

/-! ## Frames of counted positions -/

theorem getElem?_map_range {α : Type} {n p : ℕ} {f : ℕ → α} {b : α} :
    ((List.range n).map f)[p]? = some b ↔ p < n ∧ f p = b := by
  rw [List.getElem?_map]
  by_cases h : p < n
  · rw [List.getElem?_range h]
    simp [h]
  · rw [List.getElem?_eq_none (by simpa using h)]
    simp [h]

/-- Rows and groups: `number` counts the positions along the partition. -/
theorem counted_iff {start stop : FrameRowBound} (hordered : Ordered start stop) {number : ℕ → ℕ}
    (hmono : Monotone number) {f : ℕ → ℕ × ℕ}
    (hframe : ∀ p q, P.InFrame lib plan p q ↔
      q < P.n ∧ startsBy start (number p) (number q) ∧ endsBy stop (number p) (number q))
    (hsurj : ∀ g ≤ number (P.n - 1), ∃ q < P.n, number q = g)
    (hright : ∀ p < P.n, InsidePartition start stop (number p) (number (P.n - 1)) → ∀ q,
      ((f p).1 ≤ q ∧ q ≤ (f p).2) ↔
        q < P.n ∧ startsBy start (number p) (number q) ∧ endsBy stop (number p) (number q)) :
    P.FramesStandard lib plan ((List.range P.n).map f) ↔
      ∀ p < P.n, InsidePartition start stop (number p) (number (P.n - 1)) := by
  have hlast : ∀ q, q < P.n → number q ≤ number (P.n - 1) := fun q hq => hmono (by omega)
  rw [framesStandard_iff]
  constructor
  · rintro ⟨hrows, -⟩ p hp
    have hrow := hrows p (f p) (getElem?_map_range.mpr ⟨hp, rfl⟩)
    obtain ⟨hq, hstart, hstop⟩ := (hframe p _).mp ((hrow.2 (f p).2).mp ⟨hrow.1, le_rfl⟩)
    exact (counted_nonempty_iff hordered (hlast p hp)).mp ⟨_, hlast _ hq, hstart, hstop⟩
  · intro hin
    have hrow : ∀ p < P.n, RowRight lib P plan p (f p) := by
      intro p hp
      obtain ⟨g, hg, hstart, hstop⟩ :=
        (counted_nonempty_iff hordered (hlast p hp)).mpr (hin p hp)
      obtain ⟨q, hq, rfl⟩ := hsurj g hg
      have hmem := (hright p hp (hin p hp) q).mpr ⟨hq, hstart, hstop⟩
      exact ⟨hmem.1.trans hmem.2, fun q => (hright p hp (hin p hp) q).trans (hframe p q).symm⟩
    have hstarts : ∀ p, Lasting P.n fun q => startsBy start (number p) (number q) := by
      intro p q r hqr _ hq
      have hnumber : (number q : ℤ) ≤ number r := by exact_mod_cast hmono hqr
      cases start <;> simp only [startsBy] at hq ⊢ <;> omega
    have hstops : ∀ p, Lasting P.n fun q => ¬endsBy stop (number p) (number q) := by
      intro p q r hqr _ hq hr
      apply hq
      have hnumber : (number q : ℤ) ≤ number r := by exact_mod_cast hmono hqr
      cases stop <;> simp only [endsBy] at hr ⊢ <;> omega
    have hinterval : ∀ p < P.n, (f p).1 ≤ (f p).2 ∧ ∀ q, ((f p).1 ≤ q ∧ q ≤ (f p).2) ↔
        q < P.n ∧ startsBy start (number p) (number q) ∧
          ¬¬endsBy stop (number p) (number q) := by
      intro p hp
      simp only [not_not]
      exact ⟨(hrow p hp).1, hright p hp (hin p hp)⟩
    constructor
    · intro p b hb
      obtain ⟨hp, rfl⟩ := getElem?_map_range.mp hb
      exact hrow p hp
    · intro p q b c hpq hb hc
      obtain ⟨hp, rfl⟩ := getElem?_map_range.mp hb
      obtain ⟨hq, rfl⟩ := getElem?_map_range.mp hc
      have hnumber : (number p : ℤ) ≤ number q := by exact_mod_cast hmono hpq
      refine (forward_iff (hstarts p) (hstops p) (hstarts q) (hstops q) (hinterval p hp)
        (hinterval q hq)).mpr ⟨fun r _ hr => ?_, fun r _ hr hend => hr ?_⟩
      · cases start <;> simp only [startsBy] at hr ⊢ <;> omega
      · cases stop <;> simp only [endsBy] at hend ⊢ <;> omega

/-! ## Value frames -/

theorem firstKey_unordered (horder : P.order = []) (p : ℕ) : P.firstKey p = .null := by
  unfold firstKey
  by_cases hp : p < P.n
  · have hlen := key_length hp
    rw [horder] at hlen
    rw [List.length_eq_zero_iff.mp hlen]
    rfl
  · rw [key, List.getD_eq_getElem?_getD, List.getElem?_eq_none (not_lt.mp hp)]
    rfl

/-- Without ORDER BY all rows are peers. -/
theorem rangeBounds_unordered (horder : P.order = []) (start stop : FrameValueBound) (p : ℕ) :
    P.rangeBounds lib start stop p = .ok (0, P.n - 1) := by
  have hkey := firstKey_unordered horder
  have hlow : P.windowKeySearch .null false = 0 := by
    have hcut := search_lower P .null
    apply Nat.le_zero.mp
    apply (hcut.iff 0 P.n_pos).mp
    rw [hkey, OrderKey.cmp_null_null]
    exact Ordering.noConfusion
  have hhigh : P.windowKeySearch .null true = P.n := by
    have hcut := search_upper P .null
    apply hcut.le.antisymm
    by_contra hlt
    have hgt := (hcut.iff _ (not_le.mp hlt)).mpr le_rfl
    rw [hkey, OrderKey.cmp_null_null] at hgt
    cases hgt
  unfold rangeBounds
  rw [hkey]
  dsimp only
  rw [if_pos (show isNull .null = true from rfl), hlow, hhigh]
  rfl

/-- The bounds of a value frame, row by row. -/
theorem getElem?_range {start stop : FrameValueBound}
    (h : P.frameBounds lib (.range start stop) = .ok bounds) :
    (∀ (p : ℕ) (b : ℕ × ℕ), bounds[p]? = some b →
      p < P.n ∧ P.rangeBounds lib start stop p = .ok b) ∧ ∀ p < P.n, ∃ b, bounds[p]? = some b := by
  unfold frameBounds at h
  dsimp only at h
  split_ifs at h with horder
  · obtain rfl := Except.ok.inj h
    refine ⟨fun p b hb => ?_, fun p hp => ⟨(0, P.n - 1), ?_⟩⟩
    · rw [List.getElem?_replicate] at hb
      split_ifs at hb with hp
      obtain rfl := Option.some.inj hb
      exact ⟨hp, rangeBounds_unordered horder start stop p⟩
    · rw [List.getElem?_replicate, if_pos hp]
  · have hall := Except.mapM_eq_ok h
    have hlen := hall.length_eq
    rw [List.length_range] at hlen
    refine ⟨fun p b hb => ?_, fun p hp => ⟨bounds[p], List.getElem?_eq_getElem (hlen ▸ hp)⟩⟩
    obtain ⟨hp, rfl⟩ := List.getElem?_eq_some_iff.mp hb
    have hget := hall.get (i := p) (by simpa [hlen] using hp) hp
    rw [List.get_eq_getElem, List.getElem_range] at hget
    exact ⟨hlen ▸ hp, hget⟩

theorem range_iff {start stop : FrameValueBound}
    (hone : (hasOffset start || hasOffset stop) = true → P.order.length = 1)
    (hstart : start ≠ .unboundedFollowing) (hstop : stop ≠ .unbounded)
    (h : P.frameBounds lib (.range start stop) = .ok bounds) :
    P.FramesStandard lib (.range start stop) bounds ↔ P.FramesFit lib (.range start stop) := by
  obtain ⟨hrun, hsome⟩ := getElem?_range h
  have hones : hasOffset start = true → P.order.length = 1 := fun ho => hone (by simp [ho])
  have honee : hasOffset stop = true → P.order.length = 1 := fun ho => hone (by simp [ho])
  have hrow : ∀ p b, bounds[p]? = some b → (RowRight lib P (.range start stop) p b ↔
      (∃ q, P.InFrame lib (.range start stop) p q) ∧ P.StartFits lib p start ∧
        P.StopFits lib p stop) := by
    intro p b hb
    obtain ⟨hp, hbounds⟩ := hrun p b hb
    constructor
    · rintro ⟨hle, hmem⟩
      have hin : ∃ q, P.InFrame lib (.range start stop) p q := ⟨b.1, (hmem b.1).mp ⟨le_rfl, hle⟩⟩
      exact ⟨hin, (range_row_iff hone hp hstart hstop hbounds hin).mp hmem⟩
    · rintro ⟨hin, hfits⟩
      have hmem := (range_row_iff hone hp hstart hstop hbounds hin).mpr hfits
      obtain ⟨q, hq⟩ := hin
      have hbq := (hmem q).mpr hq
      exact ⟨hbq.1.trans hbq.2, hmem⟩
  -- two rows with their frames: the limits advance exactly where the bounds do
  have hpair : ∀ p q b c s s' e e', bounds[p]? = some b → bounds[q]? = some c →
      RowRight lib P (.range start stop) p b → RowRight lib P (.range start stop) q c →
      P.limit lib p start = .ok s → P.limit lib q start = .ok s' →
      P.limit lib p stop = .ok e → P.limit lib q stop = .ok e' →
      ((b.1 ≤ c.1 ∧ b.2 ≤ c.2) ↔ ∀ r < P.n, (P.place r s = .lt → P.place r s' = .lt) ∧
        (P.place r e' = .gt → P.place r e = .gt)) := by
    intro p q b c s s' e e' hb hc hbr hcr hs hs' he he'
    have hp := (hrun p b hb).1
    have hq := (hrun q c hc).1
    rw [forward_iff (lasting_start (limit_width hones hp hs))
      (lasting_stop (limit_width honee hp he)) (lasting_start (limit_width hones hq hs'))
      (lasting_stop (limit_width honee hq he'))
      ⟨hbr.1, fun r => (hbr.2 r).trans (inFrame_range hs he)⟩
      ⟨hcr.1, fun r => (hcr.2 r).trans (inFrame_range hs' he')⟩, ← forall₂_and]
    exact forall₂_congr fun r _ => and_congr_left fun _ => not_imp_not
  rw [framesStandard_iff]
  constructor
  · rintro ⟨hright, hforward⟩
    refine ⟨fun p hp => ?_, fun p q hpq hq s s' e e' hs hs' he he' => ?_⟩
    · obtain ⟨b, hb⟩ := hsome p hp
      exact (hrow p b hb).mp (hright p b hb)
    · obtain ⟨b, hb⟩ := hsome p (hpq.trans_lt hq)
      obtain ⟨c, hc⟩ := hsome q hq
      exact (hpair p q b c s s' e e' hb hc (hright p b hb) (hright q c hc) hs hs' he he').mp
        (hforward p q b c hpq hb hc)
  · rintro ⟨hfits, hadvances⟩
    have hright : ∀ p b, bounds[p]? = some b → RowRight lib P (.range start stop) p b :=
      fun p b hb => (hrow p b hb).mpr (hfits p (hrun p b hb).1)
    refine ⟨hright, fun p q b c hpq hb hc => ?_⟩
    obtain ⟨hp, -⟩ := hrun p b hb
    obtain ⟨hq, -⟩ := hrun q c hc
    obtain ⟨_, -, s, e, hs, he, -⟩ := (hfits p hp).1
    obtain ⟨_, -, s', e', hs', he', -⟩ := (hfits q hq).1
    exact (hpair p q b c s s' e e' hb hc (hright p b hb) (hright q c hc) hs hs' he he').mpr
      (hadvances p q hpq hq s s' e e' hs hs' he he')

/-! ## All frames -/

/-- The frames of an accepted clause are the standard ones exactly where they fit. -/
theorem frames_standard_iff {frame : WindowFrame} (hframe : Standard frame)
    (hplan : parseWindowFrame lib frame P.order.length = .ok plan)
    (h : P.frameBounds lib plan = .ok bounds) :
    P.FramesStandard lib plan bounds ↔ P.FramesFit lib plan := by
  have haccepted := parse_accepted hframe hplan
  cases plan with
  | rows start stop =>
    obtain rfl := Except.ok.inj h
    apply counted_iff haccepted monotone_id (fun p q => Iff.rfl)
    · intro g hg
      exact ⟨g, hg.trans_lt (Nat.sub_lt P.n_pos Nat.one_pos), rfl⟩
    · intro p hp hin q
      exact rows_row haccepted hp hin
  | groups start stop =>
    obtain rfl := Except.ok.inj h
    apply counted_iff haccepted P.groupNumber_mono (fun p q => Iff.rfl)
    · intro g hg
      obtain ⟨s, -, hle, hlt, hmem⟩ := span_of_group hg
      exact ⟨s.1, hle.trans_lt hlt, (hmem s.1 (hle.trans_lt hlt)).mp ⟨le_rfl, hle⟩⟩
    · intro p hp hin q
      exact groups_row haccepted hp hin
  | range start stop =>
    obtain ⟨hstart, hstop, hone⟩ := haccepted
    exact range_iff hone hstart hstop h

/-- Two rows with the keys 1 and 2. -/
def twoRows : Partition where
  order := [{}]
  keys := [[.int 1], [.int 2]]
  widths := by decide
  sorted := List.pairwise_pair.mpr (by decide)
  nonempty := List.cons_ne_nil _ _

/-- ROWS from the first row to `stop` rows before the current one. -/
def rowsUpTo (stop : WindowFrameBound) : WindowFrame where
  units := .rows
  startBound := .preceding none
  endBound := some stop

theorem frames_standard_iff_two_rows :
    twoRows.FramesStandard Scalar.sampleLibrary (.rows .unbounded .currentRow)
      [(0, 0), (0, 1)] := by
  have hiff := @frames_standard_iff Scalar.sampleLibrary twoRows (.rows .unbounded .currentRow)
    [(0, 0), (0, 1)] (rowsUpTo .currentRow) ⟨by nofun, by nofun⟩ rfl rfl
  exact hiff.mpr fun p _ => ⟨by nofun, by nofun⟩

/-- `ROWS BETWEEN UNBOUNDED PRECEDING AND 1 PRECEDING` on the first row. -/
theorem first_row_before_partition :
    Standard (rowsUpTo (.preceding (some { const := .ok (.int 1) }))) ∧
      parseWindowFrame Scalar.sampleLibrary
        (rowsUpTo (.preceding (some { const := .ok (.int 1) }))) twoRows.order.length =
          .ok (.rows .unbounded (.preceding 1)) ∧
      twoRows.frameBounds Scalar.sampleLibrary (.rows .unbounded (.preceding 1)) =
        .ok [(0, 0), (0, 0)] ∧
      ¬twoRows.FramesStandard Scalar.sampleLibrary (.rows .unbounded (.preceding 1))
        [(0, 0), (0, 0)] := by
  refine ⟨⟨by nofun, by nofun⟩, rfl, rfl, fun h => ?_⟩
  obtain ⟨-, -, hstop⟩ := (h.rows 0 (0, 0) rfl 0).mp ⟨le_rfl, le_rfl⟩
  simp [endsBy] at hstop

end Partition

end Docsql.Window
