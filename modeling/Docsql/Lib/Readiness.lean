import Mathlib.Data.List.Perm.Basic
import Mathlib.Data.Set.Insert
import Mathlib.Order.WellFounded
import Mathlib.Tactic

/-!
# Orders in which every item is ready

Whether an item can come next depends on what came before it, and more before it never
hurts.  An order that was extended until nothing was ready any more holds every item that
some other order reaches.
-/

namespace Docsql.Lib.Readiness

variable {ι : Type*} {ready : Set ι → ι → Prop} {done done' : Set ι} {items order xs ys : List ι}

/-- Every item is ready at its turn. -/
def InTurn (ready : Set ι → ι → Prop) : Set ι → List ι → Prop
  | _, [] => True
  | done, i :: order => ready done i ∧ InTurn ready (insert i done) order

theorem inTurn_append :
    InTurn ready done (xs ++ ys) ↔
      InTurn ready done xs ∧ InTurn ready (done ∪ {i | i ∈ xs}) ys := by
  induction xs generalizing done with
  | nil => simp [InTurn]
  | cons i xs ih =>
    have hset : insert i done ∪ {j | j ∈ xs} = done ∪ {j | j ∈ i :: xs} := by
      ext j
      simp only [Set.mem_union, Set.mem_insert_iff, Set.mem_ofPred_eq, List.mem_cons]
      tauto
    rw [List.cons_append, InTurn, InTurn, ih, hset, and_assoc]

theorem inTurn_concat {i : ι} :
    InTurn ready done (xs ++ [i]) ↔ InTurn ready done xs ∧ ready (done ∪ {j | j ∈ xs}) i := by
  rw [inTurn_append]
  exact and_congr_right fun _ => and_iff_left trivial

/-- What is ready stays so when more comes before it. -/
def Lasting (ready : Set ι → ι → Prop) : Prop :=
  ∀ ⦃S T : Set ι⦄, S ⊆ T → ∀ i, ready S i → ready T i

theorem InTurn.mono (hmono : Lasting ready) (hle : done ⊆ done')
    (h : InTurn ready done order) : InTurn ready done' order := by
  induction order generalizing done done' with
  | nil => trivial
  | cons i order ih => exact ⟨hmono hle i h.1, ih (Set.insert_subset_insert hle) h.2⟩

theorem inTurn_of_forall (h : ∀ done i, ready done i) : InTurn ready done order := by
  induction order generalizing done with
  | nil => trivial
  | cons i order ih => exact ⟨h done i, ih⟩

/-- All of the order is there in the end. -/
theorem InTurn.ready_of_mem (hmono : Lasting ready) (h : InTurn ready done order) {i : ι}
    (hi : i ∈ order) : ready (done ∪ {j | j ∈ order}) i := by
  obtain ⟨before, after, rfl⟩ := List.append_of_mem hi
  refine hmono ?_ i (inTurn_append.mp h).2.1
  apply Set.union_subset_union_right
  intro j hj
  exact List.mem_append_left _ hj

/-- Nothing more is ready. -/
def Stuck (ready : Set ι → ι → Prop) (items order : List ι) : Prop :=
  ∀ i ∈ items, ready {j | j ∈ order} i → i ∈ order

/-- What a stuck order does not hold, no order reaches. -/
theorem Stuck.subset (h : Stuck ready items order) (hmono : Lasting ready)
    (hdone : done ⊆ {j | j ∈ order}) (hturn : InTurn ready done xs) (hitems : xs ⊆ items) :
    xs ⊆ order := by
  induction xs generalizing done with
  | nil => exact List.nil_subset order
  | cons i xs ih =>
    obtain ⟨hi, hitems⟩ := List.cons_subset.mp hitems
    have hin : i ∈ order := h i hi (hmono hdone i hturn.1)
    apply List.cons_subset.mpr
    exact ⟨hin, ih (Set.insert_subset hin hdone) hturn.2 hitems⟩

/-- Items are reached that stand for what another order holds. -/
theorem Stuck.covers {α : Type*} {ready' : Set α → α → Prop} (f : ι → α) {as : List α}
    {before : Set α} (h : Stuck ready items order) (hmono : Lasting ready)
    (hready : ∀ (S : Set α), (∀ a ∈ S, ∃ j ∈ items, f j = a) → ∀ i ∈ items, ready' S (f i) →
      ready {j | j ∈ items ∧ f j ∈ S} i)
    (hbefore : ∀ a ∈ before, ∃ j ∈ items, f j = a)
    (hdone : ∀ i ∈ items, f i ∈ before → i ∈ order) (hturn : InTurn ready' before as)
    (has : ∀ a ∈ as, ∃ j ∈ items, f j = a) : ∀ i ∈ items, f i ∈ as → i ∈ order := by
  induction as generalizing before with
  | nil =>
    intro i _ hi
    cases hi
  | cons a as ih =>
    have hhead (i : ι) (hi : i ∈ items) (hia : f i = a) : i ∈ order := by
      apply h i hi
      refine hmono ?_ i (hready before hbefore i hi (hia ▸ hturn.1))
      intro j hj
      exact hdone j hj.1 hj.2
    obtain ⟨ha, has⟩ := List.forall_mem_cons.mp has
    have hrest : ∀ i ∈ items, f i ∈ as → i ∈ order := by
      refine ih ?_ ?_ hturn.2 has
      · rintro b (rfl | hb)
        · exact ha
        · exact hbefore b hb
      · rintro i hi (hia | hib)
        · exact hhead i hi hia
        · exact hdone i hi hib
    intro i hi hmem
    rcases List.mem_cons.mp hmem with hia | hmem
    · exact hhead i hi hia
    · exact hrest i hi hmem

/-- What is ready stays so under another name, with more before it. -/
theorem InTurn.map {α : Type*} {ready' : Set α → α → Prop} (f : ι → α) {before : Set α}
    (hready : ∀ i ∈ order, ∀ S, ready S i → ready' (before ∪ f '' S) (f i))
    (h : InTurn ready done order) : InTurn ready' (before ∪ f '' done) (order.map f) := by
  induction order generalizing done with
  | nil => trivial
  | cons i order ih =>
    obtain ⟨hi, hready⟩ := List.forall_mem_cons.mp hready
    refine ⟨hi done h.1, ?_⟩
    have hrest := ih hready h.2
    rwa [Set.image_insert_eq, Set.union_insert] at hrest

/-- An order and the items that are not in it. -/
theorem perm_with_rest [DecidableEq ι] (hitems : items.Nodup) (hnodup : order.Nodup)
    (hsub : order ⊆ items) : (order ++ items.filter fun i => !order.contains i).Perm items := by
  have hdisjoint : order.Disjoint (items.filter fun i => !order.contains i) := by
    intro i hi hrest
    simpa [hi] using (List.mem_filter.mp hrest).2
  apply (List.perm_ext_iff_of_nodup (hnodup.append (hitems.filter _) hdisjoint) hitems).mpr
  intro i
  rw [List.mem_append, List.mem_filter]
  constructor
  · rintro (hi | hi)
    · exact hsub hi
    · exact hi.1
  · intro hi
    by_cases hin : i ∈ order
    · exact .inl hin
    · exact .inr ⟨hi, by simpa using hin⟩

/-- Items in turn until nothing more is ready, and then the others. -/
def Greedy (ready : Set ι → ι → Prop) (items out : List ι) : Prop :=
  out.Perm items ∧ ∃ order rest, out = order ++ rest ∧ InTurn ready ∅ order ∧
    Stuck ready items order

namespace Greedy

variable {out : List ι}

theorem of_inTurn (hperm : out.Perm items) (hturn : InTurn ready ∅ out) :
    Greedy ready items out := by
  refine ⟨hperm, out, [], (List.append_nil out).symm, hturn, fun i hi _ => ?_⟩
  exact hperm.mem_iff.mpr hi

/-- If the stuck order holds all items, nothing was left over. -/
theorem inTurn_of_subset (h : Greedy ready items out) (hnodup : items.Nodup)
    (hall : ∀ order, InTurn ready ∅ order → Stuck ready items order → items ⊆ order) :
    InTurn ready ∅ out := by
  obtain ⟨hperm, order, rest, rfl, hturn, hstuck⟩ := h
  have hnone : rest = [] := by
    apply List.eq_nil_iff_forall_not_mem.mpr
    intro i hi
    have hdisjoint := (List.nodup_append.mp (hperm.nodup_iff.mpr hnodup)).2.2
    have hitem : i ∈ items := hperm.mem_iff.mp (List.mem_append_right order hi)
    exact hdisjoint i (hall order hturn hstuck hitem) i hi rfl
  rwa [hnone, List.append_nil]

/-- A greedy order begins with all that any order takes in turn. -/
theorem foremost (h : Greedy ready items out) (hmono : Lasting ready) :
    ∃ order rest, out = order ++ rest ∧ InTurn ready ∅ order ∧
      ∀ p, p ⊆ items → InTurn ready ∅ p → p ⊆ order := by
  obtain ⟨-, order, rest, hout, hturn, hstuck⟩ := h
  refine ⟨order, rest, hout, hturn, fun p hp hpturn => ?_⟩
  apply hstuck.subset hmono (Set.empty_subset _) hpturn hp

/-- Items that only wait for items below them are all reached. -/
theorem inTurn_of_wellFounded (h : Greedy ready items out) (hnodup : items.Nodup)
    {r : ι → ι → Prop} (hr : WellFounded r)
    (hready : ∀ done, ∀ i ∈ items, (∀ j ∈ items, r j i → j ∈ done) → ready done i) :
    InTurn ready ∅ out := by
  apply h.inTurn_of_subset hnodup
  intro order _ hstuck i
  induction i using hr.induction with
  | _ i ih =>
    intro hi
    apply hstuck i hi
    apply hready _ i hi
    intro j hj hji
    exact ih j hji hj

end Greedy

/-! ## Kahn's walk

An item wants some keys and offers others.  It can come once each key it wants is offered by
itself or by an item that came before.
-/

section Kahn

variable {κ : Type*}

def Provided (offers wants : ι → List κ) (done : Set ι) (i : ι) : Prop :=
  ∀ k ∈ wants i, k ∈ offers i ∨ ∃ j ∈ done, k ∈ offers j

theorem provided_mono {offers wants : ι → List κ} : Lasting (Provided offers wants) := by
  intro done done' hle i h k hk
  refine (h k hk).imp_right ?_
  rintro ⟨j, hj, hoffer⟩
  exact ⟨j, hle hj, hoffer⟩

/-- The items that came, the keys they offer, and the items whose turn it is. -/
structure Kahn (ι κ : Type*) where
  order : List ι := []
  opened : List κ := []
  queue : List ι

variable [DecidableEq κ] (items : List ι) (offers wants : ι → List κ)

def satisfied (opened : List κ) (i : ι) : Bool :=
  (wants i).all fun k => opened.contains k || (offers i).contains k

/-- Those that want `k` from another item, once for each time they want it. -/
def waiters (k : κ) : List ι :=
  items.flatMap fun i =>
    ((wants i).filter fun k' => k' == k && !(offers i).contains k').map fun _ => i

section Keys

variable {items : List ι} {offers wants : ι → List κ}

theorem satisfied_iff {opened : List κ} {i : ι} :
    satisfied offers wants opened i = true ↔ ∀ k ∈ wants i, k ∈ opened ∨ k ∈ offers i := by
  simp [satisfied]

theorem mem_waiters {k : κ} {i : ι} :
    i ∈ waiters items offers wants k ↔ i ∈ items ∧ k ∈ wants i ∧ k ∉ offers i := by
  unfold waiters
  rw [List.mem_flatMap]
  constructor
  · rintro ⟨j, hj, hmem⟩
    obtain ⟨k', hk', rfl⟩ := List.mem_map.mp hmem
    obtain ⟨hwant, hother⟩ := List.mem_filter.mp hk'
    obtain ⟨rfl, hoffer⟩ : k' = k ∧ k' ∉ offers j := by simpa using hother
    exact ⟨hj, hwant, hoffer⟩
  · rintro ⟨hi, hwant, hoffer⟩
    refine ⟨i, hi, List.mem_map.mpr ⟨k, List.mem_filter.mpr ⟨hwant, ?_⟩, rfl⟩⟩
    simpa using hoffer

end Keys

variable [DecidableEq ι]

/-- The waiters that are satisfied now join the queue. -/
def enqueue (order : List ι) (opened : List κ) (ws queue : List ι) : List ι :=
  ws.foldl (fun queue w =>
    if !order.contains w && !queue.contains w && satisfied offers wants opened w then queue ++ [w]
    else queue) queue

/-- A key is offered. -/
def wake (s : Kahn ι κ) (k : κ) : Kahn ι κ :=
  if s.opened.contains k then s
  else
    let opened := s.opened ++ [k]
    { s with
      opened := opened
      queue := enqueue offers wants s.order opened (waiters items offers wants k) s.queue }

/-- The first item of the queue comes. -/
def visit (s : Kahn ι κ) : Kahn ι κ :=
  match s.queue with
  | [] => s
  | i :: queue =>
    if s.order.contains i then { s with queue := queue }
    else (offers i).foldl (wake items offers wants)
      { s with order := s.order ++ [i], queue := queue }

def drain : ℕ → Kahn ι κ → Kahn ι κ
  | 0, s => s
  | n + 1, s => drain n (visit items offers wants s)

/-- An item is queued at most once, so the visits are no more than the items. -/
def kahn : Kahn ι κ :=
  drain items offers wants items.length
    { queue := items.filter fun i => (wants i).all (offers i).contains }

/-- The items of the walk, and then the others in the order they had. -/
def kahnOrder : List ι :=
  let s := kahn items offers wants
  s.order ++ items.filter fun i => !s.order.contains i

variable {items : List ι} {offers wants : ι → List κ}

/-- Each item is in one place at most, those queued can come, and those that can come are
queued. -/
structure Kahn.Inv (items : List ι) (offers wants : ι → List κ) (s : Kahn ι κ) : Prop where
  nodup : (s.order ++ s.queue).Nodup
  known : ∀ i ∈ s.order ++ s.queue, i ∈ items
  queued : ∀ i ∈ s.queue, satisfied offers wants s.opened i = true
  complete : ∀ i ∈ items, satisfied offers wants s.opened i = true → i ∈ s.order ++ s.queue

/-- What `enqueue` makes of a queue. -/
structure Enqueued (offers wants : ι → List κ) (order : List ι) (opened : List κ)
    (ws queue queue' : List ι) : Prop where
  nodup : (order ++ queue).Nodup → (order ++ queue').Nodup
  kept : queue ⊆ queue'
  added : ∀ i ∈ queue', i ∈ queue ∨ i ∈ ws ∧ satisfied offers wants opened i = true
  complete : ∀ w ∈ ws, satisfied offers wants opened w = true → w ∈ order ++ queue'

theorem enqueue_spec (offers wants : ι → List κ) (order : List ι) (opened : List κ)
    (ws queue : List ι) :
    Enqueued offers wants order opened ws queue
      (enqueue offers wants order opened ws queue) := by
  induction ws generalizing queue with
  | nil => exact ⟨id, List.Subset.refl queue, fun i hi => .inl hi, fun w hw => by cases hw⟩
  | cons w ws ih =>
    unfold enqueue
    rw [List.foldl_cons]
    split
    · rename_i hw
      obtain ⟨⟨horder, hqueue⟩, hsat⟩ :
          (w ∉ order ∧ w ∉ queue) ∧ satisfied offers wants opened w = true := by
        simpa using hw
      have h := ih (queue ++ [w])
      have hin : w ∈ queue ++ [w] := List.mem_append_right queue List.mem_cons_self
      refine ⟨fun hnodup => ?_, fun i hi => ?_, fun i hi => ?_, fun v hv hsat' => ?_⟩
      · apply h.nodup
        rw [← List.append_assoc, ← List.concat_eq_append]
        exact hnodup.concat (by simp [horder, hqueue])
      · exact h.kept (List.mem_append_left [w] hi)
      · rcases h.added i hi with hi | ⟨hi, hsat'⟩
        · rcases List.mem_append.mp hi with hi | hi
          · exact .inl hi
          · rw [List.mem_singleton.mp hi]
            exact .inr ⟨List.mem_cons_self, hsat⟩
        · exact .inr ⟨List.mem_cons_of_mem w hi, hsat'⟩
      · rcases List.mem_cons.mp hv with rfl | hv
        · exact List.mem_append_right order (h.kept hin)
        · exact h.complete v hv hsat'
    · rename_i hw
      have h := ih queue
      refine ⟨h.nodup, h.kept, fun i hi => ?_, fun v hv hsat => ?_⟩
      · exact (h.added i hi).imp_right fun hi => ⟨List.mem_cons_of_mem w hi.1, hi.2⟩
      · rcases List.mem_cons.mp hv with rfl | hv
        · by_contra hnone
          apply hw
          have hqueue : v ∉ queue := fun hv => hnone (List.mem_append_right order (h.kept hv))
          have horder : v ∉ order := fun hv => hnone (List.mem_append_left _ hv)
          simp [horder, hqueue, hsat]
        · exact h.complete v hv hsat

/-- Opening one key leaves the order alone. -/
theorem wake_inv {s : Kahn ι κ} (h : s.Inv items offers wants) (k : κ) :
    (wake items offers wants s k).Inv items offers wants ∧
      (wake items offers wants s k).order = s.order ∧
      ∀ k', k' ∈ (wake items offers wants s k).opened ↔ k' ∈ s.opened ∨ k' = k := by
  unfold wake
  split
  · rename_i hk
    have hopen : k ∈ s.opened := by simpa using hk
    refine ⟨h, rfl, fun k' => ⟨.inl, ?_⟩⟩
    rintro (hk' | rfl)
    · exact hk'
    · exact hopen
  · rename_i hk
    have hqueue := enqueue_spec offers wants s.order (s.opened ++ [k])
      (waiters items offers wants k) s.queue
    have hmore {i : ι} (hi : satisfied offers wants s.opened i = true) :
        satisfied offers wants (s.opened ++ [k]) i = true := by
      apply satisfied_iff.mpr
      intro k' hk'
      exact (satisfied_iff.mp hi k' hk').imp_left (List.mem_append_left [k])
    refine ⟨⟨hqueue.nodup h.nodup, fun i hi => ?_, fun i hi => ?_, fun i hi hsat => ?_⟩, rfl,
      fun k' => ?_⟩
    · rcases List.mem_append.mp hi with hi | hi
      · exact h.known i (List.mem_append_left _ hi)
      · rcases hqueue.added i hi with hi | ⟨hi, -⟩
        · exact h.known i (List.mem_append_right _ hi)
        · exact (mem_waiters.mp hi).1
    · rcases hqueue.added i hi with hi | ⟨-, hsat⟩
      · exact hmore (h.queued i hi)
      · exact hsat
    · by_cases hold : satisfied offers wants s.opened i = true
      · rcases List.mem_append.mp (h.complete i hi hold) with hi | hi
        · exact List.mem_append_left _ hi
        · exact List.mem_append_right _ (hqueue.kept hi)
      · -- What was missing is the key itself, so the item waits for it.
        have hmissing : ∃ k' ∈ wants i, k' ∉ s.opened ∧ k' ∉ offers i := by
          by_contra hnone
          apply hold
          apply satisfied_iff.mpr
          intro k' hk'
          by_contra hneither
          rw [not_or] at hneither
          exact hnone ⟨k', hk', hneither⟩
        obtain ⟨k', hwant, hclosed, hoffer⟩ := hmissing
        have hk' : k' = k := by
          rcases satisfied_iff.mp hsat k' hwant with hopen | hown
          · rcases List.mem_append.mp hopen with hopen | hopen
            · exact absurd hopen hclosed
            · exact List.mem_singleton.mp hopen
          · exact absurd hown hoffer
        rw [hk'] at hwant hoffer
        exact hqueue.complete i (mem_waiters.mpr ⟨hi, hwant, hoffer⟩) hsat
    · rw [List.mem_append, List.mem_singleton]

theorem wakeAll_inv {s : Kahn ι κ} (h : s.Inv items offers wants) (ks : List κ) :
    (ks.foldl (wake items offers wants) s).Inv items offers wants ∧
      (ks.foldl (wake items offers wants) s).order = s.order ∧
      ∀ k, k ∈ (ks.foldl (wake items offers wants) s).opened ↔ k ∈ s.opened ∨ k ∈ ks := by
  induction ks generalizing s with
  | nil => exact ⟨h, rfl, fun k => by simp⟩
  | cons k ks ih =>
    obtain ⟨hinv, horder, hopened⟩ := wake_inv h k
    obtain ⟨hinv', horder', hopened'⟩ := ih hinv
    refine ⟨hinv', horder'.trans horder, fun k' => ?_⟩
    rw [List.foldl_cons, hopened', hopened, List.mem_cons, or_assoc]

/-- Between visits the keys that are open are those offered so far. -/
structure Kahn.Settled (items : List ι) (offers wants : ι → List κ) (s : Kahn ι κ) : Prop
    extends Kahn.Inv items offers wants s where
  opened : ∀ k, k ∈ s.opened ↔ ∃ j ∈ s.order, k ∈ offers j
  turn : InTurn (Provided offers wants) ∅ s.order

omit [DecidableEq ι] in
theorem Kahn.Settled.satisfied_iff {s : Kahn ι κ} (h : s.Settled items offers wants) {i : ι} :
    satisfied offers wants s.opened i = true ↔ Provided offers wants {j | j ∈ s.order} i := by
  rw [Readiness.satisfied_iff]
  refine forall_congr' fun k => imp_congr_right fun _ => ?_
  rw [h.opened k, or_comm]
  exact Iff.rfl

theorem visit_settled {s : Kahn ι κ} (h : s.Settled items offers wants) {i : ι} {queue : List ι}
    (hqueue : s.queue = i :: queue) :
    (visit items offers wants s).Settled items offers wants ∧
      (visit items offers wants s).order = s.order ++ [i] := by
  have hnodup := h.nodup
  rw [hqueue] at hnodup
  have hnew : i ∉ s.order := fun hi =>
    (List.nodup_append.mp hnodup).2.2 i hi i List.mem_cons_self rfl
  have hmoved : s.order ++ s.queue = s.order ++ [i] ++ queue := by
    rw [hqueue, List.append_assoc, List.singleton_append]
  have hinv : Kahn.Inv items offers wants { s with order := s.order ++ [i], queue := queue } := by
    refine ⟨hmoved ▸ h.nodup, hmoved ▸ h.known, fun j hj => ?_, fun j hj hsat => ?_⟩
    · exact h.queued j (hqueue ▸ List.mem_cons_of_mem i hj)
    · exact hmoved ▸ h.complete j hj hsat
  obtain ⟨hinv', horder, hopened⟩ := wakeAll_inv hinv (offers i)
  have hvisit : visit items offers wants s = (offers i).foldl (wake items offers wants)
      { s with order := s.order ++ [i], queue := queue } := by
    unfold visit
    rw [hqueue]
    simp [hnew]
  rw [hvisit]
  refine ⟨⟨hinv', fun k => ?_, ?_⟩, horder⟩
  · rw [hopened, horder]
    show k ∈ s.opened ∨ k ∈ offers i ↔ ∃ j ∈ s.order ++ [i], k ∈ offers j
    rw [h.opened k]
    simp only [List.mem_append, List.mem_singleton, or_and_right, exists_or, exists_eq_left]
  · rw [horder]
    apply inTurn_concat.mpr
    rw [Set.empty_union]
    exact ⟨h.turn, h.satisfied_iff.mp (h.queued i (hqueue ▸ List.mem_cons_self))⟩

theorem drain_settled {n : ℕ} {s : Kahn ι κ} (h : s.Settled items offers wants)
    (hn : items.length ≤ n + s.order.length) :
    (drain items offers wants n s).Settled items offers wants ∧
      (drain items offers wants n s).queue = [] := by
  induction n generalizing s with
  | zero =>
    refine ⟨h, ?_⟩
    -- All items came, and none of them is queued as well.
    have hsub := List.subperm_of_subset h.nodup h.known
    have hle := hsub.length_le
    rw [List.length_append] at hle
    exact List.length_eq_zero_iff.mp (by simp only [drain]; omega)
  | succ n ih =>
    rw [drain]
    cases hqueue : s.queue with
    | nil =>
      have hvisit : visit items offers wants s = s := by
        unfold visit
        rw [hqueue]
      have hdrain (m : ℕ) : drain items offers wants m s = s := by
        induction m with
        | zero => rfl
        | succ m ihm => rw [drain, hvisit, ihm]
      rw [hvisit, hdrain]
      exact ⟨h, hqueue⟩
    | cons i queue =>
      obtain ⟨hsettled, horder⟩ := visit_settled h hqueue
      apply ih hsettled
      rw [horder, List.length_append, List.length_singleton]
      omega

theorem kahn_settled (offers wants : ι → List κ) (hnodup : items.Nodup) :
    (kahn items offers wants).Settled items offers wants ∧
      (kahn items offers wants).queue = [] := by
  have hown {i : ι} : satisfied offers wants ([] : List κ) i = true ↔
      (wants i).all (offers i).contains = true := by
    simp [satisfied]
  apply drain_settled
  · refine ⟨⟨?_, fun i hi => ?_, fun i hi => ?_, fun i hi hsat => ?_⟩, fun k => ?_, trivial⟩
    · exact hnodup.filter _
    · exact (List.mem_filter.mp hi).1
    · exact hown.mpr (List.mem_filter.mp hi).2
    · exact List.mem_filter.mpr ⟨hi, hown.mp hsat⟩
    · simp
  · exact le_self_add

theorem kahnOrder_greedy (offers wants : ι → List κ) (hnodup : items.Nodup) :
    Greedy (Provided offers wants) items (kahnOrder items offers wants) := by
  obtain ⟨h, hempty⟩ := kahn_settled offers wants hnodup
  have horder := h.nodup
  have hknown := h.known
  have hcomplete := h.complete
  rw [hempty, List.append_nil] at horder hknown hcomplete
  refine ⟨perm_with_rest hnodup horder hknown, _, _, rfl, h.turn, fun i hi hready => ?_⟩
  exact hcomplete i hi (h.satisfied_iff.mpr hready)

end Kahn

end Docsql.Lib.Readiness
