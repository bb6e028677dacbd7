import Docsql.Heap.Replace

/-!
# The heap as a document store

A client keeps the locator of every document it has stored, and applies the
moves that `replace` and `remove_many` report.  In every run the heap holds
exactly the documents of the client's table, under the locators it has.
-/

namespace Docsql.Heap

inductive Op where
  | insert (doc : Doc)
  | replace (loc : ℕ) (doc : Doc)
  | removeMany (locs : List ℕ)

/-- Documents are maps: their keys are sorted. -/
def Op.WF : Op → Prop
  | .insert doc => (Value.object doc).WF
  | .replace _ doc => (Value.object doc).WF
  | .removeMany _ => True

structure Client where
  st : HeapState
  live : List (ℕ × Doc)

section Run

variable (codec : DecimalCodec)

/-- One call.  A call that fails is undone with its transaction. -/
def Client.step (c : Client) : Op → Client
  | .insert doc =>
    match insert codec doc c.st with
    | (.ok loc, st) => { st := st, live := c.live ++ [(loc, doc)] }
    | (.error _, _) => c
  | .replace loc doc =>
    match replace codec loc doc c.st with
    | (.ok out, st) =>
      { st := st, live := relocate [canon loc] out.moved c.live ++ [(out.placed, doc)] }
    | (.error _, _) => c
  | .removeMany locs =>
    match removeMany locs c.st with
    | (.ok moves, st) => { st := st, live := relocate (locs.map canon) moves c.live }
    | (.error _, _) => c

def Client.run (c : Client) (ops : List Op) : Client := ops.foldl (Client.step codec) c

/-- A client of an empty heap. -/
def Client.start (s : Store) : Client := { st := { store := s, heap := {} }, live := [] }

/-- The pages hold the documents of the table, up to their order. -/
def Client.Tracks (c : Client) : Prop :=
  ∃ rep, Rep codec c.st rep ∧ AllLive rep ∧ c.live.Perm (entries rep)

end Run

variable {codec : DecimalCodec} {c : Client} {op : Op}

/-- `insert` stores a document behind all others. -/
theorem insert_spec {st : HeapState} {rep : Layout} {doc : Doc} (h : Rep codec st rep)
    (hwf : (Value.object doc).WF) :
    StateExcept.Ends (insert codec doc) st (¬Storable codec st.store doc)
      fun loc st' => ∃ rep', Added codec rep doc loc st' rep' := by
  cases hencoded : encodeDoc codec doc with
  | error e =>
      have herr : fromExcept (encodeDoc codec doc) st = (.error e, st) := by
        rw [hencoded]
        rfl
      refine .of_error (StateExcept.bind_error herr) ?_
      rintro ⟨bytes, hok, -⟩
      rw [hencoded] at hok
      cases hok
  | ok bytes =>
      have hstart : insert codec doc st = insertBytes bytes st := by
        rw [insert, fromExcept, StateExcept.fromExcept_bind hencoded]
      refine .of_eq _ _ hstart ((insertBytes_spec h hwf hencoded).mono ?_ fun _ _ hpost => hpost)
      rintro hfail ⟨bytes', hok, hroom⟩
      rw [hencoded, Except.ok.injEq] at hok
      rw [← hok] at hroom
      omega

theorem Client.Tracks.start {s : Store} (hs : s.Ok) : (Client.start s).Tracks codec := by
  refine ⟨[], ⟨rfl, hs, ?_, ?_, ?_, ?_⟩, ?_, List.Perm.refl _⟩
  · exact ⟨List.nodup_nil, by simp [Client.start, chains], by simp [Client.start, chains]⟩
  · simp
  · simp
  · simp
  · simp [AllLive]

theorem Client.Tracks.step (h : c.Tracks codec) (hop : op.WF) : (c.step codec op).Tracks codec := by
  obtain ⟨rep, hrep, hlive, hperm⟩ := h
  cases op with
  | insert doc =>
      rw [Client.step]
      split
      · rename_i loc st hrun
        obtain ⟨rep', hadded⟩ := (insert_spec hrep hop).ok hrun
        refine ⟨rep', hadded.rep, hadded.live hlive, ?_⟩
        rw [hadded.entries]
        exact hperm.append_right _
      · exact ⟨rep, hrep, hlive, hperm⟩
  | replace loc doc =>
      rw [Client.step]
      split
      · rename_i out st hrun
        obtain ⟨rep', hrep', hlive', hperm'⟩ := (replace_spec hrep hlive hop).ok hrun
        refine ⟨rep', hrep', hlive', ?_⟩
        exact ((relocate_perm hperm).append_right _).trans hperm'.symm
      · exact ⟨rep, hrep, hlive, hperm⟩
  | removeMany locs =>
      rw [Client.step]
      split
      · rename_i moves st hrun
        obtain ⟨rep', hrep', hlive', hentries⟩ := (removeMany_spec hrep hlive).ok hrun
        refine ⟨rep', hrep', hlive', ?_⟩
        rw [hentries]
        exact relocate_perm hperm
      · exact ⟨rep, hrep, hlive, hperm⟩

theorem Client.Tracks.run (h : c.Tracks codec) {ops : List Op} (hops : ∀ op ∈ ops, op.WF) :
    (c.run codec ops).Tracks codec := by
  induction ops generalizing c with
  | nil => exact h
  | cons op ops ih =>
      rw [Client.run, List.foldl_cons]
      exact ih (h.step (hops op List.mem_cons_self)) fun op' hop' =>
        hops op' (List.mem_cons_of_mem _ hop')

/-! ## What a client sees -/

/-- The heap answers as the client's table says. -/
structure Client.Answers (codec : DecimalCodec) (c : Client) : Prop where
  distinct : (c.live.map Prod.fst).Nodup
  docAt : ∀ e ∈ c.live, docAt codec e.1 c.st = (.ok (some e.2), c.st)
  scan : ∃ docs, scan codec c.st = (.ok docs, c.st) ∧ docs.Perm (c.live.map Prod.snd)
  liveCount : liveCount c.st = (.ok c.live.length, c.st)
  pages : ∀ id ∈ c.st.heap.pages, ∃ page, loadPage id c.st = (.ok page, c.st) ∧
    validatePage page id = .ok ()

/-- Calls that cannot fail: a document that encodes to at most the size limit and
for which there are page ids, locators of live documents. -/
structure Client.Accepts (codec : DecimalCodec) (c : Client) : Prop where
  insert : ∀ doc, (Value.object doc).WF → Storable codec c.st.store doc →
    ∃ loc st, insert codec doc c.st = (.ok loc, st)
  replace : ∀ loc ∈ c.live.map Prod.fst, ∀ doc, (Value.object doc).WF →
    Storable codec c.st.store doc → ∃ out st, replace codec loc doc c.st = (.ok out, st)
  removeMany : ∀ locs, (∀ loc ∈ locs, loc ∈ c.live.map Prod.fst) →
    ∃ moves st, removeMany locs c.st = (.ok moves, st)

theorem Rep.mem_entries {st : HeapState} {rep : Layout} (h : Rep codec st rep) {e : ℕ × Doc}
    (he : e ∈ entries rep) :
    ∃ p ∈ rep, ∃ pre r post, p.2 = pre ++ r :: post ∧ e = (packLoc p.1 pre.length, r.doc) ∧
      canon e.1 = e.1 := by
  obtain ⟨p, hp, he⟩ := List.mem_flatMap.mp he
  obtain ⟨i, hi, rfl⟩ := mem_pageEntries he
  refine ⟨p, hp, p.2.take i, p.2[i], p.2.drop (i + 1), by simp, ?_, ?_⟩
  · rw [List.length_take_of_le hi.le]
  · rw [canon, h.unpack hp hi]

theorem Client.Tracks.answers (h : c.Tracks codec) : c.Answers codec := by
  obtain ⟨rep, hrep, hlive, hperm⟩ := h
  refine ⟨?_, ?_, ?_, ?_, ?_⟩
  · exact (hperm.map Prod.fst).nodup_iff.mpr (entries_nodup hrep)
  · intro e he
    obtain ⟨p, hp, pre, r, post, hsplit, rfl, -⟩ := hrep.mem_entries (hperm.mem_iff.mp he)
    exact hrep.docAt_eq hlive hp hsplit
  · exact ⟨_, hrep.scan_eq hlive, (hperm.map Prod.snd).symm⟩
  · rw [hrep.liveCount_eq, hperm.length_eq]
  · intro id hid
    rw [hrep.pages] at hid
    obtain ⟨p, hp, rfl⟩ := List.mem_map.mp hid
    exact ⟨_, hrep.load hp, hrep.validate hp⟩

theorem Client.Tracks.accepts (h : c.Tracks codec) : c.Accepts codec := by
  obtain ⟨rep, hrep, hlive, hperm⟩ := h
  have hcanon : ∀ loc ∈ c.live.map Prod.fst, canon loc ∈ (entries rep).map Prod.fst := by
    intro loc hloc
    have hmem := (hperm.map Prod.fst).mem_iff.mp hloc
    obtain ⟨e, he, rfl⟩ := List.mem_map.mp hmem
    obtain ⟨-, -, -, -, -, -, -, hsame⟩ := hrep.mem_entries he
    rwa [hsame]
  refine ⟨?_, ?_, ?_⟩
  · intro doc hwf hroom
    obtain ⟨loc, st, hrun, -⟩ := (insert_spec hrep hwf).succeeds (not_not.mpr hroom)
    exact ⟨loc, st, hrun⟩
  · intro loc hloc doc hwf hroom
    obtain ⟨out, st, hrun, -⟩ := (replace_spec hrep hlive hwf).succeeds
      (not_not.mpr ⟨hroom, hcanon loc hloc⟩)
    exact ⟨out, st, hrun⟩
  · intro locs hlocs
    obtain ⟨moves, st, hrun, -⟩ := (removeMany_spec hrep hlive).succeeds
      (fun ⟨loc, hloc, hnot⟩ => hnot (hcanon loc (hlocs loc hloc)))
    exact ⟨moves, st, hrun⟩

/-- In every run on an empty heap the documents are where the client has them,
`scan` returns each once, `live_count` counts them and every page is valid. -/
theorem heap_document_store (codec : DecimalCodec) (s : Store) (hs : s.Ok) (ops : List Op)
    (hops : ∀ op ∈ ops, op.WF) :
    ((Client.start s).run codec ops).Answers codec ∧
      ((Client.start s).run codec ops).Accepts codec :=
  have htracks := (Client.Tracks.start hs).run hops
  ⟨htracks.answers, htracks.accepts⟩

theorem heap_document_store_three_calls :
    let s : Store := { image := fun _ => zeroPage, reusable := [], numPages := 1 }
    let ops : List Op := [.insert [("a", .int 1)], .replace 65536 [("a", .null), ("b", .bool true)],
      .removeMany [65536]]
    s.Ok ∧ (∀ op ∈ ops, op.WF) ∧ ((Client.start s).run rustDecimal ops).Answers rustDecimal ∧
      ((Client.start s).run rustDecimal ops).Accepts rustDecimal := by
  intro s ops
  have hs : s.Ok := ⟨Nat.one_pos, by decide, List.nodup_nil, by simp [s]⟩
  have hone : (Value.object [("a", .int 1)]).WF :=
    ⟨List.pairwise_singleton _ _, trivial, trivial⟩
  have htwo : (Value.object [("a", .null), ("b", .bool true)]).WF := by
    refine ⟨List.pairwise_cons.mpr ⟨?_, List.pairwise_singleton _ _⟩, trivial, trivial, trivial⟩
    intro p hp
    rw [List.mem_singleton] at hp
    rw [hp]
    decide
  have hops : ∀ op ∈ ops, op.WF := by
    intro op hop
    simp only [ops, List.mem_cons, List.not_mem_nil, or_false] at hop
    rcases hop with rfl | rfl | rfl
    · exact hone
    · exact htwo
    · trivial
  exact ⟨hs, hops, heap_document_store rustDecimal s hs ops hops⟩

end Docsql.Heap
