import Docsql.Cluster.CatchupFrames
import Docsql.Cluster.Journal
import Mathlib.Data.List.TakeWhile

/-!
# A catch-up pull

The origin serves the journal after a position in batches, while it goes on writing and
trimming between them.  The head is sampled once, before the first batch; the requester takes
it as its position when the stream ends.
-/

namespace Docsql.Cluster

open CatchupFrames

def syncChunkBytes : ℕ := 4 * 1024 * 1024
def recvCap : ℕ := 64 * 1024 * 1024
def journalRangeMaxBytes : ℕ := 8 * 1024 * 1024
def journalMaxBytes : ℕ := 512 * 1024 * 1024

/-! ## The journal at the origin -/

namespace Journal

variable (j : Journal)

def rangeLoop : ℕ → List CatchupEntry → List JournalEntry → Except String (List CatchupEntry)
  | _, out, [] => .ok out
  | bytes, out, e :: rest =>
    -- a number beyond `i64` is read as a decimal
    if 2 ^ 63 ≤ e.seq then .error "journal row has unexpected shape"
    else
      let bytes := bytes + (asBytes e.sql).length
      if out ≠ [] ∧ journalRangeMaxBytes < bytes then .ok out
      else rangeLoop bytes (out ++ [(e.seq, e.sql)]) rest

def journalRange (after limit : ℕ) : Except String (List CatchupEntry) :=
  rangeLoop 0 [] ((j.inOrder.filter fun e => after < e.seq).take limit)

/-- A local write: its entry, and on every 512th the two trims. -/
def journalAppendTrimmed (sql : String) (now : ℤ) (ok : Bool) (catchupWindow : ℕ)
    (trimOk bytesOk : Bool) : Journal :=
  match j.journalAppend sql now ok with
  | (none, j) => j
  | (some seq, j) =>
    if seq % 512 = 0 then
      (if 0 < catchupWindow then j.journalTrim catchupWindow trimOk else j).journalTrimBytes
        journalMaxBytes bytesOk
    else j

end Journal

/-! ## The origin's side -/

inductive PullFrame where
  | catchup (payload : List UInt8)
  | affected (payload : List UInt8)
  | error (msg : String)

/-- The variables of the serving loop. -/
structure Serving where
  head : ℕ
  after : ℕ
  expected : ℕ
  lastServed : ℕ

def satAdd (a b : ℕ) : ℕ := min (a + b) (2 ^ 64 - 1)

/-- The first number that is not the expected one. -/
def holeAt (expected : ℕ) (served : List CatchupEntry) : Option ℕ :=
  (served.zipIdx.find? fun p => p.1.1 ≠ satAdd expected p.2).map fun p => p.1.1

def tooLarge (e : CatchupEntry) : String :=
  let len := (asBytes e.2).length
  s!"catchup: journal entry at seq {e.1} is too large ({len} bytes) " ++
    "for one frame; snapshot repair required"

/-- The frames of one batch, up to an entry that fits no frame. -/
def sendEntries (entries : List CatchupEntry) : List PullFrame × Bool :=
  match _h : entries with
  | [] => ([], true)
  | e :: _ =>
    if (asBytes e.2).length + 12 > recvCap then ([.error (tooLarge e)], false)
    else
      let frame := packCatchupEntries entries syncChunkBytes
      let (frames, ok) := sendEntries (entries.drop frame.2)
      (.catchup frame.1 :: frames, ok)
termination_by entries.length
decreasing_by
  subst _h
  exact drop_packed_lt (List.cons_ne_nil _ _)

namespace Serving

variable (s : Serving)

def finish : List PullFrame :=
  if s.lastServed ≠ s.head then
    [.error (s!"catchup: journal ends at {s.lastServed} but head is {s.head} " ++
      "(trimmed mid-pull); snapshot repair required")]
  else [.affected (Bytes.toLE 8 s.head)]

/-- One round of the loop: the frames, and the loop's variables when it goes on. -/
def round (batch : List CatchupEntry) : List PullFrame × Option Serving :=
  let served := batch.takeWhile fun e => e.1 ≤ s.head
  match served.getLast? with
  | none => (s.finish, none)
  | some last =>
    match holeAt s.expected served with
    | some seq =>
      ([.error (s!"catchup: journal hole before seq {seq} " ++
        "(entry trimmed or lost); snapshot repair required")], none)
    | none =>
      match sendEntries served with
      | (frames, false) => (frames, none)
      | (frames, true) =>
        let s := { s with expected := last.1 + 1, lastServed := last.1 }
        if served.length < batch.length then (frames ++ s.finish, none)
        else (frames, some { s with after := last.1 })

end Serving

/-- What has been sent, and the loop while it is running. -/
structure Origin where
  journal : Journal
  serving : Option Serving
  sent : List PullFrame := []

inductive OriginEvent where
  | write (sql : String) (now : ℤ) (ok : Bool) (catchupWindow : ℕ) (trimOk bytesOk : Bool)
  | trim (keep : ℕ) (ok : Bool)
  /-- The next batch, unless the read fails. -/
  | batch (fault : Option String)

namespace Origin

/-- `handle_catchup` up to its loop. -/
def handleCatchup (journal : Journal) (payload : List UInt8) (headOk : Bool) : Origin :=
  if payload.length = 8 then
    let after := Bytes.ofLE payload
    let head := if headOk then journal.journalHead else 0
    { journal, serving := some ⟨head, after, satAdd after 1, after⟩ }
  else { journal, serving := none, sent := [.error "malformed REQ_CATCHUP payload"] }

def step (o : Origin) : OriginEvent → Origin
  | .write sql now ok catchupWindow trimOk bytesOk =>
    { o with journal := o.journal.journalAppendTrimmed sql now ok catchupWindow trimOk bytesOk }
  | .trim keep ok => { o with journal := o.journal.journalTrim keep ok }
  | .batch fault =>
    match o.serving with
    | none => o
    | some s =>
      match fault.elim (o.journal.journalRange s.after 512) .error with
      | .ok batch =>
        let (frames, serving) := s.round batch
        { o with serving, sent := o.sent ++ frames }
      | .error msg =>
        { o with serving := none, sent := o.sent ++ [.error s!"catchup read: {msg}"] }

end Origin

/-! ## The requester's side -/

/-- The entries of one frame in order, up to one that fails.  `exec` answers for a statement
after the ones before it. -/
def replay (exec : List String → String → Option String) :
    List String → List CatchupEntry → Except String Unit × List String
  | done, [] => (.ok (), done)
  | done, e :: rest =>
    match exec done e.2 with
    | some msg => (.error s!"catch-up replay failed: {msg}", done ++ [e.2])
    | none => replay exec (done ++ [e.2]) rest

/-- Frames that do not come are a timeout. -/
def pullLoop (peer : String) (exec : List String → String → Option String) :
    List String → List PullFrame → Except String ℕ × List String
  | done, [] => (.error "deadline has elapsed", done)
  | done, .catchup payload :: rest =>
    match decodeCatchupEntries payload with
    | .error msg => (.error msg, done)
    | .ok entries =>
      match replay exec done entries with
      | (.error msg, done) => (.error msg, done)
      | (.ok (), done) => pullLoop peer exec done rest
  | done, .affected payload :: _ =>
    if payload.length = 8 then (.ok (Bytes.ofLE payload), done)
    else (.error s!"{peer}: unexpected frame 0x0102 during catch-up", done)
  | done, .error msg :: _ => (.error s!"{peer} rejected catch-up: {msg}", done)

/-- The result and the statements executed, over the frames that arrive. -/
def catchUpFrom (peer : String) (exec : List String → String → Option String)
    (frames : List PullFrame) : Except String ℕ × List String :=
  pullLoop peer exec [] frames

/-! ## Numbers of the journal -/

namespace Journal

variable {j j' : Journal} {e : JournalEntry} {head : ℕ}

/-- The numbers are a key, and the cached next one is above them. -/
structure WellNumbered (j : Journal) : Prop where
  nodup : (j.entries.map JournalEntry.seq).Nodup
  cached : ∀ n, j.journalNext = some n → 0 < n ∧ ∀ e ∈ j.entries, e.seq < n

theorem WellNumbered.eq_of_seq {d e : JournalEntry} (hj : j.WellNumbered) (hd : d ∈ j.entries)
    (he : e ∈ j.entries) (h : d.seq = e.seq) : d = e :=
  List.inj_on_of_nodup_map hj.nodup hd he h

theorem le_journalHead (he : e ∈ j.entries) : e.seq ≤ j.journalHead := by
  unfold journalHead
  cases hmax : (j.entries.map JournalEntry.seq).max? with
  | none =>
    rw [List.max?_eq_none_iff, List.map_eq_nil_iff] at hmax
    rw [hmax] at he
    cases he
  | some n => exact (List.max?_eq_some_iff.mp hmax).2 _ (List.mem_map_of_mem he)

theorem exists_journalHead (h : 0 < j.journalHead) : ∃ e ∈ j.entries, e.seq = j.journalHead := by
  unfold journalHead at h ⊢
  cases hmax : (j.entries.map JournalEntry.seq).max? with
  | none => simp [hmax] at h
  | some n => exact List.mem_map.mp (List.max?_eq_some_iff.mp hmax).1

theorem lt_nextSeq (hj : j.WellNumbered) (he : e ∈ j.entries) : e.seq < j.nextSeq := by
  unfold nextSeq
  split
  · rename_i n hnext
    exact (hj.cached n hnext).2 e he
  · exact Nat.lt_succ_of_le (le_journalHead he)

theorem nextSeq_pos (hj : j.WellNumbered) : 0 < j.nextSeq := by
  unfold nextSeq
  split
  · rename_i n hnext
    exact (hj.cached n hnext).1
  · exact Nat.succ_pos _

/-- The head is below the next number, so it is also in a journal read later. -/
theorem journalHead_lt_nextSeq (hj : j.WellNumbered) : j.journalHead < j.nextSeq := by
  by_cases hzero : j.journalHead = 0
  · rw [hzero]
    exact nextSeq_pos hj
  · obtain ⟨e, he, heq⟩ := exists_journalHead (Nat.pos_of_ne_zero hzero)
    rw [← heq]
    exact lt_nextSeq hj he

theorem journalAppend_cases (j : Journal) (sql : String) (now : ℤ) (ok : Bool) :
    j.journalAppend sql now ok = (none, j) ∨
      (j.Accepts j.nextSeq ∧ j.journalAppend sql now ok = (some j.nextSeq, {
        entries := j.entries ++ [⟨j.nextSeq, sql, now⟩]
        journalNext := some (j.nextSeq + 1)
        journalBytes := j.journalBytes.map (· + (sql.utf8ByteSize + 64)) })) := by
  unfold journalAppend
  dsimp only
  split_ifs with h
  · exact .inr ⟨h.2, rfl⟩
  · exact .inl rfl

theorem journalTrim_cases (j : Journal) (keep : ℕ) (ok : Bool) :
    j.journalTrim keep ok = j ∨ (0 < keep ∧ keep < j.journalHead ∧
      j.journalTrim keep ok = { j with
        entries := j.deleteUpTo (j.journalHead - keep) ok, journalBytes := none }) := by
  unfold journalTrim
  dsimp only
  split_ifs with hzero hle
  · exact .inl rfl
  · exact .inl rfl
  · exact .inr ⟨Nat.pos_of_ne_zero hzero, not_le.mp hle, rfl⟩

/-- Only the entries and the cached total change. -/
theorem journalTrimBytes_cases (j : Journal) (maxBytes : ℕ) (ok : Bool) :
    List.Sublist (j.journalTrimBytes maxBytes ok).entries j.entries ∧
      (j.journalTrimBytes maxBytes ok).journalNext = j.journalNext := by
  unfold journalTrimBytes
  dsimp only
  split_ifs
  · exact ⟨List.Sublist.refl _, rfl⟩
  · exact ⟨deleteUpTo_sublist j _ ok, rfl⟩
  · exact ⟨List.Sublist.refl _, rfl⟩

theorem WellNumbered.sublist (hj : j.WellNumbered) (hsub : List.Sublist j'.entries j.entries)
    (hnext : j'.journalNext = j.journalNext) : j'.WellNumbered :=
  ⟨hj.nodup.sublist (hsub.map _), fun n hn =>
    ⟨(hj.cached n (hnext ▸ hn)).1, fun e he => (hj.cached n (hnext ▸ hn)).2 e (hsub.subset he)⟩⟩

theorem WellNumbered.append (hj : j.WellNumbered) (sql : String) (now : ℤ) (ok : Bool) :
    (j.journalAppend sql now ok).2.WellNumbered := by
  rcases journalAppend_cases j sql now ok with heq | ⟨hfresh, heq⟩
  · rwa [heq]
  · rw [heq]
    constructor
    · rw [List.map_append, List.map_singleton]
      refine List.nodup_append.mpr ⟨hj.nodup, List.nodup_singleton _, ?_⟩
      intro q hq n hn hqn
      obtain ⟨e, he, rfl⟩ := List.mem_map.mp hq
      exact hfresh e he (hqn.trans (List.mem_singleton.mp hn))
    · intro n hn
      rw [← Option.some.inj hn]
      refine ⟨Nat.succ_pos _, fun e he => ?_⟩
      rcases List.mem_append.mp he with he | he
      · exact Nat.lt_succ_of_lt (lt_nextSeq hj he)
      · rw [List.mem_singleton.mp he]
        exact Nat.lt_succ_self _

theorem WellNumbered.trim (hj : j.WellNumbered) (keep : ℕ) (ok : Bool) :
    (j.journalTrim keep ok).WellNumbered := by
  rcases journalTrim_cases j keep ok with heq | ⟨-, -, heq⟩
  · rwa [heq]
  · rw [heq]
    exact hj.sublist (deleteUpTo_sublist j _ ok) rfl

theorem WellNumbered.trimBytes (hj : j.WellNumbered) (maxBytes : ℕ) (ok : Bool) :
    (j.journalTrimBytes maxBytes ok).WellNumbered :=
  hj.sublist (journalTrimBytes_cases j maxBytes ok).1 (journalTrimBytes_cases j maxBytes ok).2

theorem WellNumbered.voidAll (hj : j.WellNumbered) (ok : Bool) :
    (j.journalVoidAll ok).WellNumbered := by
  cases ok with
  | false => exact ⟨hj.nodup, hj.cached⟩
  | true =>
    constructor
    · rw [journalVoidAll, if_pos rfl, List.map_map]
      exact hj.nodup
    · intro n hn
      refine ⟨(hj.cached n hn).1, fun e he => ?_⟩
      obtain ⟨d, hd, rfl⟩ := List.mem_map.mp he
      exact (hj.cached n hn).2 d hd

end Journal

theorem JournalRun.wellNumbered (ops : List Journal.Op) :
    (JournalRun.run ops).journal.WellNumbered := by
  unfold JournalRun.run
  induction ops using List.reverseRecOn with
  | nil => exact ⟨List.nodup_nil, fun n hn => nomatch hn⟩
  | append_singleton ops op ih =>
    rw [List.foldl_append]
    cases op with
    | append sql now ok => exact ih.append sql now ok
    | trim keep ok => exact ih.trim keep ok
    | trimBytes maxBytes ok => exact ih.trimBytes maxBytes ok
    | voidAll ok => exact ih.voidAll ok
    | reopen => exact ⟨ih.nodup, fun n hn => nomatch hn⟩

/-! ## The journal while it is served -/

/-- Since the head was sampled: what is still there up to the head was there, and new numbers
lie above it. -/
structure Later (start : Journal) (head : ℕ) (j : Journal) : Prop where
  below : ∀ e ∈ j.entries, e.seq ≤ head → e ∈ start.entries
  next : head < j.nextSeq

namespace Later

open Journal

variable {start j : Journal} {head : ℕ}

theorem append (h : Later start head j) (sql : String) (now : ℤ) (ok : Bool) :
    Later start head (j.journalAppend sql now ok).2 := by
  rcases journalAppend_cases j sql now ok with heq | ⟨-, heq⟩
  · rwa [heq]
  · rw [heq]
    refine ⟨fun e he hle => ?_, Nat.lt_succ_of_lt h.next⟩
    rcases List.mem_append.mp he with he | he
    · exact h.below e he hle
    · rw [List.mem_singleton.mp he] at hle
      exact absurd h.next (not_lt.mpr hle)

/-- The newest entry stays, so the next number does. -/
theorem trim (h : Later start head j) (keep : ℕ) (ok : Bool) :
    Later start head (j.journalTrim keep ok) := by
  rcases journalTrim_cases j keep ok with heq | ⟨hpos, hlt, heq⟩
  · rwa [heq]
  · rw [heq]
    refine ⟨fun e he => h.below e ((deleteUpTo_sublist j _ ok).subset he), h.next.trans_le ?_⟩
    unfold nextSeq
    cases j.journalNext with
    | some n => exact le_rfl
    | none =>
      obtain ⟨e, he, hhead⟩ := exists_journalHead (Nat.lt_of_le_of_lt (Nat.zero_le _) hlt)
      have hkept : e ∈ j.deleteUpTo (j.journalHead - keep) ok := by
        unfold deleteUpTo
        split_ifs
        · refine List.mem_filter.mpr ⟨he, decide_eq_true ?_⟩
          omega
        · exact he
      have hle := @le_journalHead { j with
        entries := j.deleteUpTo (j.journalHead - keep) ok, journalBytes := none } e hkept
      exact Nat.succ_le_succ (hhead ▸ hle)

/-- A trim by size may empty the table; the next number is then in memory. -/
theorem trimBytes (h : Later start head j) (hcached : j.journalNext ≠ none) (maxBytes : ℕ)
    (ok : Bool) : Later start head (j.journalTrimBytes maxBytes ok) := by
  obtain ⟨hsub, hnext⟩ := journalTrimBytes_cases j maxBytes ok
  refine ⟨fun e he => h.below e (hsub.subset he), ?_⟩
  have hsame : (j.journalTrimBytes maxBytes ok).nextSeq = j.nextSeq := by
    unfold nextSeq
    rw [hnext]
    cases hn : j.journalNext with
    | none => exact absurd hn hcached
    | some n => rfl
  rw [hsame]
  exact h.next

theorem write (h : Later start head j) (sql : String) (now : ℤ) (ok : Bool) (catchupWindow : ℕ)
    (trimOk bytesOk : Bool) :
    Later start head (j.journalAppendTrimmed sql now ok catchupWindow trimOk bytesOk) := by
  have happend := h.append sql now ok
  unfold journalAppendTrimmed
  rcases journalAppend_cases j sql now ok with heq | ⟨-, heq⟩
  · rwa [heq]
  · rw [heq] at happend ⊢
    dsimp only at happend ⊢
    split_ifs
    · refine (happend.trim catchupWindow trimOk).trimBytes ?_ _ bytesOk
      rcases journalTrim_cases _ catchupWindow trimOk with heq | ⟨-, -, heq⟩ <;>
        (rw [heq]; exact Option.some_ne_none _)
    · exact happend.trimBytes (Option.some_ne_none _) _ bytesOk
    · exact happend

end Later

/-! ## What the frames carry -/

/-- Frames of entries only, and their entries. -/
inductive Carries : List PullFrame → List CatchupEntry → Prop where
  | nil : Carries [] []
  | cons {payload : List UInt8} {part : List CatchupEntry} {frames : List PullFrame}
      {entries : List CatchupEntry} (hpart : decodeCatchupEntries payload = .ok part)
      (hrest : Carries frames entries) : Carries (.catchup payload :: frames) (part ++ entries)

/-- No frame ends the pull well. -/
def Silent (frames : List PullFrame) : Prop := ∀ payload, PullFrame.affected payload ∉ frames

theorem Carries.append {frames frames' : List PullFrame} {entries entries' : List CatchupEntry}
    (h : Carries frames entries) (h' : Carries frames' entries') :
    Carries (frames ++ frames') (entries ++ entries') := by
  induction h with
  | nil => exact h'
  | cons hpart _ ih =>
    rw [List.append_assoc]
    exact .cons hpart ih

theorem Carries.silent {frames : List PullFrame} {entries : List CatchupEntry}
    (h : Carries frames entries) : Silent frames := by
  induction h with
  | nil => exact fun _ => List.not_mem_nil
  | cons _ _ ih =>
    intro payload hmem
    rcases List.mem_cons.mp hmem with heq | hmem
    · cases heq
    · exact ih payload hmem

theorem Silent.append {frames frames' : List PullFrame} (h : Silent frames)
    (h' : Silent frames') : Silent (frames ++ frames') := by
  intro payload hmem
  rcases List.mem_append.mp hmem with hmem | hmem
  · exact h payload hmem
  · exact h' payload hmem

theorem silent_error (msg : String) : Silent [.error msg] := by
  intro payload hmem
  cases List.mem_singleton.mp hmem

theorem sendEntries_cons (e : CatchupEntry) (rest : List CatchupEntry) :
    sendEntries (e :: rest) =
      if (asBytes e.2).length + 12 > recvCap then ([.error (tooLarge e)], false)
      else
        let frame := packCatchupEntries (e :: rest) syncChunkBytes
        let later := sendEntries ((e :: rest).drop frame.2)
        (.catchup frame.1 :: later.1, later.2) := by
  rw [sendEntries]

theorem sendEntries_silent (entries : List CatchupEntry) : Silent (sendEntries entries).1 := by
  induction hlen : entries.length using Nat.strong_induction_on generalizing entries with
  | _ n ih =>
    cases entries with
    | nil =>
      rw [sendEntries]
      exact fun _ => List.not_mem_nil
    | cons e rest =>
      rw [sendEntries_cons]
      split_ifs
      · exact silent_error _
      · have hless := @drop_packed_lt syncChunkBytes _ (List.cons_ne_nil e rest)
        have hrest := ih _ (hlen ▸ hless) _ rfl
        intro payload hmem
        rcases List.mem_cons.mp hmem with heq | hmem
        · cases heq
        · exact hrest payload hmem

/-- Whatever fits the frames arrives; a text in a frame is not longer than the frame. -/
theorem sendEntries_carries {entries : List CatchupEntry} (hall : (sendEntries entries).2 = true)
    (hseq : ∀ e ∈ entries, e.1 < 2 ^ 64) : Carries (sendEntries entries).1 entries := by
  induction hlen : entries.length using Nat.strong_induction_on generalizing entries with
  | _ n ih =>
    cases entries with
    | nil =>
      rw [sendEntries]
      exact .nil
    | cons e rest =>
      rw [sendEntries_cons] at hall ⊢
      split_ifs at hall ⊢ with hlarge
      have hless := @drop_packed_lt syncChunkBytes _ (List.cons_ne_nil e rest)
      have hrest := ih _ (hlen ▸ hless) hall
        (fun d hd => hseq d (List.mem_of_mem_drop hd)) rfl
      have hfits : ∀ d ∈ (e :: rest).take (packCatchupEntries (e :: rest) syncChunkBytes).2,
          Fits d := by
        intro d hd
        refine ⟨hseq d (List.mem_of_mem_take hd), ?_⟩
        rcases entryLen_le_of_packed e hd with rfl | hsmall
        · unfold recvCap at hlarge
          omega
        · unfold entryLen syncChunkBytes at hsmall
          omega
      have hcarry := Carries.cons (decode_pack hfits) hrest
      rwa [List.take_append_drop] at hcarry

/-! ## One batch -/

/-- The entries right after a number, without a gap, as the journal has them. -/
structure Pulled (start : Journal) (after : ℕ) (entries : List CatchupEntry) : Prop where
  numbers : entries.map Prod.fst = List.range' (after + 1) entries.length
  texts : ∀ e ∈ entries, ∃ d ∈ start.entries, e = (d.seq, d.sql)

theorem Pulled.append {start : Journal} {after : ℕ} {entries entries' : List CatchupEntry}
    (h : Pulled start after entries) (h' : Pulled start (after + entries.length) entries') :
    Pulled start after (entries ++ entries') := by
  constructor
  · rw [List.map_append, h.numbers, h'.numbers, List.length_append, ← List.range'_append_1,
      Nat.add_right_comm]
  · intro e he
    rcases List.mem_append.mp he with he | he
    · exact h.texts e he
    · exact h'.texts e he

theorem Pulled.last {start : Journal} {after : ℕ} {entries : List CatchupEntry}
    (h : Pulled start after entries) {e : CatchupEntry} (he : entries.getLast? = some e) :
    e.1 = after + entries.length := by
  have hlast := congrArg List.getLast? h.numbers
  rw [List.getLast?_map, he, List.getLast?_range'] at hlast
  split_ifs at hlast with hzero
  · cases hlast
  · have hnumber : e.1 = after + 1 + entries.length - 1 := by simpa using hlast
    omega

/-- Without a hole every number is the expected one. -/
theorem numbers_of_holeAt {expected : ℕ} {served : List CatchupEntry}
    (h : holeAt expected served = none) (i : ℕ) (hi : i < served.length) :
    served[i].1 = satAdd expected i := by
  unfold holeAt at h
  rw [Option.map_eq_none_iff, List.find?_eq_none] at h
  have hmem : (served[i], i) ∈ served.zipIdx := by
    rw [List.mem_zipIdx_iff_getElem?]
    exact List.getElem?_eq_getElem hi
  simpa using h _ hmem

namespace Serving

variable {s : Serving} {start : Journal} {after : ℕ}

/-- Where the loop stands after these entries. -/
structure At (s : Serving) (head last : ℕ) : Prop where
  head : s.head = head
  lastServed : s.lastServed = last
  expected : s.expected = satAdd last 1
  small : last < 2 ^ 64

/-- How a pull ends: in an error, or at the head. -/
def Ends (start : Journal) (after head : ℕ) (frames : List PullFrame) : Prop :=
  Silent frames ∨ ∃ sent entries, frames = sent ++ [.affected (Bytes.toLE 8 head)] ∧
    Carries sent entries ∧ Pulled start after entries ∧ after + entries.length = head ∧
    head < 2 ^ 64

theorem ends_finish {entries : List CatchupEntry} {frames : List PullFrame}
    (hcarry : Carries frames entries) (hpulled : Pulled start after entries)
    (hlast : s.lastServed = after + entries.length) (hsmall : s.lastServed < 2 ^ 64) :
    Ends start after s.head (frames ++ s.finish) := by
  unfold finish
  split_ifs with hne
  · exact .inl (hcarry.silent.append (silent_error _))
  · have hhead := not_not.mp hne
    exact .inr ⟨frames, entries, rfl, hcarry, hpulled, hlast.symm.trans hhead, hhead ▸ hsmall⟩

/-- The batch's part up to the head, when it has no hole. -/
theorem pulled_served {served : List CatchupEntry} (hat : s.expected = satAdd s.lastServed 1)
    (hhole : holeAt s.expected served = none) (hseq : ∀ e ∈ served, e.1 < 2 ^ 63)
    (htexts : ∀ e ∈ served, ∃ d ∈ start.entries, e = (d.seq, d.sql)) :
    Pulled start s.lastServed served := by
  refine ⟨List.ext_getElem (by simp) fun i hi _ => ?_, htexts⟩
  rw [List.length_map] at hi
  have hnumber := numbers_of_holeAt hhole i hi
  have hsmall := hseq _ (List.getElem_mem hi)
  rw [List.getElem_map, List.getElem_range']
  unfold satAdd at hnumber hat
  omega

/-- One round: the loop goes on after what it sent, or the pull ends. -/
theorem round_spec {batch : List CatchupEntry} (hat : s.expected = satAdd s.lastServed 1)
    (hsmall : s.lastServed < 2 ^ 64) (hseq : ∀ e ∈ batch, e.1 < 2 ^ 63)
    (htexts : ∀ e ∈ batch, e.1 ≤ s.head → ∃ d ∈ start.entries, e = (d.seq, d.sql)) :
    (∃ s' served, (s.round batch).2 = some s' ∧ Carries (s.round batch).1 served ∧
        Pulled start s.lastServed served ∧ At s' s.head (s.lastServed + served.length)) ∨
      ((s.round batch).2 = none ∧ Ends start s.lastServed s.head (s.round batch).1) := by
  have hserved : ∀ e ∈ batch.takeWhile fun e => e.1 ≤ s.head, e ∈ batch ∧ e.1 ≤ s.head :=
    fun e he => ⟨(List.takeWhile_sublist _).subset he, by simpa using List.mem_takeWhile_imp he⟩
  unfold round
  dsimp only
  generalize batch.takeWhile (fun e => decide (e.1 ≤ s.head)) = served at hserved ⊢
  cases hlast : served.getLast? with
  | none => exact .inr ⟨rfl, ends_finish .nil ⟨rfl, fun e he => nomatch he⟩ rfl hsmall⟩
  | some last =>
    cases hhole : holeAt s.expected served with
    | some seq => exact .inr ⟨rfl, .inl (silent_error _)⟩
    | none =>
      have hpulled : Pulled start s.lastServed served := pulled_served hat hhole
        (fun e he => hseq e (hserved e he).1) fun e he => htexts e (hserved e he).1 (hserved e he).2
      have hnumber := hpulled.last hlast
      have hsilent := sendEntries_silent served
      have hcarry : (sendEntries served).2 = true → Carries (sendEntries served).1 served :=
        fun hall => sendEntries_carries hall fun e he =>
          (hseq e (hserved e he).1).trans (by norm_num)
      have hbound := hseq last (hserved last (List.mem_of_getLast? hlast)).1
      dsimp only
      rcases hsend : sendEntries served with ⟨frames, ok⟩
      rw [hsend] at hsilent hcarry
      cases ok with
      | false => exact .inr ⟨rfl, .inl hsilent⟩
      | true =>
        dsimp only
        split_ifs
        · exact .inr ⟨rfl, ends_finish (hcarry rfl) hpulled hnumber (hbound.trans (by norm_num))⟩
        · refine .inl ⟨_, served, rfl, hcarry rfl, hpulled, rfl, hnumber, ?_, by omega⟩
          unfold satAdd
          dsimp only
          omega

end Serving

/-! ## A whole pull at the origin -/

namespace Journal

variable {j : Journal} {after limit : ℕ} {batch : List CatchupEntry}

theorem mem_rangeLoop {bytes : ℕ} {out : List CatchupEntry} {rows : List JournalEntry}
    (h : rangeLoop bytes out rows = .ok batch) {e : CatchupEntry} (he : e ∈ batch) :
    e ∈ out ∨ ∃ d ∈ rows, e = (d.seq, d.sql) ∧ d.seq < 2 ^ 63 := by
  induction rows generalizing bytes out with
  | nil =>
    rw [rangeLoop] at h
    rw [← Except.ok.inj h] at he
    exact .inl he
  | cons d rows ih =>
    rw [rangeLoop] at h
    dsimp only at h
    split_ifs at h with hlarge hfull
    · rw [← Except.ok.inj h] at he
      exact .inl he
    · rcases ih h with hout | ⟨d', hd', heq⟩
      · rcases List.mem_append.mp hout with hout | hnew
        · exact .inl hout
        · exact .inr ⟨d, List.mem_cons_self, List.mem_singleton.mp hnew, not_le.mp hlarge⟩
      · exact .inr ⟨d', List.mem_cons_of_mem d hd', heq⟩

theorem mem_journalRange (h : j.journalRange after limit = .ok batch) {e : CatchupEntry}
    (he : e ∈ batch) : ∃ d ∈ j.entries, e = (d.seq, d.sql) ∧ d.seq < 2 ^ 63 := by
  rcases mem_rangeLoop h he with hnil | ⟨d, hd, heq⟩
  · cases hnil
  · have hmem := (List.mem_filter.mp (List.mem_of_mem_take hd)).1
    exact ⟨d, (List.mem_insertionSort _).mp hmem, heq⟩

end Journal

namespace Origin

open Journal Serving

variable {start : Journal} {after head : ℕ} {o : Origin}

/-- What has been sent is a part of the journal as it was when the head was sampled. -/
structure Tracks (start : Journal) (after head : ℕ) (o : Origin) : Prop where
  later : Later start head o.journal
  running : ∀ s, o.serving = some s → ∃ entries, Carries o.sent entries ∧
    Pulled start after entries ∧ s.At head (after + entries.length)
  ended : o.serving = none → Ends start after head o.sent

theorem Tracks.journal (h : Tracks start after head o) {j : Journal} (hj : Later start head j) :
    Tracks start after head { o with journal := j } :=
  ⟨hj, h.running, h.ended⟩

theorem ends_append {sent frames : List PullFrame} {entries : List CatchupEntry}
    (hcarry : Carries sent entries) (hpulled : Pulled start after entries)
    (h : Ends start (after + entries.length) head frames) : Ends start after head (sent ++ frames) := by
  rcases h with hsilent | ⟨sent', entries', rfl, hcarry', hpulled', hhead, hsmall⟩
  · exact .inl (hcarry.silent.append hsilent)
  · refine .inr ⟨sent ++ sent', entries ++ entries', (List.append_assoc _ _ _).symm,
      hcarry.append hcarry', hpulled.append hpulled', ?_, hsmall⟩
    rw [List.length_append, ← Nat.add_assoc]
    exact hhead

theorem Tracks.batch (h : Tracks start after head o) (fault : Option String) :
    Tracks start after head (o.step (.batch fault)) := by
  unfold step
  cases hserving : o.serving with
  | none => exact h
  | some s =>
    obtain ⟨entries, hcarry, hpulled, hat⟩ := h.running s hserving
    dsimp only
    cases hread : fault.elim (o.journal.journalRange s.after 512) Except.error with
    | error msg =>
      refine ⟨h.later, fun s hs => (nomatch hs), fun _ => .inl ?_⟩
      exact hcarry.silent.append (silent_error _)
    | ok batch =>
      have hrange : o.journal.journalRange s.after 512 = .ok batch := by
        cases fault with
        | none => exact hread
        | some msg => cases hread
      have hexpected : s.expected = satAdd s.lastServed 1 := by
        rw [hat.expected, hat.lastServed]
      have hround := @round_spec s start batch hexpected (hat.lastServed ▸ hat.small)
        (fun e he => by
          obtain ⟨d, -, rfl, hsmall⟩ := mem_journalRange hrange he
          exact hsmall)
        fun e he hle => by
          obtain ⟨d, hd, rfl, -⟩ := mem_journalRange hrange he
          exact ⟨d, h.later.below d hd (hat.head ▸ hle), rfl⟩
      rw [hat.head, hat.lastServed] at hround
      rcases hround with ⟨s', served, hgoes, hcarry', hpulled', hat'⟩ | ⟨hstops, hends⟩
      · refine ⟨h.later, fun t ht => ?_, fun hnone => ?_⟩
        · obtain rfl := Option.some.inj (hgoes.symm.trans ht)
          refine ⟨entries ++ served, hcarry.append hcarry', hpulled.append hpulled', ?_⟩
          rwa [List.length_append, ← Nat.add_assoc]
        · exact absurd (hgoes.symm.trans hnone) (Option.some_ne_none _)
      · refine ⟨h.later, fun t ht => ?_, fun _ => ends_append hcarry hpulled hends⟩
        exact absurd (hstops.symm.trans ht) (Option.some_ne_none _).symm

theorem Tracks.step (h : Tracks start after head o) (e : OriginEvent) :
    Tracks start after head (o.step e) := by
  cases e with
  | write sql now ok catchupWindow trimOk bytesOk =>
    exact h.journal (h.later.write sql now ok catchupWindow trimOk bytesOk)
  | trim keep ok => exact h.journal (h.later.trim keep ok)
  | batch fault => exact h.batch fault

theorem Tracks.run (h : Tracks start after head o) (events : List OriginEvent) :
    Tracks start after head (events.foldl Origin.step o) := by
  induction events generalizing o with
  | nil => exact h
  | cons e events ih => exact ih (h.step e)

theorem tracks_handleCatchup (hstart : start.WellNumbered) (after : UInt64) (headOk : Bool) :
    Tracks start after.toNat (if headOk then start.journalHead else 0)
      (handleCatchup start (Bytes.toLE 8 after.toNat) headOk) := by
  have hafter : Bytes.ofLE (Bytes.toLE 8 after.toNat) = after.toNat :=
    Bytes.ofLE_toLE after.toNat_lt
  unfold handleCatchup
  rw [if_pos (Bytes.length_toLE _ _), hafter]
  refine ⟨⟨fun e he _ => he, ?_⟩, fun s hs => ?_, fun hnone => nomatch hnone⟩
  · cases headOk with
    | false => exact nextSeq_pos hstart
    | true => exact journalHead_lt_nextSeq hstart
  · obtain rfl := Option.some.inj hs
    exact ⟨[], .nil, ⟨rfl, fun e he => nomatch he⟩, rfl, rfl, rfl, after.toNat_lt⟩

end Origin

/-! ## The requester -/

section Requester

variable {peer : String} {exec : List String → String → Option String} {frames : List PullFrame}
  {entries : List CatchupEntry} {done executed : List String} {head : ℕ}

theorem replay_ok (h : replay exec done entries = (.ok (), executed)) :
    executed = done ++ entries.map Prod.snd := by
  induction entries generalizing done with
  | nil =>
    rw [replay] at h
    rw [List.map_nil, List.append_nil]
    exact (Prod.mk.inj h).2.symm
  | cons e entries ih =>
    rw [replay] at h
    split at h
    · cases (Prod.mk.inj h).1
    · rw [ih h, List.map_cons, List.append_assoc]
      rfl

/-- Frames of entries are executed, and the pull goes on. -/
theorem pullLoop_carries (hcarry : Carries frames entries) {later : List PullFrame}
    (h : pullLoop peer exec done (frames ++ later) = (.ok head, executed)) :
    pullLoop peer exec (done ++ entries.map Prod.snd) later = (.ok head, executed) := by
  induction hcarry generalizing done with
  | nil => rwa [List.map_nil, List.append_nil]
  | cons hpart _ ih =>
    rw [List.cons_append, pullLoop, hpart] at h
    dsimp only at h
    split at h
    · cases (Prod.mk.inj h).1
    · rename_i hreplay
      have hrest := ih h
      rwa [replay_ok hreplay, List.append_assoc, ← List.map_append] at hrest

theorem pullLoop_silent (hsilent : Silent frames) :
    pullLoop peer exec done frames ≠ (.ok head, executed) := by
  intro h
  induction frames generalizing done with
  | nil => cases (Prod.mk.inj h).1
  | cons f frames ih =>
    have hrest : Silent frames := fun payload hmem => hsilent payload (List.mem_cons_of_mem f hmem)
    cases f with
    | affected payload => exact hsilent payload List.mem_cons_self
    | error msg => cases (Prod.mk.inj h).1
    | catchup payload =>
      rw [pullLoop] at h
      split at h
      · cases (Prod.mk.inj h).1
      · split at h
        · cases (Prod.mk.inj h).1
        · exact ih hrest h

/-- What comes after the end of a pull does not change it. -/
theorem pullLoop_append (h : pullLoop peer exec done frames = (.ok head, executed))
    (later : List PullFrame) :
    pullLoop peer exec done (frames ++ later) = (.ok head, executed) := by
  induction frames generalizing done with
  | nil => cases (Prod.mk.inj h).1
  | cons f frames ih =>
    rw [List.cons_append]
    cases f with
    | affected payload => exact h
    | error msg => cases (Prod.mk.inj h).1
    | catchup payload =>
      rw [pullLoop] at h ⊢
      split at h
      · cases (Prod.mk.inj h).1
      · split at h
        · cases (Prod.mk.inj h).1
        · exact ih h

end Requester

/-! ## Exactness -/

/-- The range of the journal, in order. -/
def Journal.textsBetween (j : Journal) (after head : ℕ) : List String :=
  (j.inOrder.filter fun e => after < e.seq ∧ e.seq ≤ head).map JournalEntry.sql

theorem Journal.WellNumbered.inOrder_lt {j : Journal} (hj : j.WellNumbered) :
    j.inOrder.Pairwise fun d e => d.seq < e.seq := by
  have hle : j.inOrder.Pairwise fun d e => d.seq ≤ e.seq := List.pairwise_insertionSort _ _
  have hperm : (j.inOrder.map JournalEntry.seq).Nodup :=
    ((List.perm_insertionSort _ _).map _).nodup_iff.mpr hj.nodup
  exact (hle.and (List.pairwise_map.mp hperm)).imp fun h => lt_of_le_of_ne h.1 h.2

/-- Numbers without a gap leave nothing of the range out. -/
theorem pulled_eq_textsBetween {start : Journal} (hstart : start.WellNumbered) {after : ℕ}
    {entries : List CatchupEntry} (h : Pulled start after entries) :
    entries.map Prod.snd = start.textsBetween after (after + entries.length) := by
  set range := start.inOrder.filter fun e => after < e.seq ∧ e.seq ≤ after + entries.length
    with hrange
  have hmem : ∀ d, d ∈ range ↔ d ∈ start.entries ∧ after < d.seq ∧
      d.seq ≤ after + entries.length := by
    intro d
    rw [hrange, List.mem_filter, decide_eq_true_iff]
    exact and_congr_left fun _ => List.mem_insertionSort _
  have hnumber : ∀ n, n ∈ entries.map Prod.fst ↔ after < n ∧ n ≤ after + entries.length := by
    intro n
    rw [h.numbers, List.mem_range'_1]
    omega
  have hsorted : entries.Pairwise fun d e => d.1 < e.1 := by
    apply List.pairwise_map.mp
    rw [h.numbers]
    exact List.pairwise_lt_range'
  have hsorted' : (range.map fun d => (d.seq, d.sql)).Pairwise fun d e => d.1 < e.1 :=
    List.pairwise_map.mpr (hstart.inOrder_lt.filter _)
  have hnodup : ∀ {l : List CatchupEntry}, (l.Pairwise fun d e => d.1 < e.1) → l.Nodup :=
    fun hl => hl.imp fun hlt heq => hlt.ne (congrArg Prod.fst heq)
  have hsame : ∀ e, e ∈ entries ↔ e ∈ range.map fun d => (d.seq, d.sql) := by
    intro e
    constructor
    · intro he
      obtain ⟨d, hd, rfl⟩ := h.texts e he
      exact List.mem_map_of_mem
        ((hmem d).mpr ⟨hd, (hnumber d.seq).mp (List.mem_map_of_mem (f := Prod.fst) he)⟩)
    · intro he
      obtain ⟨d, hd, rfl⟩ := List.mem_map.mp he
      obtain ⟨hd, hbounds⟩ := (hmem d).mp hd
      obtain ⟨e, he, hseq⟩ := List.mem_map.mp ((hnumber d.seq).mpr hbounds)
      obtain ⟨d', hd', rfl⟩ := h.texts e he
      rwa [← hstart.eq_of_seq hd' hd hseq]
  have hperm := (List.perm_ext_iff_of_nodup (hnodup hsorted) (hnodup hsorted')).mpr hsame
  have hentries : entries = range.map fun d => (d.seq, d.sql) :=
    hperm.eq_of_pairwise (fun _ _ _ _ hlt hgt => absurd hlt hgt.not_gt) hsorted hsorted'
  calc entries.map Prod.snd = (range.map fun d => (d.seq, d.sql)).map Prod.snd := by
        rw [← hentries]
    _ = start.textsBetween after (after + entries.length) := by
        rw [List.map_map]
        rfl

theorem executed_of_tracks {start : Journal} (hstart : start.WellNumbered) {after served : ℕ}
    {o : Origin} (h : o.Tracks start after served) {peer : String}
    {exec : List String → String → Option String} {frames : List PullFrame} {head : ℕ}
    {executed : List String} (hframes : frames <+: o.sent)
    (hok : catchUpFrom peer exec frames = (.ok head, executed)) :
    executed = start.textsBetween after head := by
  obtain ⟨later, hlater⟩ := hframes
  have hall : pullLoop peer exec [] o.sent = (.ok head, executed) :=
    hlater ▸ pullLoop_append hok later
  cases hserving : o.serving with
  | some s =>
    obtain ⟨entries, hcarry, -, -⟩ := h.running s hserving
    exact absurd hall (pullLoop_silent hcarry.silent)
  | none =>
    rcases h.ended hserving with hsilent | ⟨sent, entries, hsent, hcarry, hpulled, hhead, hsmall⟩
    · exact absurd hall (pullLoop_silent hsilent)
    · rw [hsent] at hall
      have hend := pullLoop_carries hcarry hall
      rw [pullLoop, if_pos (Bytes.length_toLE _ _)] at hend
      obtain ⟨hvalue, htexts⟩ := Prod.mk.inj hend
      have hvalue : served = head := (Bytes.ofLE_toLE hsmall).symm.trans (Except.ok.inj hvalue)
      rw [← htexts, List.nil_append, pulled_eq_textsBetween hstart hpulled, hhead, hvalue]

/-- A pull that completes has executed the journal from its position to the head; frames lose
nothing of what is packed into them. -/
theorem catchUpFrom_exact :
    (∀ (ops : List Journal.Op) (after : UInt64) (headOk : Bool) (events : List OriginEvent)
      (peer : String) (exec : List String → String → Option String) (frames : List PullFrame)
      (head : ℕ) (executed : List String),
      frames <+: (events.foldl Origin.step (Origin.handleCatchup (JournalRun.run ops).journal
        (Bytes.toLE 8 after.toNat) headOk)).sent →
      catchUpFrom peer exec frames = (.ok head, executed) →
      executed = (JournalRun.run ops).journal.textsBetween after.toNat head) ∧
    ∀ (budget : ℕ) (entries : List CatchupEntry), (∀ e ∈ entries, Fits e) →
      decodeCatchupEntries (packAll budget entries).flatten = .ok entries ∧
        ∃ parts : List (List CatchupEntry), parts.flatten = entries ∧
          List.Forall₂ (fun payload part => part ≠ [] ∧
            decodeCatchupEntries payload = .ok part) (packAll budget entries) parts := by
  constructor
  · intro ops after headOk events peer exec frames head executed hframes hok
    have hstart := JournalRun.wellNumbered ops
    exact executed_of_tracks hstart ((Origin.tracks_handleCatchup hstart after headOk).run events)
      hframes hok
  · intro budget entries hfits
    obtain ⟨parts, hflat, hparts⟩ := packAll_parts budget hfits
    exact ⟨decode_packAll budget hfits, parts, hflat, hparts.imp fun _ _ h => ⟨h.1, h.2.2⟩⟩

/-- One entry after position 0, with a write between the batches. -/
theorem catchUpFrom_exact_one : ["DROP TABLE t"] =
    (JournalRun.run [.append "DROP TABLE t" 0 true]).journal.textsBetween 0 1 := by
  have hpacked : (packCatchupEntries [(1, "DROP TABLE t")] syncChunkBytes).2 = 1 :=
    le_antisymm (packCatchupEntries_le _ _) (packCatchupEntries_pos _ (List.cons_ne_nil _ _))
  have hsend : sendEntries [(1, "DROP TABLE t")] =
      ([.catchup (packCatchupEntries [(1, "DROP TABLE t")] syncChunkBytes).1], true) := by
    rw [sendEntries_cons, if_neg (by decide)]
    dsimp only
    rw [hpacked, List.drop_one, List.tail_cons, sendEntries]
  have hround : (⟨1, 0, 1, 0⟩ : Serving).round [(1, "DROP TABLE t")] =
      ([.catchup (packCatchupEntries [(1, "DROP TABLE t")] syncChunkBytes).1],
        some ⟨1, 1, 2, 1⟩) := by
    have hserved : [(1, "DROP TABLE t")].takeWhile (fun e : CatchupEntry => e.1 ≤ 1) =
        [(1, "DROP TABLE t")] := rfl
    unfold Serving.round
    dsimp only
    rw [hserved]
    simp only [List.getLast?_singleton, hsend]
    rfl
  have hsent : ([.batch none, .write "INSERT" 0 true 0 true true, .batch none].foldl
      Origin.step (Origin.handleCatchup (JournalRun.run [.append "DROP TABLE t" 0 true]).journal
        (Bytes.toLE 8 (0 : UInt64).toNat) true)).sent =
      [.catchup (packCatchupEntries [(1, "DROP TABLE t")] syncChunkBytes).1,
        .affected (Bytes.toLE 8 1)] := by
    have hfirst : (Origin.handleCatchup (JournalRun.run [.append "DROP TABLE t" 0 true]).journal
        (Bytes.toLE 8 (0 : UInt64).toNat) true).step (.batch none) =
          { journal := (JournalRun.run [.append "DROP TABLE t" 0 true]).journal
            serving := some ⟨1, 1, 2, 1⟩
            sent := [.catchup (packCatchupEntries [(1, "DROP TABLE t")] syncChunkBytes).1] } := by
      have hread : (JournalRun.run [.append "DROP TABLE t" 0 true]).journal.journalRange 0 512 =
          .ok [(1, "DROP TABLE t")] := rfl
      have hstart : Origin.handleCatchup (JournalRun.run [.append "DROP TABLE t" 0 true]).journal
          (Bytes.toLE 8 (0 : UInt64).toNat) true =
            { journal := (JournalRun.run [.append "DROP TABLE t" 0 true]).journal
              serving := some ⟨1, 0, 1, 0⟩ } := rfl
      rw [hstart]
      simp only [Origin.step, Option.elim_none, hread, hround, List.nil_append]
    rw [List.foldl_cons, hfirst]
    rfl
  have hfits : ∀ e ∈ [((1, "DROP TABLE t") : CatchupEntry)], Fits e := by
    intro e he
    rw [List.mem_singleton.mp he]
    exact ⟨by norm_num, by decide⟩
  have hdecode : decodeCatchupEntries
      (packCatchupEntries [(1, "DROP TABLE t")] syncChunkBytes).1 = .ok [(1, "DROP TABLE t")] := by
    have h := @decode_pack syncChunkBytes [(1, "DROP TABLE t")]
      fun e he => hfits e (List.mem_of_mem_take he)
    rwa [hpacked] at h
  refine catchUpFrom_exact.1 [.append "DROP TABLE t" 0 true] 0 true
    [.batch none, .write "INSERT" 0 true 0 true true, .batch none] "peer" (fun _ _ => none)
    _ 1 _ (List.prefix_refl _) ?_
  rw [hsent, catchUpFrom, pullLoop, hdecode]
  rfl

end Docsql.Cluster
