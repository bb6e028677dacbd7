import Docsql.Lib.FixedDigits
import Docsql.Timestamp.RoundTrip

/-!
# Time-ordered identifiers

`next_time_seq` reserves pairs of a millisecond and a counter by compare-and-swap on one packed
word, and `uuidv7` renders a pair with random bits.  Callers may interleave in any way, the clock
may stand still or go backwards.
-/

namespace Docsql.Guid

open Lib.Utf8 Lib.Digits

/-! ## Reserving a pair -/

def wordBits : ℕ := 64

/-- The packed word a caller wants to put in place of `cur`. -/
def nextState (cur now rnd : ℕ) : ℕ :=
  let curMs := cur >>> 12
  let curSeq := cur &&& 0x0fff
  if now > curMs then
    (now <<< 12) % 2 ^ wordBits ||| (rnd &&& 0x0fff)
  else
    let seq := ((curSeq + 1) % 2 ^ 16) &&& 0x0fff
    let ms := if seq = 0 then curMs + 1 else curMs
    (ms <<< 12) % 2 ^ wordBits ||| seq

/-- The pair that is returned after a successful exchange. -/
def unpack (word : ℕ) : ℕ × ℕ := (word >>> 12, word &&& 0x0fff)

/-- `LAST_STATE`, what each caller has loaded, and the pairs in the order of their exchanges. -/
structure Sequencer where
  last : ℕ := 0
  loaded : ℕ → Option ℕ := fun _ => none
  reserved : List (ℕ × ℕ) := []

inductive Event where
  | load (caller : ℕ)
  /-- The caller reads the clock and its random bits and tries the exchange, which may fail
  without a reason. -/
  | exchange (caller now rnd : ℕ) (spurious : Bool)

def Event.clock : Event → ℕ
  | .load _ => 0
  | .exchange _ now _ _ => now

def Sequencer.step (s : Sequencer) : Event → Sequencer
  | .load caller => { s with loaded := Function.update s.loaded caller (some s.last) }
  | .exchange caller now rnd spurious =>
    match s.loaded caller with
    | none => s
    | some cur =>
      let s := { s with loaded := Function.update s.loaded caller none }
      if s.last = cur ∧ spurious = false then
        let next := nextState cur now rnd
        { s with last := next, reserved := s.reserved ++ [unpack next] }
      else s

def run (events : List Event) : Sequencer := events.foldl Sequencer.step {}

/-! ## Packed words -/

def pack (p : ℕ × ℕ) : ℕ := p.1 * 4096 + p.2

theorem lor_shift (ms : ℕ) {seq : ℕ} (h : seq < 4096) : ms <<< 12 ||| seq = ms * 4096 + seq := by
  rw [← Nat.shiftLeft_add_eq_or_of_lt (by simpa using h), Nat.shiftLeft_eq]

theorem mask (n : ℕ) : n &&& 0x0fff = n % 4096 := Nat.and_two_pow_sub_one_eq_mod n 12

theorem unpack_eq (word : ℕ) : unpack word = (word / 4096, word % 4096) := by
  rw [unpack, mask, Nat.shiftRight_eq_div_pow]

theorem pack_unpack (word : ℕ) : pack (unpack word) = word := by
  rw [unpack_eq, pack]
  exact Nat.div_add_mod' word 4096

/-- A millisecond that fits is shifted without loss. -/
theorem pack_word {ms seq : ℕ} (hms : ms < 2 ^ 52) (hseq : seq < 4096) :
    (ms <<< 12) % 2 ^ wordBits ||| seq = ms * 4096 + seq := by
  have hfits : ms <<< 12 < 2 ^ wordBits := by
    rw [Nat.shiftLeft_eq, wordBits]
    omega
  rw [Nat.mod_eq_of_lt hfits, lor_shift ms hseq]

/-- A clock that has advanced gives a new counter, otherwise the word is counted up. -/
theorem nextState_eq {cur now : ℕ} (hcur : cur < 2 ^ 60) (hnow : now < 2 ^ 48) (rnd : ℕ) :
    nextState cur now rnd = if now > cur / 4096 then now * 4096 + rnd % 4096 else cur + 1 := by
  have hshift : cur >>> 12 = cur / 4096 := Nat.shiftRight_eq_div_pow cur 12
  unfold nextState
  simp only [hshift, mask]
  split_ifs with hclock hspill
  · exact pack_word (by omega) (Nat.mod_lt _ (by decide))
  · rw [pack_word (by omega) (Nat.mod_lt _ (by decide))]
    omega
  · rw [pack_word (by omega) (Nat.mod_lt _ (by decide))]
    omega

/-- The next word is greater, whatever the clock and the random bits are. -/
theorem lt_nextState {cur now : ℕ} (hcur : cur < 2 ^ 60) (hnow : now < 2 ^ 48) (rnd : ℕ) :
    cur < nextState cur now rnd := by
  rw [nextState_eq hcur hnow]
  split_ifs with hclock
  · omega
  · exact Nat.lt_succ_self cur

/-! ## Runs -/

/-- The reserved pairs increase up to the word that is stored. -/
structure Ordered (s : Sequencer) : Prop where
  increasing : (s.reserved.map pack).Pairwise (· < ·)
  bounded : ∀ p ∈ s.reserved, p.2 < 4096 ∧ pack p ≤ s.last
  stored : s.last = 0 ∨ ∃ p ∈ s.reserved, pack p = s.last

/-- No millisecond has left the 48 bits of the layout. -/
def InLayout (s : Sequencer) : Prop := ∀ p ∈ s.reserved, p.1 < 2 ^ 48

theorem Ordered.last_lt {s : Sequencer} (h : Ordered s) (hlayout : InLayout s) :
    s.last < 2 ^ 60 := by
  rcases h.stored with hzero | ⟨p, hp, hpack⟩
  · omega
  · have hms := hlayout p hp
    have hseq := (h.bounded p hp).1
    unfold pack at hpack
    omega

/-- What a step does to the reserved pairs: nothing, or one exchange of the stored word. -/
theorem step_cases (s : Sequencer) (e : Event) :
    ((s.step e).last = s.last ∧ (s.step e).reserved = s.reserved) ∨
      ∃ rnd, (s.step e).last = nextState s.last e.clock rnd ∧
        (s.step e).reserved = s.reserved ++ [unpack (nextState s.last e.clock rnd)] := by
  cases e with
  | load caller => exact .inl ⟨rfl, rfl⟩
  | exchange caller now rnd spurious =>
    cases hloaded : s.loaded caller with
    | none =>
      rw [Sequencer.step, hloaded]
      exact .inl ⟨rfl, rfl⟩
    | some cur =>
      rw [Sequencer.step, hloaded]
      dsimp only
      split_ifs with hwins
      · obtain ⟨rfl, -⟩ := hwins
        exact .inr ⟨rnd, rfl, rfl⟩
      · exact .inl ⟨rfl, rfl⟩

theorem InLayout.of_step {s : Sequencer} {e : Event} (h : InLayout (s.step e)) : InLayout s := by
  rcases step_cases s e with ⟨-, hres⟩ | ⟨rnd, -, hres⟩
  · exact fun p hp => h p (hres ▸ hp)
  · exact fun p hp => h p (hres ▸ List.mem_append_left _ hp)

theorem Ordered.step {s : Sequencer} {e : Event} (h : Ordered s) (hlayout : InLayout s)
    (hclock : e.clock < 2 ^ 48) : Ordered (s.step e) := by
  rcases step_cases s e with ⟨hlast, hres⟩ | ⟨rnd, hlast, hres⟩
  · refine ⟨?_, ?_, ?_⟩
    · rw [hres]
      exact h.increasing
    · rw [hres, hlast]
      exact h.bounded
    · rw [hres, hlast]
      exact h.stored
  · have hlt := lt_nextState (h.last_lt hlayout) hclock rnd
    have hpack := pack_unpack (nextState s.last e.clock rnd)
    refine ⟨?_, ?_, ?_⟩
    · rw [hres, List.map_append, List.pairwise_append]
      refine ⟨h.increasing, List.pairwise_singleton _ _, ?_⟩
      intro a ha b hb
      obtain ⟨p, hp, rfl⟩ := List.mem_map.mp ha
      rw [List.map_singleton, List.mem_singleton, hpack] at hb
      rw [hb]
      exact (h.bounded p hp).2.trans_lt hlt
    · intro p hp
      rw [hres] at hp
      rw [hlast]
      rcases List.mem_append.mp hp with hp | hp
      · exact ⟨(h.bounded p hp).1, (h.bounded p hp).2.trans hlt.le⟩
      · rw [List.mem_singleton.mp hp, hpack, unpack_eq]
        exact ⟨Nat.mod_lt _ (by decide), le_rfl⟩
    · rw [hres, hlast]
      exact .inr ⟨_, List.mem_append_right _ (List.mem_singleton_self _), hpack⟩

theorem run_ordered (events : List Event) (hclock : ∀ e ∈ events, e.clock < 2 ^ 48)
    (hlayout : InLayout (run events)) : Ordered (run events) := by
  induction events using List.reverseRecOn with
  | nil => exact ⟨List.Pairwise.nil, nofun, .inl rfl⟩
  | append_singleton events e ih =>
    have hrun : run (events ++ [e]) = (run events).step e := List.foldl_append
    rw [hrun] at hlayout ⊢
    have hbefore := hlayout.of_step
    have hordered := ih (fun e' he' => hclock e' (List.mem_append_left _ he')) hbefore
    exact hordered.step hbefore (hclock e (List.mem_append_right _ (List.mem_singleton_self e)))

/-! ## Rendering -/

/-- `to_be_bytes` of a word. -/
def bytesBE : ℕ → ℕ → List ℕ
  | 0, _ => []
  | w + 1, n => bytesBE w (n / 256) ++ [n % 256]

def byteOf (n : ℕ) : ℕ := n % 256

/-- The sixteen bytes: timestamp, version and counter, variant and random bits. -/
def guidBytes (ms seq rnd : ℕ) : List ℕ :=
  let random := bytesBE 8 rnd
  [byteOf (ms >>> 40), byteOf (ms >>> 32), byteOf (ms >>> 24), byteOf (ms >>> 16),
    byteOf (ms >>> 8), byteOf ms, 0x70 ||| (byteOf (seq >>> 8) &&& 0x0f), byteOf (seq &&& 0xff)] ++
    (0x80 ||| (random.headD 0 &&& 0x3f)) :: random.drop 1

/-- The byte at a position in hexadecimal, with the dash in front of some. -/
def hexPiece (i byte : ℕ) : List Char :=
  (if i ∈ [4, 6, 8, 10] then ['-'] else []) ++
    [Nat.digitChar (byte >>> 4), Nat.digitChar (byte &&& 0x0f)]

def hexFrom (i : ℕ) : List ℕ → List Char
  | [] => []
  | byte :: rest => hexPiece i byte ++ hexFrom (i + 1) rest

/-- The canonical form for a reserved pair and 64 random bits. -/
def uuidv7 (p : ℕ × ℕ) (rnd : ℕ) : String := String.ofList (hexFrom 0 (guidBytes p.1 p.2 rnd))

theorem length_bytesBE (w n : ℕ) : (bytesBE w n).length = w := by
  induction w generalizing n with
  | zero => rfl
  | succ w ih => rw [bytesBE, List.length_append, ih, List.length_singleton]

theorem bytesBE_lt {w n byte : ℕ} (h : byte ∈ bytesBE w n) : byte < 256 := by
  induction w generalizing n with
  | zero => cases h
  | succ w ih =>
    rcases List.mem_append.mp h with h | h
    · exact ih h
    · rw [List.mem_singleton.mp h]
      exact Nat.mod_lt _ (by decide)

/-- The bytes of words are ordered like the words. -/
theorem compare_bytesBE {w n m : ℕ} (hn : n < 256 ^ w) (hm : m < 256 ^ w) :
    List.compareLex compare (bytesBE w n) (bytesBE w m) = compare n m := by
  induction w generalizing n m with
  | zero =>
    rw [pow_zero] at hn hm
    obtain rfl : n = 0 := by omega
    obtain rfl : m = 0 := by omega
    rfl
  | succ w ih =>
    have hlen : (bytesBE w (n / 256)).length = (bytesBE w (m / 256)).length := by
      rw [length_bytesBE, length_bytesBE]
    rw [pow_succ] at hn hm
    rw [bytesBE, bytesBE, compareLex_append hlen, ih (by omega) (by omega)]
    have hbyte : List.compareLex compare [n % 256] [m % 256] = compare (n % 256) (m % 256) := by
      rw [List.compareLex_cons_cons]
      exact Ordering.then_eq
    rw [hbyte, compare_div_mod]

/-- The timestamp, the version and the counter as one word. -/
def timeWord (p : ℕ × ℕ) : ℕ := p.1 * 65536 + 28672 + p.2

theorem timeWord_lt {p q : ℕ × ℕ} (hp : p.2 < 4096) (hq : q.2 < 4096) (h : pack p < pack q) :
    timeWord p < timeWord q := by
  unfold pack at h
  unfold timeWord
  rcases Nat.lt_or_ge p.1 q.1 with hms | hms
  · have hscaled := Nat.mul_le_mul_right 65536 hms
    linarith
  · have heq : p.1 = q.1 := by omega
    rw [heq] at h ⊢
    exact Nat.add_lt_add_left (Nat.lt_of_add_lt_add_left h) _

theorem guidBytes_eq (ms : ℕ) {seq : ℕ} (hseq : seq < 4096) (rnd : ℕ) :
    guidBytes ms seq rnd = bytesBE 8 (timeWord (ms, seq)) ++
      (0x80 ||| ((bytesBE 8 rnd).headD 0 &&& 0x3f)) :: (bytesBE 8 rnd).drop 1 := by
  have hversion : ∀ k < 16, 0x70 ||| (k % 256 &&& 0x0f) = 112 + k := by decide
  have hbyte6 := hversion (seq / 256) (by omega)
  have hbyte7 : seq &&& 0xff = seq % 256 := Nat.and_two_pow_sub_one_eq_mod seq 8
  refine congrArg (· ++ _) ?_
  simp only [bytesBE, timeWord, byteOf, Nat.shiftRight_eq_div_pow, Nat.div_div_eq_div_mul,
    hbyte7, List.nil_append, List.cons_append, List.cons.injEq, and_true]
  norm_num only at *
  refine ⟨?_, ?_, ?_, ?_, ?_, ?_, ?_, ?_⟩ <;> omega

theorem compare_hexPiece (i : ℕ) {a b : ℕ} (ha : a < 256) (hb : b < 256) :
    cmpBytes (toBytes (hexPiece i a)) (toBytes (hexPiece i b)) = compare a b := by
  have hnibbles (n : ℕ) : (n >>> 4, n &&& 0x0f) = (n / 16, n % 16) :=
    Prod.ext (Nat.shiftRight_eq_div_pow n 4) (Nat.and_two_pow_sub_one_eq_mod n 4)
  have hpiece (n : ℕ) : hexPiece i n = (if i ∈ [4, 6, 8, 10] then ['-'] else []) ++
      ([Nat.digitChar (n / 16)] ++ [Nat.digitChar (n % 16)]) := by
    obtain ⟨hhigh, hlow⟩ := Prod.mk.inj (hnibbles n)
    rw [hexPiece, hhigh, hlow]
    rfl
  have hdigit : ∀ k : Fin 16, (toBytes [Nat.digitChar k]).length = 1 := by decide
  have hhigh : (toBytes [Nat.digitChar (a / 16)]).length =
      (toBytes [Nat.digitChar (b / 16)]).length :=
    (hdigit ⟨a / 16, by omega⟩).trans (hdigit ⟨b / 16, by omega⟩).symm
  rw [hpiece, hpiece]
  generalize (if i ∈ [4, 6, 8, 10] then ['-'] else []) = dash
  rw [cmpBytes, toBytes_append dash, toBytes_append dash, compareLex_append rfl,
    toBytes_append, toBytes_append, compareLex_append hhigh,
    compare_digitChar (by omega) (by omega), compare_digitChar (by omega) (by omega),
    compare_div_mod]
  change (cmpBytes _ _).then _ = _
  rw [cmpBytes_self]
  rfl

theorem length_hexPiece (i : ℕ) {a b : ℕ} (ha : a < 256) (hb : b < 256) :
    (toBytes (hexPiece i a)).length = (toBytes (hexPiece i b)).length := by
  have hdigit : ∀ k : Fin 256, (toBytes [Nat.digitChar (k.val >>> 4),
      Nat.digitChar (k.val &&& 0x0f)]).length = 2 := by decide +kernel
  rw [hexPiece, hexPiece, toBytes_append, toBytes_append, List.length_append, List.length_append,
    hdigit ⟨a, ha⟩, hdigit ⟨b, hb⟩]

/-- The text is ordered like the bytes. -/
theorem compare_hexFrom (i : ℕ) {as bs : List ℕ} (hlen : as.length = bs.length)
    (has : ∀ a ∈ as, a < 256) (hbs : ∀ b ∈ bs, b < 256) :
    cmpBytes (toBytes (hexFrom i as)) (toBytes (hexFrom i bs)) =
      List.compareLex compare as bs := by
  induction as generalizing i bs with
  | nil =>
    obtain rfl := List.length_eq_zero_iff.mp hlen.symm
    rfl
  | cons a as ih =>
    cases bs with
    | nil => cases hlen
    | cons b bs =>
      have ha := has a List.mem_cons_self
      have hb := hbs b List.mem_cons_self
      have hrest := ih (i + 1) (Nat.succ.inj hlen)
        (fun x hx => has x (List.mem_cons_of_mem _ hx))
        (fun x hx => hbs x (List.mem_cons_of_mem _ hx))
      rw [hexFrom, hexFrom, toBytes_append, toBytes_append, cmpBytes,
        compareLex_append (length_hexPiece i ha hb), List.compareLex_cons_cons]
      change (cmpBytes _ _).then (cmpBytes _ _) = _
      rw [compare_hexPiece i ha hb, hrest]

theorem guidBytes_lt (ms seq rnd : ℕ) (hseq : seq < 4096) : ∀ b ∈ guidBytes ms seq rnd, b < 256 := by
  intro b hb
  rw [guidBytes_eq ms hseq] at hb
  rcases List.mem_append.mp hb with hb | hb
  · exact bytesBE_lt hb
  · rcases List.mem_cons.mp hb with rfl | hb
    · have hand := Nat.and_le_right (n := (bytesBE 8 rnd).headD 0) (m := 0x3f)
      exact Nat.or_lt_two_pow (n := 8) (by norm_num) (by omega)
    · exact bytesBE_lt (List.mem_of_mem_drop hb)

/-- Earlier pairs have smaller texts, whatever their random bits are. -/
theorem uuidv7_lt {p q : ℕ × ℕ} (hp : p.1 < 2 ^ 48 ∧ p.2 < 4096) (hq : q.1 < 2 ^ 48 ∧ q.2 < 4096)
    (h : pack p < pack q) (r r' : ℕ) : cmpStr (uuidv7 p r) (uuidv7 q r') = .lt := by
  have hlength (ms seq rnd : ℕ) : (guidBytes ms seq rnd).length = 16 := by
    simp [guidBytes, length_bytesBE]
  have hword := timeWord_lt hp.2 hq.2 h
  have hfits (p : ℕ × ℕ) (hp : p.1 < 2 ^ 48 ∧ p.2 < 4096) : timeWord p < 256 ^ 8 := by
    have hword : timeWord p < 2 ^ 64 := by
      unfold timeWord
      omega
    exact hword.trans_eq (by norm_num)
  rw [cmpStr, uuidv7, uuidv7, Timestamp.asBytes_ofList, Timestamp.asBytes_ofList,
    compare_hexFrom 0 ((hlength _ _ _).trans (hlength _ _ _).symm)
      (guidBytes_lt p.1 p.2 r hp.2) (guidBytes_lt q.1 q.2 r' hq.2),
    guidBytes_eq p.1 hp.2, guidBytes_eq q.1 hq.2,
    compareLex_append ((length_bytesBE _ _).trans (length_bytesBE _ _).symm),
    compare_bytesBE (hfits p hp) (hfits q hq), Nat.compare_eq_lt.mpr hword]
  rfl

/-! ## Main result -/

/-- Pairs are ordered by their millisecond, then by their counter. -/
def PairLt (p q : ℕ × ℕ) : Prop := p.1 < q.1 ∨ p.1 = q.1 ∧ p.2 < q.2

/-- In every interleaving the reserved pairs increase, and so do the texts built from them with
any random bits. -/
theorem guids_increase (events : List Event) (hclock : ∀ e ∈ events, e.clock < 2 ^ 48)
    (hlayout : ∀ p ∈ (run events).reserved, p.1 < 2 ^ 48) :
    (run events).reserved.Pairwise PairLt ∧
      ∀ rnd : ℕ → ℕ, ((run events).reserved.mapIdx fun i p => uuidv7 p (rnd i)).Pairwise
        fun s t => cmpStr s t = .lt := by
  obtain ⟨hincreasing, hbounded, -⟩ := run_ordered events hclock hlayout
  have hpairs := List.pairwise_map.mp hincreasing
  constructor
  · refine hpairs.imp_of_mem ?_
    intro p q hp hq hpq
    have hp := (hbounded p hp).1
    have hq := (hbounded q hq).1
    unfold pack at hpq
    unfold PairLt
    omega
  · intro rnd
    rw [List.pairwise_iff_getElem] at hpairs ⊢
    intro i j hi hj hij
    rw [List.length_mapIdx] at hi hj
    rw [List.getElem_mapIdx, List.getElem_mapIdx]
    have hmem (k : ℕ) (hk : k < (run events).reserved.length) := List.getElem_mem hk
    exact uuidv7_lt ⟨hlayout _ (hmem i hi), (hbounded _ (hmem i hi)).1⟩
      ⟨hlayout _ (hmem j hj), (hbounded _ (hmem j hj)).1⟩ (hpairs i j hi hj hij) _ _

/-- Two callers load the same word; the one that loses loads again, while the clock goes
backwards. -/
def race : List Event :=
  [.load 0, .load 1, .exchange 1 1700000000000 4095 false, .exchange 0 1700000000001 0 false,
    .load 0, .exchange 0 1600000000000 7 false]

theorem guids_increase_race :
    (run race).reserved = [(1700000000000, 4095), (1700000000001, 0)] ∧
      (run race).reserved.Pairwise PairLt ∧
      ∀ rnd : ℕ → ℕ, ((run race).reserved.mapIdx fun i p => uuidv7 p (rnd i)).Pairwise
        fun s t => cmpStr s t = .lt := by
  have hrun : (run race).reserved = [(1700000000000, 4095), (1700000000001, 0)] := by
    decide
  refine ⟨hrun, guids_increase race (by decide) ?_⟩
  rw [hrun]
  decide

end Docsql.Guid
