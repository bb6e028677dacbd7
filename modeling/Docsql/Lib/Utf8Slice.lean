import Mathlib.Tactic

/-!
# Byte offsets into text

A string is its list of characters; offsets count UTF-8 bytes.  A slice exists only
between characters, and a byte below 128 is a whole character.
-/

namespace Docsql.Lib.Utf8

def toBytes (cs : List Char) : List UInt8 := cs.flatMap String.utf8EncodeChar

def byteLen (cs : List Char) : ℕ := (cs.map Char.utf8Size).sum

/-- What follows the first `n` bytes, if they end with a character. -/
def dropBytes : ℕ → List Char → Option (List Char)
  | 0, cs => some cs
  | _ + 1, [] => none
  | n + 1, c :: cs =>
    if c.utf8Size ≤ n + 1 then dropBytes (n + 1 - c.utf8Size) cs else none

/-- The first `n` bytes, if they end with a character. -/
def takeBytes : ℕ → List Char → Option (List Char)
  | 0, _ => some []
  | _ + 1, [] => none
  | n + 1, c :: cs =>
    if c.utf8Size ≤ n + 1 then (takeBytes (n + 1 - c.utf8Size) cs).map (c :: ·) else none

variable {cs pre post : List Char} {c : Char} {i : ℕ} {b : UInt8}

@[simp] theorem toBytes_nil : toBytes [] = [] := rfl

@[simp] theorem toBytes_cons (c : Char) (cs : List Char) :
    toBytes (c :: cs) = String.utf8EncodeChar c ++ toBytes cs := rfl

@[simp] theorem toBytes_append (pre post : List Char) :
    toBytes (pre ++ post) = toBytes pre ++ toBytes post := List.flatMap_append

@[simp] theorem byteLen_nil : byteLen [] = 0 := rfl

@[simp] theorem byteLen_cons (c : Char) (cs : List Char) :
    byteLen (c :: cs) = c.utf8Size + byteLen cs := List.sum_cons

@[simp] theorem byteLen_append (pre post : List Char) :
    byteLen (pre ++ post) = byteLen pre + byteLen post := by
  simp [byteLen]

theorem length_toBytes (cs : List Char) : (toBytes cs).length = byteLen cs := by
  induction cs with
  | nil => rfl
  | cons c cs ih => simp [ih]

theorem dropBytes_append (pre post : List Char) :
    dropBytes (byteLen pre) (pre ++ post) = some post := by
  induction pre with
  | nil => cases post <;> rfl
  | cons c pre ih =>
    obtain ⟨n, hn⟩ := Nat.exists_eq_succ_of_ne_zero c.utf8Size_pos.ne'
    have hlen : byteLen (c :: pre) = n + byteLen pre + 1 := by
      rw [byteLen_cons]
      omega
    rw [hlen, List.cons_append, dropBytes, if_pos (by omega),
      show n + byteLen pre + 1 - c.utf8Size = byteLen pre by omega, ih]

theorem takeBytes_append (pre post : List Char) :
    takeBytes (byteLen pre) (pre ++ post) = some pre := by
  induction pre with
  | nil => cases post <;> rfl
  | cons c pre ih =>
    obtain ⟨n, hn⟩ := Nat.exists_eq_succ_of_ne_zero c.utf8Size_pos.ne'
    have hlen : byteLen (c :: pre) = n + byteLen pre + 1 := by
      rw [byteLen_cons]
      omega
    rw [hlen, List.cons_append, takeBytes, if_pos (by omega),
      show n + byteLen pre + 1 - c.utf8Size = byteLen pre by omega, ih]
    rfl

/-! ## Bytes below 128 -/

theorem le_or_mark (x : UInt8) {m : UInt8} (h : 128 ≤ m.toNat) : 128 ≤ (x ||| m).toNat := by
  rw [UInt8.toNat_or]
  exact h.trans Nat.right_le_or

/-- A longer character has no byte below 128. -/
theorem le_of_mem_utf8EncodeChar (hb : b ∈ String.utf8EncodeChar c) (hc : c.utf8Size ≠ 1) :
    128 ≤ b.toNat := by
  rcases c.utf8Size_eq with h | h | h | h
  · exact absurd h hc
  · rw [String.utf8EncodeChar_eq_cons_cons h] at hb
    simp only [List.mem_cons, List.not_mem_nil, or_false] at hb
    rcases hb with rfl | rfl
    · exact le_or_mark _ (by decide)
    · exact le_or_mark _ (by decide)
  · rw [String.utf8EncodeChar_eq_cons_cons_cons h] at hb
    simp only [List.mem_cons, List.not_mem_nil, or_false] at hb
    rcases hb with rfl | rfl | rfl
    · exact le_or_mark _ (by decide)
    · exact le_or_mark _ (by decide)
    · exact le_or_mark _ (by decide)
  · rw [String.utf8EncodeChar_eq_cons_cons_cons_cons h] at hb
    simp only [List.mem_cons, List.not_mem_nil, or_false] at hb
    rcases hb with rfl | rfl | rfl | rfl
    · exact le_or_mark _ (by decide)
    · exact le_or_mark _ (by decide)
    · exact le_or_mark _ (by decide)
    · exact le_or_mark _ (by decide)

/-- A byte below 128 is a character of its own. -/
theorem exists_char_of_byte (h : (toBytes cs)[i]? = some b) (hb : b.toNat < 128) :
    ∃ pre c post, cs = pre ++ c :: post ∧ byteLen pre = i ∧ c.utf8Size = 1 ∧
      c.val.toUInt8 = b := by
  induction cs generalizing i with
  | nil => simp at h
  | cons c cs ih =>
    rw [toBytes_cons] at h
    by_cases hi : i < (String.utf8EncodeChar c).length
    · rw [List.getElem?_append_left hi] at h
      have hone : c.utf8Size = 1 := by
        by_contra hne
        have := le_of_mem_utf8EncodeChar (List.mem_of_getElem? h) hne
        omega
      rw [String.utf8EncodeChar_eq_singleton hone] at h hi
      obtain rfl : i = 0 := by simpa using hi
      exact ⟨[], c, cs, rfl, rfl, hone, Option.some.inj h⟩
    · rw [List.getElem?_append_right (not_lt.mp hi)] at h
      obtain ⟨pre, c', post, rfl, hpre, hone, hbyte⟩ := ih h
      refine ⟨c :: pre, c', post, rfl, ?_, hone, hbyte⟩
      rw [String.length_utf8EncodeChar] at hi hpre
      rw [byteLen_cons]
      omega

theorem exists_char_of_last (h : (toBytes cs).getLast? = some b) (hb : b.toNat < 128) :
    ∃ pre c, cs = pre ++ [c] ∧ c.utf8Size = 1 ∧ c.val.toUInt8 = b := by
  rw [List.getLast?_eq_getElem?] at h
  obtain ⟨pre, c, post, rfl, hpre, hone, hbyte⟩ := exists_char_of_byte h hb
  refine ⟨pre, c, ?_, hone, hbyte⟩
  have hlen := length_toBytes (pre ++ c :: post)
  rw [byteLen_append, byteLen_cons] at hlen
  have hpost : byteLen post = 0 := by omega
  cases post with
  | nil => rfl
  | cons c' post =>
    have := c'.utf8Size_pos
    rw [byteLen_cons] at hpost
    omega

/-- All characters are single bytes. -/
def Ascii (cs : List Char) : Prop := ∀ c ∈ cs, c.utf8Size = 1

theorem Ascii.byteLen_eq (h : Ascii cs) : byteLen cs = cs.length := by
  induction cs with
  | nil => rfl
  | cons c cs ih =>
    rw [byteLen_cons, h c List.mem_cons_self, ih fun c' h' => h c' (List.mem_cons_of_mem _ h'),
      List.length_cons, Nat.add_comm]

theorem Ascii.toBytes_eq (h : Ascii cs) : toBytes cs = cs.map fun c => c.val.toUInt8 := by
  induction cs with
  | nil => rfl
  | cons c cs ih =>
    rw [toBytes_cons, String.utf8EncodeChar_eq_singleton (h c List.mem_cons_self),
      ih fun c' h' => h c' (List.mem_cons_of_mem _ h')]
    rfl

theorem Ascii.append (hpre : Ascii pre) (hpost : Ascii post) : Ascii (pre ++ post) := by
  intro c hc
  rcases List.mem_append.mp hc with hc | hc
  · exact hpre c hc
  · exact hpost c hc

theorem ascii_of_isDigit (h : ∀ c ∈ cs, c.isDigit = true) : Ascii cs := by
  intro c hc
  have hdigit := h c hc
  rw [Char.utf8Size_eq_one_iff]
  simp only [Char.isDigit, Bool.and_eq_true, decide_eq_true_eq] at hdigit
  exact UInt32.le_trans hdigit.2 (by decide)

theorem Ascii.dropBytes_eq {n : ℕ} (h : Ascii cs) (hn : n ≤ cs.length) :
    dropBytes n cs = some (cs.drop n) := by
  have htake : Ascii (cs.take n) := fun c hc => h c (List.mem_of_mem_take hc)
  have hlen : byteLen (cs.take n) = n := by
    rw [htake.byteLen_eq, List.length_take, min_eq_left hn]
  have := dropBytes_append (cs.take n) (cs.drop n)
  rwa [hlen, List.take_append_drop] at this

theorem Ascii.takeBytes_eq {n : ℕ} (h : Ascii cs) (hn : n ≤ cs.length) :
    takeBytes n cs = some (cs.take n) := by
  have htake : Ascii (cs.take n) := fun c hc => h c (List.mem_of_mem_take hc)
  have hlen : byteLen (cs.take n) = n := by
    rw [htake.byteLen_eq, List.length_take, min_eq_left hn]
  have := takeBytes_append (cs.take n) (cs.drop n)
  rwa [hlen, List.take_append_drop] at this

end Docsql.Lib.Utf8
