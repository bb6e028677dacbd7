import Mathlib.Data.List.TakeWhile
import Docsql.EncodeRoundTrip
import Docsql.Json.Text

/-!
# What is written is read back

Reading a value stops where a number could not go on.  The nesting of the text
includes the marker objects, which take one level more than the scalars they
stand for.
-/

namespace Docsql.Json

/-! ## Strings -/

theorem escapeChar_of_clean {c : Char} (h : escapable c = false) : escapeChar c = [c] := by
  unfold escapable at h
  simp only [Bool.or_eq_false_iff, beq_eq_false_iff_ne, decide_eq_false_iff_not] at h
  obtain ⟨⟨⟨⟨⟨hquote, hslash⟩, hnl⟩, hcr⟩, htab⟩, hlow⟩ := h
  unfold escapeChar
  split
  · exact absurd rfl hquote
  · exact absurd rfl hslash
  · exact absurd rfl hnl
  · exact absurd rfl hcr
  · exact absurd rfl htab
  · rw [if_neg hlow]

theorem flatMap_clean {cs : List Char} (h : ∀ c ∈ cs, escapable c = false) :
    cs.flatMap escapeChar = cs := by
  induction cs with
  | nil => rfl
  | cons c cs ih =>
    rw [List.flatMap_cons, escapeChar_of_clean (h c List.mem_cons_self),
      ih fun d hd => h d (List.mem_cons_of_mem _ hd)]
    rfl

theorem pushEscaped_eq (s : List Char) : pushEscaped s = s.flatMap escapeChar := by
  unfold pushEscaped
  have hstart : ∀ c ∈ s.takeWhile (!escapable ·), escapable c = false := by
    intro c hc
    have hc := List.mem_takeWhile_imp hc
    simpa using hc
  nth_rewrite 1 [← flatMap_clean hstart]
  rw [← List.flatMap_append, List.takeWhile_append_dropWhile]

theorem pushEscaped_clean {cs : List Char} (h : ∀ c ∈ cs, escapable c = false) :
    pushEscaped cs = cs := (pushEscaped_eq cs).trans (flatMap_clean h)

theorem hexDigit_hexChar (n : ℕ) : hexDigit (hexChar n) = some (n % 16) := by
  have hlt : n % 16 < 16 := Nat.mod_lt _ (by norm_num)
  unfold hexChar
  generalize n % 16 = d at hlt ⊢
  revert d
  decide

section Reader

variable (len : ℕ)

theorem hexLoop_cons {c : Char} {d : ℕ} (h : hexDigit c = some d) (n v : ℕ) (rest : List Char) :
    hexLoop len (n + 1) v (c :: rest) = hexLoop len n (v * 16 + d) rest := by
  rw [hexLoop, h]

/-- The four digits of a control code. -/
theorem hex4_control {n : ℕ} (h : n < 0x20) (rest : List Char) :
    hex4 len (hexChar (n / 4096) :: hexChar (n / 256) :: hexChar (n / 16) :: hexChar n :: rest) =
      .ok (n, rest) := by
  unfold hex4
  rw [hexLoop_cons len (hexDigit_hexChar _), hexLoop_cons len (hexDigit_hexChar _),
    hexLoop_cons len (hexDigit_hexChar _), hexLoop_cons len (hexDigit_hexChar _), hexLoop]
  congr 2
  omega

theorem escape_control {c : Char} (h : c.toNat < 0x20) (rest : List Char) :
    escape len ('u' :: hexChar (c.toNat / 4096) :: hexChar (c.toNat / 256) ::
      hexChar (c.toNat / 16) :: hexChar c.toNat :: rest) = .ok ([c], rest) := by
  have hvalid : c.toNat.isValidChar := c.valid
  rw [escape, unicodeEscape, hex4_control len h]
  dsimp only
  rw [if_neg (by omega), if_neg (by omega), fromU32, if_pos hvalid, Char.ofNat_toNat]

theorem stringLoop_escape {tail left cs : List Char} (h : escape len tail = .ok (cs, left))
    (out : List Char) : stringLoop len ('\\' :: tail) out = stringLoop len left (out ++ cs) := by
  rw [stringLoop.eq_def]
  split
  · contradiction
  · rename_i heq
    cases heq
  · rename_i heq
    cases heq
    split
    · rename_i e he
      rw [h] at he
      cases he
    · rename_i cs' left' he
      rw [h] at he
      cases he
      rfl
  · rename_i hno heq
    cases heq
    exact (hno rfl).elim

theorem stringLoop_clean {c : Char} (hquote : c ≠ '"') (hslash : c ≠ '\\')
    (tail out : List Char) : stringLoop len (c :: tail) out = stringLoop len tail (out ++ [c]) := by
  rw [stringLoop.eq_def]
  split
  · contradiction
  · rename_i heq
    cases heq
    exact absurd rfl hquote
  · rename_i heq
    cases heq
    exact absurd rfl hslash
  · rename_i heq
    cases heq
    rfl

/-- What the writer made of a character. -/
theorem stringLoop_escapeChar (c : Char) (tail out : List Char) :
    stringLoop len (escapeChar c ++ tail) out = stringLoop len tail (out ++ [c]) := by
  unfold escapeChar
  split
  · exact stringLoop_escape len rfl out
  · exact stringLoop_escape len rfl out
  · exact stringLoop_escape len rfl out
  · exact stringLoop_escape len rfl out
  · exact stringLoop_escape len rfl out
  · rename_i hquote hslash _ _ _
    split
    · rename_i hlow
      exact stringLoop_escape len (escape_control len hlow tail) out
    · exact stringLoop_clean len hquote hslash tail out

theorem stringLoop_pushEscaped (cs rest out : List Char) :
    stringLoop len (pushEscaped cs ++ '"' :: rest) out =
      .ok (String.ofList (out ++ cs), rest) := by
  rw [pushEscaped_eq]
  induction cs generalizing out with
  | nil =>
    rw [List.flatMap_nil, List.nil_append, stringLoop, List.append_nil]
  | cons c cs ih =>
    rw [List.flatMap_cons, List.append_assoc, stringLoop_escapeChar, ih, List.append_assoc]
    rfl

theorem string_writeString (s : String) (rest : List Char) :
    string len (writeString s ++ rest) = .ok (s, rest) := by
  have hloop := stringLoop_pushEscaped len s.toList rest []
  rw [List.nil_append, String.ofList_toList] at hloop
  rw [string, StreamReader.bind_apply, writeString, List.cons_append, expect, if_pos rfl]
  dsimp only
  rw [List.append_assoc]
  exact hloop

/-! ## Numbers -/

/-- Nothing that would continue a number. -/
def Stops (rest : List Char) : Prop := ∀ c tail, rest = c :: tail → isNumberChar c = false

theorem stops_nil : Stops [] := fun _ _ h => by cases h

theorem stops_cons {c : Char} (h : isNumberChar c = false) (tail : List Char) :
    Stops (c :: tail) := by
  intro d rest heq
  cases heq
  exact h

theorem isNumberChar_of_isDigit {c : Char} (h : c.isDigit = true) : isNumberChar c = true := by
  simp [isNumberChar, h]

theorem takeWhile_number {body rest : List Char} (hbody : ∀ c ∈ body, isNumberChar c = true)
    (hrest : Stops rest) : (body ++ rest).takeWhile isNumberChar = body ∧
      (body ++ rest).dropWhile isNumberChar = rest := by
  rw [List.takeWhile_append_of_pos hbody, List.dropWhile_append_of_pos hbody]
  cases rest with
  | nil => simp
  | cons c tail =>
    have hstop : isNumberChar c = false := hrest c tail rfl
    simp [hstop]

theorem ne_minus_of_isDigit {c : Char} (h : c.isDigit = true) : c ≠ '-' := by
  rintro rfl
  exact absurd h (by decide)

theorem takeMinus_digit {c : Char} (h : c.isDigit = true) (tail : List Char) :
    takeMinus (c :: tail) = ([], c :: tail) := by
  unfold takeMinus
  split
  · rename_i heq
    exact absurd (List.cons.inj heq).1 (ne_minus_of_isDigit h)
  · rfl

/-- The scanner takes a sign and the number characters after it. -/
theorem number_split (fmt : Formats) {sign body rest : List Char} {d : Char} {more : List Char}
    (hsign : sign = [] ∨ sign = ['-']) (hfirst : body = d :: more) (hd : d.isDigit = true)
    (hbody : ∀ c ∈ body, isNumberChar c = true) (hrest : Stops rest) :
    number fmt len (sign ++ body ++ rest) =
      scannedNumber fmt sign body rest (pos len (sign ++ body ++ rest)) := by
  obtain ⟨htake, hdrop⟩ := takeWhile_number hbody hrest
  have hscan : takeMinus (sign ++ body ++ rest) = (sign, body ++ rest) := by
    rcases hsign with rfl | rfl
    · rw [hfirst]
      exact takeMinus_digit hd _
    · rfl
  unfold number
  rw [hscan]
  dsimp only
  rw [htake, hdrop]

theorem sign_ne {sign body : List Char} {d : Char} {more : List Char}
    (hsign : sign = [] ∨ sign = ['-']) (hfirst : body = d :: more) (hd : d.isDigit = true) :
    ¬ (sign ++ body = [] ∨ sign ++ body = ['-']) := by
  rcases hsign with rfl | rfl
  · rw [hfirst]
    rintro (h | h)
    · cases h
    · exact ne_minus_of_isDigit hd (List.cons.inj h).1
  · rw [hfirst]
    rintro (h | h)
    · cases h
    · cases h

theorem showInt_split (i : ℤ) : ∃ sign body, showInt i = sign ++ body ∧
    (sign = [] ∨ sign = ['-']) ∧ body = Nat.toDigits 10 i.natAbs ∧
    (sign = ['-'] ↔ i < 0) := by
  unfold showInt
  split
  · rename_i h
    exact ⟨['-'], _, rfl, .inr rfl, rfl, by simp [h]⟩
  · rename_i h
    exact ⟨[], _, rfl, .inl rfl, rfl, by simp [h]⟩

theorem toDigits_digits (n : ℕ) : ∀ c ∈ Nat.toDigits 10 n, c.isDigit = true :=
  fun _ hc => Nat.isDigit_of_mem_toDigits (by norm_num) (by norm_num) hc

theorem toDigits_cons (n : ℕ) : ∃ d more, Nat.toDigits 10 n = d :: more ∧ d.isDigit = true := by
  cases h : Nat.toDigits 10 n with
  | nil => exact absurd h Nat.toDigits_ne_nil
  | cons d more => exact ⟨d, more, rfl, toDigits_digits n d (h ▸ List.mem_cons_self)⟩

theorem takeSign_digit {c : Char} (h : c.isDigit = true) (tail : List Char) :
    takeSign (c :: tail) = (false, c :: tail) := by
  unfold takeSign
  split
  · rename_i heq
    exact absurd (List.cons.inj heq).1 (ne_minus_of_isDigit h)
  · rename_i heq
    obtain ⟨rfl, -⟩ := List.cons.inj heq
    exact absurd h (by decide)
  · rfl

theorem parseI64_showInt (i : Int64) : parseI64 (showInt i.toInt) = some i := by
  obtain ⟨d, more, hcons, hd⟩ := toDigits_cons i.toInt.natAbs
  have hall : (Nat.toDigits 10 i.toInt.natAbs).all Char.isDigit = true :=
    List.all_eq_true.mpr (toDigits_digits _)
  have hne : ¬ (Nat.toDigits 10 i.toInt.natAbs = [] ∨
      (Nat.toDigits 10 i.toInt.natAbs).all Char.isDigit = false) := by
    rw [hall]
    simp [hcons]
  have hscan : takeSign (showInt i.toInt) =
      (decide (i.toInt < 0), Nat.toDigits 10 i.toInt.natAbs) := by
    unfold showInt
    split
    · rename_i hneg
      rw [takeSign, decide_eq_true hneg]
    · rename_i hneg
      rw [hcons, takeSign_digit hd, decide_eq_false hneg]
  have hvalue : (if decide (i.toInt < 0) = true then -(i.toInt.natAbs : ℤ)
      else (i.toInt.natAbs : ℤ)) = i.toInt := by
    split
    · rename_i hneg
      have hneg := of_decide_eq_true hneg
      omega
    · rename_i hneg
      rw [decide_eq_true_iff] at hneg
      omega
  unfold parseI64
  rw [hscan]
  dsimp only
  rw [if_neg hne, Nat.ofDigitChars_ten_toDigits, hvalue, if_pos ⟨i.le_toInt, i.toInt_lt⟩,
    Int64.ofInt_toInt]

theorem number_showInt (fmt : Formats) (i : Int64) {rest : List Char} (hrest : Stops rest) :
    number fmt len (showInt i.toInt ++ rest) = .ok (.int i, rest) := by
  obtain ⟨sign, body, heq, hsign, rfl, -⟩ := showInt_split i.toInt
  obtain ⟨d, more, hcons, hd⟩ := toDigits_cons i.toInt.natAbs
  have hdigits := toDigits_digits i.toInt.natAbs
  rw [heq, number_split len fmt hsign hcons hd
    (fun c hc => isNumberChar_of_isDigit (hdigits c hc)) hrest]
  unfold scannedNumber
  dsimp only
  rw [if_neg (sign_ne hsign hcons hd), if_pos (List.all_eq_true.mpr hdigits), ← heq,
    parseI64_showInt]

theorem number_debugF64 (fmt : Formats) {f : Binary64} (hf : f.isFinite = true)
    {rest : List Char} (hrest : Stops rest) :
    number fmt len (fmt.debugF64 f ++ rest) = .ok (.float f, rest) := by
  obtain ⟨sign, body, heq, hsign, ⟨d, more, hcons, hd⟩, hbody, c, hc, hcd⟩ :=
    fmt.debugF64_shape f hf
  have hall : ¬ body.all Char.isDigit = true := by
    intro h
    exact absurd (List.all_eq_true.mp h c hc) (by rw [hcd]; exact Bool.false_ne_true)
  rw [heq, number_split len fmt hsign hcons hd hbody hrest]
  unfold scannedNumber floatNumber
  dsimp only
  rw [if_neg (sign_ne hsign hcons hd), if_neg hall, ← heq, fmt.parseF64_debugF64 f hf]

/-! ## Values -/

mutual

/-- How deep the text of a value nests. -/
def textDepth : Value → ℕ
  | .float f => if f.isFinite then 0 else 1
  | .decimal _ => 1
  | .timestamp _ => 1
  | .bytes b => if b = [] then 1 else 2
  | .array items => itemsDepth items
  | .object fields => fieldsDepth fields
  | _ => 0

def itemsDepth : List Value → ℕ
  | [] => 0
  | v :: vs => max (textDepth v + 1) (itemsDepth vs)

def fieldsDepth : List (String × Value) → ℕ
  | [] => 0
  | (_, v) :: fs => max (textDepth v + 1) (fieldsDepth fs)

end

mutual

/-- Every NaN as `f64::NAN`. -/
def canonNan : Value → Value
  | .float f => .float (if f.isNan then nan else f)
  | .array items => .array (canonItems items)
  | .object fields => .object (canonFields fields)
  | v => v

def canonItems : List Value → List Value
  | [] => []
  | v :: vs => canonNan v :: canonItems vs

def canonFields : List (String × Value) → List (String × Value)
  | [] => []
  | (k, v) :: fs => (k, canonNan v) :: canonFields fs

end

mutual

/-- No object is taken for a marker, every timestamp is in range, and every decimal has a text
that gives it back. -/
def Plain (fmt : Formats) : Value → Prop
  | .timestamp ms => isValidTimestampMs ms = true
  | .decimal d => fmt.parseDecimal (fmt.showDecimal d) = some d
  | .array items => plainItems fmt items
  | .object fields => decodeMarker fmt (canonFields fields) = .object (canonFields fields) ∧
      plainFields fmt fields
  | _ => True

def plainItems (fmt : Formats) : List Value → Prop
  | [] => True
  | v :: vs => Plain fmt v ∧ plainItems fmt vs

def plainFields (fmt : Formats) : List (String × Value) → Prop
  | [] => True
  | (_, v) :: fs => Plain fmt v ∧ plainFields fmt fs

end

theorem skipWs_cons {c : Char} (h : isWs c = false) (tail : List Char) :
    skipWs (c :: tail) = c :: tail := by
  simp [skipWs, h]

theorem isWs_of_isDigit {c : Char} (h : c.isDigit = true) : isWs c = false := by
  unfold isWs
  simp only [Bool.or_eq_false_iff, beq_eq_false_iff_ne]
  refine ⟨⟨⟨?_, ?_⟩, ?_⟩, ?_⟩
  all_goals
    rintro rfl
    exact absurd h (by decide)

theorem value_cons (fmt : Formats) (room : ℕ) {c : Char} (h : isWs c = false)
    (tail : List Char) : value fmt len (room + 1) (c :: tail) =
      valueBody fmt len (value fmt len room) (c :: tail) :=
  congrArg _ (skipWs_cons h tail)

theorem valueBody_bracket (fmt : Formats) (item : Parser Value) (tail : List Char) :
    valueBody fmt len item ('[' :: tail) = arrayBody len item tail := rfl

theorem valueBody_brace (fmt : Formats) (item : Parser Value) (tail : List Char) :
    valueBody fmt len item ('{' :: tail) = objectBody fmt len item tail := rfl

theorem value_number (fmt : Formats) (room : ℕ) {c : Char} (h : c = '-' ∨ c.isDigit = true)
    (tail : List Char) : value fmt len (room + 1) (c :: tail) = number fmt len (c :: tail) := by
  have hws : isWs c = false := by
    rcases h with rfl | hd
    · decide
    · exact isWs_of_isDigit hd
  have hother : c ≠ 'n' ∧ c ≠ 't' ∧ c ≠ 'f' ∧ c ≠ '"' ∧ c ≠ '[' ∧ c ≠ '{' := by
    rcases h with rfl | hd
    · decide
    · refine ⟨?_, ?_, ?_, ?_, ?_, ?_⟩
      all_goals
        rintro rfl
        exact absurd hd (by decide)
  obtain ⟨h1, h2, h3, h4, h5, h6⟩ := hother
  rw [value_cons len fmt room hws, valueBody, if_neg h1, if_neg h2, if_neg h3, if_neg h4,
    if_neg h5, if_neg h6, if_pos h]

theorem value_showInt (fmt : Formats) (room : ℕ) (i : Int64) {rest : List Char}
    (hrest : Stops rest) :
    value fmt len (room + 1) (showInt i.toInt ++ rest) = .ok (.int i, rest) := by
  have hnumber := number_showInt len fmt i hrest
  obtain ⟨d, more, hcons, hd⟩ := toDigits_cons i.toInt.natAbs
  unfold showInt at hnumber ⊢
  split at hnumber
  · rename_i hneg
    rw [if_pos hneg]
    exact (value_number len fmt room (.inl rfl) _).trans hnumber
  · rename_i hneg
    rw [if_neg hneg]
    rw [hcons] at hnumber ⊢
    exact (value_number len fmt room (.inr hd) _).trans hnumber

theorem value_debugF64 (fmt : Formats) (room : ℕ) {f : Binary64} (hf : f.isFinite = true)
    {rest : List Char} (hrest : Stops rest) :
    value fmt len (room + 1) (fmt.debugF64 f ++ rest) = .ok (.float f, rest) := by
  have hnumber := number_debugF64 len fmt hf hrest
  obtain ⟨sign, body, heq, hsign, ⟨d, more, hcons, hd⟩, -, -⟩ := fmt.debugF64_shape f hf
  rw [heq] at hnumber ⊢
  rcases hsign with rfl | rfl
  · rw [hcons] at hnumber ⊢
    exact (value_number len fmt room (.inr hd) _).trans hnumber
  · exact (value_number len fmt room (.inl rfl) _).trans hnumber

theorem value_writeString (fmt : Formats) (room : ℕ) (s : String) (rest : List Char) :
    value fmt len (room + 1) (writeString s ++ rest) = .ok (.str s, rest) := by
  have hstring := string_writeString len s rest
  rw [writeString, List.cons_append] at hstring ⊢
  rw [value_cons len fmt room (by decide)]
  show (string len _).map _ = _
  rw [hstring]
  rfl

/-- A key, the colon and what the item parser makes of the rest. -/
theorem field_eq_map (item : Parser Value) (k : String) (body : List Char) :
    field len item (writeString k ++ ':' :: body) =
      (item body).map fun p => ((k, p.1), p.2) := by
  have hws : skipWs (writeString k ++ ':' :: body) = writeString k ++ ':' :: body :=
    skipWs_cons (by decide) _
  have hcolon : expect len ':' (skipWs (':' :: body)) = .ok ((), body) := by
    rw [skipWs_cons (by decide), expect, if_pos rfl]
  unfold field
  rw [hws, string_writeString]
  dsimp only [bind, Except.bind]
  rw [hcolon]
  dsimp only
  cases item body <;> rfl

theorem field_writeString {item : Parser Value} {k : String} {body rest : List Char} {v : Value}
    (h : item (body ++ rest) = .ok (v, rest)) :
    field len item (writeString k ++ ':' :: body ++ rest) = .ok ((k, v), rest) := by
  rw [List.append_assoc, List.cons_append, field_eq_map, h]
  rfl

/-- A first key opens the loop over the fields. -/
theorem objectBody_quote (fmt : Formats) (item : Parser Value) (tail : List Char) :
    objectBody fmt len item ('"' :: tail) =
      fieldsLoop fmt len item (tail.length + 2) [] ('"' :: tail) := by
  unfold objectBody
  rw [skipWs_cons (by decide)]
  rfl

/-! ## Containers -/

theorem joinComma_cons_cons (item next : List Char) (rest : List (List Char)) :
    joinComma (item :: next :: rest) = item ++ ',' :: joinComma (next :: rest) := rfl

/-- There is a separator for each item after the first. -/
theorem length_le_joinComma (texts : List (List Char)) :
    texts.length ≤ (joinComma texts).length + 1 := by
  induction texts with
  | nil => exact Nat.zero_le _
  | cons item rest ih =>
    cases rest with
    | nil => exact Nat.le_add_left _ _
    | cons next rest =>
      rw [joinComma_cons_cons, List.length_append, List.length_cons (a := ','),
        List.length_cons]
      omega

/-- The text is read as `a`, up to where a number could not go on. -/
def ReadsAs {α : Type} (p : Parser α) (text : List Char) (a : α) : Prop :=
  ∀ rest, Stops rest → p (text ++ rest) = .ok (a, rest)

theorem itemsLoop_close {item : Parser Value} {text tail : List Char} {v : Value}
    (h : item text = .ok (v, ']' :: tail)) (fuel : ℕ) (acc : List Value) :
    itemsLoop len item (fuel + 1) acc text = .ok (.array (acc ++ [v]), tail) := by
  rw [itemsLoop, h]
  rfl

theorem itemsLoop_comma {item : Parser Value} {text tail : List Char} {v : Value}
    (h : item text = .ok (v, ',' :: tail)) (fuel : ℕ) (acc : List Value) :
    itemsLoop len item (fuel + 1) acc text = itemsLoop len item fuel (acc ++ [v]) tail := by
  rw [itemsLoop, h]
  rfl

theorem fieldsLoop_close (fmt : Formats) {item : Parser Value} {text tail : List Char}
    {k : String} {v : Value} (h : field len item text = .ok ((k, v), '}' :: tail)) (fuel : ℕ)
    (acc : List (String × Value)) :
    fieldsLoop fmt len item (fuel + 1) acc text =
      .ok (decodeMarker fmt (insertField k v acc), tail) := by
  rw [fieldsLoop, h]
  rfl

theorem fieldsLoop_comma (fmt : Formats) {item : Parser Value} {text tail : List Char}
    {k : String} {v : Value} (h : field len item text = .ok ((k, v), ',' :: tail)) (fuel : ℕ)
    (acc : List (String × Value)) :
    fieldsLoop fmt len item (fuel + 1) acc text =
      fieldsLoop fmt len item fuel (insertField k v acc) tail := by
  rw [fieldsLoop, h]
  rfl

theorem itemsLoop_reads {item : Parser Value} {texts : List (List Char)} {values : List Value}
    (h : List.Forall₂ (ReadsAs item) texts values) (hne : texts ≠ []) {fuel : ℕ}
    (hfuel : texts.length ≤ fuel) (acc : List Value) (rest : List Char) :
    itemsLoop len item fuel acc (joinComma texts ++ ']' :: rest) =
      .ok (.array (acc ++ values), rest) := by
  induction h generalizing fuel acc with
  | nil => exact absurd rfl hne
  | cons hread hrest ih =>
    rename_i text v texts values
    obtain ⟨fuel, rfl⟩ : ∃ n, fuel = n + 1 := Nat.exists_eq_succ_of_ne_zero (by
      rw [List.length_cons] at hfuel
      omega)
    cases hrest with
    | nil =>
      exact itemsLoop_close len (hread (']' :: rest) (stops_cons (by decide) _)) fuel acc
    | cons hnext hmore =>
      rw [joinComma_cons_cons, List.append_assoc, List.cons_append,
        itemsLoop_comma len (hread _ (stops_cons (by decide) _)),
        ih (List.cons_ne_nil _ _) (Nat.le_of_succ_le_succ hfuel), List.append_assoc]
      rfl

/-- Keys arrive in order, so each field is put last. -/
theorem fieldsLoop_reads (fmt : Formats) {item : Parser Value} {texts : List (List Char)}
    {fields : List (String × Value)} (h : List.Forall₂ (ReadsAs (field len item)) texts fields)
    (hne : texts ≠ []) {fuel : ℕ} (hfuel : texts.length ≤ fuel) (acc : List (String × Value))
    (hsorted : SortedKeys (acc ++ fields)) (rest : List Char) :
    fieldsLoop fmt len item fuel acc (joinComma texts ++ '}' :: rest) =
      .ok (decodeMarker fmt (acc ++ fields), rest) := by
  induction h generalizing fuel acc with
  | nil => exact absurd rfl hne
  | cons hread hrest ih =>
    rename_i text p texts fields
    obtain ⟨k, v⟩ := p
    obtain ⟨fuel, rfl⟩ : ∃ n, fuel = n + 1 := Nat.exists_eq_succ_of_ne_zero (by
      rw [List.length_cons] at hfuel
      omega)
    have hinsert : insertField k v acc = acc ++ [(k, v)] :=
      insertField_last (lt_of_sortedKeys_append hsorted)
    have hsorted' : SortedKeys ((acc ++ [(k, v)]) ++ fields) := by simpa using hsorted
    cases hrest with
    | nil =>
      rw [joinComma, fieldsLoop_close len fmt (hread ('}' :: rest) (stops_cons (by decide) _)),
        hinsert]
    | cons hnext hmore =>
      rw [joinComma_cons_cons, List.append_assoc, List.cons_append,
        fieldsLoop_comma len fmt (hread _ (stops_cons (by decide) _)), hinsert,
        ih (List.cons_ne_nil _ _) (Nat.le_of_succ_le_succ hfuel) _ hsorted', List.append_assoc]
      rfl

/-- No item looks like white space or a closing bracket. -/
def OpensItem (text : List Char) : Prop := ∃ c cs, text = c :: cs ∧ isWs c = false ∧ c ≠ ']'

theorem arrayBody_reads {item : Parser Value} {texts : List (List Char)} {values : List Value}
    (h : List.Forall₂ (ReadsAs item) texts values) (hopen : ∀ t ∈ texts, OpensItem t)
    (rest : List Char) :
    arrayBody len item (joinComma texts ++ ']' :: rest) = .ok (.array values, rest) := by
  cases h with
  | nil => rfl
  | cons hread hrest =>
    rename_i text v texts values
    have hfuel : (text :: texts).length ≤ (joinComma (text :: texts) ++ ']' :: rest).length + 1 := by
      have hlen := length_le_joinComma (text :: texts)
      rw [List.length_append]
      omega
    have hloop := itemsLoop_reads len (List.Forall₂.cons hread hrest) (List.cons_ne_nil _ _)
      hfuel [] rest
    obtain ⟨c, cs, heq, hws, hclose⟩ := hopen text List.mem_cons_self
    obtain ⟨tail, htail⟩ : ∃ tail, joinComma (text :: texts) ++ ']' :: rest = c :: tail := by
      cases texts with
      | nil => exact ⟨cs ++ ']' :: rest, by rw [joinComma, heq]; rfl⟩
      | cons next more =>
        rw [joinComma_cons_cons, heq]
        exact ⟨_, rfl⟩
    rw [htail] at hloop ⊢
    unfold arrayBody
    rw [skipWs_cons hws]
    split
    · rename_i heq'
      exact absurd (List.cons.inj heq').1 hclose
    · exact hloop

/-- A marker is an object with one field. -/
theorem value_marker (fmt : Formats) (room : ℕ) {key : String} {payload rest : List Char}
    {v : Value} (hkey : pushEscaped key.toList = key.toList)
    (h : value fmt len room (payload ++ '}' :: rest) = .ok (v, '}' :: rest)) :
    value fmt len (room + 1) (marker key payload ++ rest) =
      .ok (decodeMarker fmt [(key, v)], rest) := by
  have htext : marker key payload ++ rest =
      '{' :: (writeString key ++ ':' :: payload ++ '}' :: rest) := by
    simp [marker, writeString, hkey]
  have hfield := field_writeString len (k := key) h
  have hquote : writeString key ++ ':' :: payload ++ '}' :: rest =
      '"' :: (pushEscaped key.toList ++ ['"'] ++ ':' :: payload ++ '}' :: rest) := rfl
  rw [htext, value_cons len fmt room (by decide), valueBody_brace, hquote, objectBody_quote,
    ← hquote, fieldsLoop_close len fmt hfield]
  rfl

theorem objectBody_reads (fmt : Formats) {item : Parser Value} {texts : List (List Char)}
    {fields : List (String × Value)} (h : List.Forall₂ (ReadsAs (field len item)) texts fields)
    (hopen : ∀ t ∈ texts, ∃ cs, t = '"' :: cs) (hsorted : SortedKeys fields)
    (hplain : decodeMarker fmt fields = .object fields) (rest : List Char) :
    objectBody fmt len item (joinComma texts ++ '}' :: rest) = .ok (.object fields, rest) := by
  cases h with
  | nil => rfl
  | cons hread hrest =>
    rename_i text p texts fields
    have hfuel : (text :: texts).length ≤ (joinComma (text :: texts) ++ '}' :: rest).length + 1 := by
      have hlen := length_le_joinComma (text :: texts)
      rw [List.length_append]
      omega
    have hloop := fieldsLoop_reads len fmt (List.Forall₂.cons hread hrest) (List.cons_ne_nil _ _)
      hfuel [] hsorted rest
    obtain ⟨cs, heq⟩ := hopen text List.mem_cons_self
    obtain ⟨tail, htail⟩ : ∃ tail, joinComma (text :: texts) ++ '}' :: rest = '"' :: tail := by
      cases texts with
      | nil => exact ⟨cs ++ '}' :: rest, by rw [joinComma, heq]; rfl⟩
      | cons next more =>
        rw [joinComma_cons_cons, heq]
        exact ⟨_, rfl⟩
    rw [htail] at hloop ⊢
    rw [objectBody_quote]
    rw [List.nil_append, hplain] at hloop
    exact hloop

/-! ## Scalars -/

theorem ofFields_infinite {f : Binary64} (hfinite : f.isFinite = false) (hnan : f.isNan = false) :
    f = infinity ∨ f = negInfinity := by
  have hexp : f.expBits = 2047 := by simpa [Binary64.isFinite] using hfinite
  have hfrac : f.frac = 0 := by simpa [Binary64.isNan, hexp] using hnan
  have hlt : f.bits.toNat < 2 ^ 64 := f.bits.isLt
  unfold Binary64.expBits at hexp
  unfold Binary64.frac at hfrac
  have hbits : f.bits.toNat = 2047 * 2 ^ 52 ∨ f.bits.toNat = 2 ^ 63 + 2047 * 2 ^ 52 := by omega
  have hext : ∀ g : Binary64, f.bits.toNat = g.bits.toNat → f = g := by
    rintro ⟨bits⟩ heq
    cases f
    congr 1
    exact BitVec.eq_of_toNat_eq heq
  rcases hbits with h | h
  · exact .inl (hext infinity h)
  · exact .inr (hext negInfinity h)

theorem lt_zero_infinity : Binary64.lt Binary64.zero infinity = true ∧
    Binary64.lt Binary64.zero negInfinity = false := by
  have hmag : ∀ f : Binary64, f.expBits = 2047 → 0 < f.mag := by
    intro f hf
    rw [Binary64.mag, if_neg (by omega)]
    positivity
  have hzero : Binary64.zero.scaled = 0 := rfl
  have hpos : infinity.scaled = infinity.mag := if_neg (by decide)
  have hneg : negInfinity.scaled = -(negInfinity.mag : ℤ) := if_pos (by decide)
  have hinf := hmag infinity (by decide)
  have hninf := hmag negInfinity (by decide)
  constructor
  · rw [Binary64.lt, Binary64.partialCmp, if_neg (by decide), hzero, hpos,
      compare_lt_iff_lt.mpr (by omega)]
    rfl
  · rw [Binary64.lt, Binary64.partialCmp, if_neg (by decide), hzero, hneg,
      compare_gt_iff_gt.mpr (by omega)]
    rfl

/-- The marker of a float that is not finite. -/
theorem parseFloatMarker_text {f : Binary64} (h : f.isFinite = false) :
    parseFloatMarker (floatMarkerText f) = some (if f.isNan then nan else f) := by
  cases hnan : f.isNan with
  | true =>
    rw [floatMarkerText, hnan, if_pos rfl]
    rfl
  | false =>
    rcases ofFields_infinite h hnan with rfl | rfl
    · rw [floatMarkerText, hnan, if_neg Bool.false_ne_true, lt_zero_infinity.1]
      rfl
    · rw [floatMarkerText, hnan, if_neg Bool.false_ne_true, lt_zero_infinity.2]
      rfl

theorem markerBytes_ints (b : List UInt8) :
    markerBytes (b.map fun x => .int (Int64.ofInt x.toNat)) = some b := by
  induction b with
  | nil => rfl
  | cons x b ih =>
    have hlt : x.toNat < 256 := x.toNat_lt
    have hint : (Int64.ofInt x.toNat).toInt = x.toNat :=
      Int64.toInt_ofInt_of_le (by omega) (by omega)
    rw [List.map_cons, markerBytes, hint, if_pos (by omega), ih, Int.toNat_natCast,
      UInt8.ofNat_toNat]
    rfl

theorem escapable_of_isDigit {c : Char} (h : c.isDigit = true) : escapable c = false := by
  have hge : 48 ≤ c.toNat := by
    simp only [Char.isDigit, Bool.and_eq_true, decide_eq_true_eq] at h
    exact h.1
  unfold escapable
  simp only [Bool.or_eq_false_iff, beq_eq_false_iff_ne, decide_eq_false_iff_not]
  refine ⟨⟨⟨⟨⟨?_, ?_⟩, ?_⟩, ?_⟩, ?_⟩, by omega⟩
  all_goals
    rintro rfl
    exact absurd h (by decide)

theorem showDecimal_clean (fmt : Formats) (d : Decimal) :
    writeString (fmt.showDecimal d) = '"' :: ((fmt.showDecimal d).toList ++ ['"']) := by
  rw [writeString, pushEscaped_clean]
  intro c hc
  rcases fmt.showDecimal_chars d c hc with hd | rfl | rfl
  · exact escapable_of_isDigit hd
  · decide
  · decide

/-! ## Reading a written value -/

theorem writeValue_opens (fmt : Formats) (v : Value) : OpensItem (writeValue fmt v) := by
  have hint : ∀ i : ℤ, OpensItem (showInt i) := by
    intro i
    unfold showInt
    split
    · exact ⟨_, _, rfl, by decide, by decide⟩
    · obtain ⟨d, more, hcons, hd⟩ := toDigits_cons i.natAbs
      refine ⟨d, more, hcons, isWs_of_isDigit hd, ?_⟩
      rintro rfl
      exact absurd hd (by decide)
  cases v with
  | null => exact ⟨_, _, rfl, by decide, by decide⟩
  | bool b =>
    cases b with
    | true => exact ⟨_, _, rfl, by decide, by decide⟩
    | false => exact ⟨_, _, rfl, by decide, by decide⟩
  | int i => exact hint _
  | float f =>
    rw [writeValue]
    split
    · rename_i hf
      obtain ⟨sign, body, heq, hsign, ⟨d, more, hcons, hd⟩, -, -⟩ := fmt.debugF64_shape f hf
      rcases hsign with rfl | rfl
      · refine ⟨d, more, by rw [heq, hcons]; rfl, isWs_of_isDigit hd, ?_⟩
        rintro rfl
        exact absurd hd (by decide)
      · exact ⟨'-', body, heq, by decide, by decide⟩
    · exact ⟨_, _, rfl, by decide, by decide⟩
  | decimal d => exact ⟨_, _, rfl, by decide, by decide⟩
  | timestamp ms => exact ⟨_, _, rfl, by decide, by decide⟩
  | str s => exact ⟨_, _, rfl, by decide, by decide⟩
  | bytes b => exact ⟨_, _, rfl, by decide, by decide⟩
  | array items => exact ⟨_, _, rfl, by decide, by decide⟩
  | object fields => exact ⟨_, _, rfl, by decide, by decide⟩

theorem writeItems_opens (fmt : Formats) :
    ∀ items : List Value, ∀ t ∈ writeItems fmt items, OpensItem t
  | [], _, ht => by cases ht
  | v :: vs, t, ht => by
    rw [writeItems] at ht
    rcases List.mem_cons.mp ht with rfl | hmem
    · exact writeValue_opens fmt v
    · exact writeItems_opens fmt vs t hmem

theorem writeFields_opens (fmt : Formats) :
    ∀ fields : List (String × Value), ∀ t ∈ writeFields fmt fields, ∃ cs, t = '"' :: cs
  | [], _, ht => by cases ht
  | (k, v) :: fs, t, ht => by
    rw [writeFields] at ht
    rcases List.mem_cons.mp ht with rfl | hmem
    · exact ⟨_, rfl⟩
    · exact writeFields_opens fmt fs t hmem

theorem canonFields_keys (fields : List (String × Value)) (h : SortedKeys fields) :
    SortedKeys (canonFields fields) := by
  have hmap : ∀ fs : List (String × Value), (canonFields fs).map Prod.fst = fs.map Prod.fst := by
    intro fs
    induction fs with
    | nil => rfl
    | cons p fs ih => simp [canonFields, ih]
  unfold SortedKeys at h ⊢
  have hkeys : (fields.map Prod.fst).Pairwise fun a b => cmpStr a b = .lt :=
    List.pairwise_map.mpr h
  rw [← hmap] at hkeys
  exact List.pairwise_map.mp hkeys

/-- A scalar inside a marker. -/
theorem value_quotedMarker (fmt : Formats) (room : ℕ) {key text : String}
    (hkey : pushEscaped key.toList = key.toList)
    (htext : writeString text = '"' :: (text.toList ++ ['"'])) (rest : List Char) :
    value fmt len (room + 2) (marker key ('"' :: (text.toList ++ ['"'])) ++ rest) =
      .ok (decodeMarker fmt [(key, .str text)], rest) := by
  refine value_marker len fmt (room + 1) hkey ?_
  rw [← htext]
  exact value_writeString len fmt room text _

theorem toInt_byte (x : UInt8) : (Int64.ofInt x.toNat).toInt = x.toNat := by
  have hlt : x.toNat < 256 := x.toNat_lt
  exact Int64.toInt_ofInt_of_le (by omega) (by omega)

theorem value_bytes (fmt : Formats) (room : ℕ) (b : List UInt8)
    (hroom : (if b = [] then 1 else 2) < room) (rest : List Char) :
    value fmt len room (writeValue fmt (.bytes b) ++ rest) = .ok (.bytes b, rest) := by
  obtain ⟨room, rfl⟩ : ∃ n, room = n + 2 := ⟨room - 2, by split at hroom <;> omega⟩
  have hitems : List.Forall₂ (ReadsAs (value fmt len room))
      (b.map fun x => showInt x.toNat) (b.map fun x => .int (Int64.ofInt x.toNat)) := by
    rw [List.forall₂_map_left_iff, List.forall₂_map_right_iff, List.forall₂_same]
    intro x hx rest' hstop
    obtain ⟨more, rfl⟩ : ∃ n, room = n + 1 := by
      rw [if_neg (List.ne_nil_of_mem hx)] at hroom
      exact ⟨room - 1, by omega⟩
    have hread := value_showInt len fmt more (Int64.ofInt x.toNat) hstop
    rwa [toInt_byte] at hread
  have hopen : ∀ t ∈ b.map fun x => showInt x.toNat, OpensItem t := by
    intro t ht
    obtain ⟨x, -, rfl⟩ := List.mem_map.mp ht
    have hint := writeValue_opens fmt (.int (Int64.ofInt x.toNat))
    rwa [writeValue, toInt_byte] at hint
  have hpayload : value fmt len (room + 1)
      (('[' :: (joinComma (b.map fun x => showInt x.toNat) ++ [']'])) ++ '}' :: rest) =
        .ok (.array (b.map fun x => .int (Int64.ofInt x.toNat)), '}' :: rest) := by
    rw [List.cons_append, value_cons len fmt room (by decide), valueBody_bracket,
      List.append_assoc]
    exact arrayBody_reads len hitems hopen _
  have hkey : pushEscaped "$bytes".toList = "$bytes".toList := by decide
  rw [writeValue, value_marker len fmt (room + 1) hkey hpayload, decodeMarker, markerBytes_ints]
  rfl

mutual

theorem value_reads (fmt : Formats) {room : ℕ} : ∀ v : Value, v.WF → Plain fmt v →
    textDepth v < room → ReadsAs (value fmt len room) (writeValue fmt v) (canonNan v)
  | .null, _, _, hroom, rest, _ => by
    obtain ⟨room, rfl⟩ := Nat.exists_eq_add_of_lt hroom
    rfl
  | .bool b, _, _, hroom, rest, _ => by
    obtain ⟨room, rfl⟩ := Nat.exists_eq_add_of_lt hroom
    cases b with
    | true => rfl
    | false => rfl
  | .int i, _, _, hroom, rest, hrest => by
    obtain ⟨room, rfl⟩ := Nat.exists_eq_add_of_lt hroom
    exact value_showInt len fmt _ i hrest
  | .float f, _, _, hroom, rest, hrest => by
    rw [textDepth] at hroom
    rw [writeValue, canonNan]
    cases hf : f.isFinite with
    | true =>
      obtain ⟨room, rfl⟩ := Nat.exists_eq_add_of_lt hroom
      have hnan : f.isNan = false := by
        have hexp : f.expBits ≠ 2047 := by simpa [Binary64.isFinite] using hf
        simp [Binary64.isNan, hexp]
      rw [if_pos rfl, hnan, if_neg Bool.false_ne_true]
      exact value_debugF64 len fmt _ hf hrest
    | false =>
      rw [hf, if_neg Bool.false_ne_true] at hroom
      obtain ⟨room, rfl⟩ : ∃ n, room = n + 2 := ⟨room - 2, by omega⟩
      have hclean : writeString (floatMarkerText f) =
          '"' :: ((floatMarkerText f).toList ++ ['"']) := by
        unfold floatMarkerText
        split
        · decide
        · split
          · decide
          · decide
      have hkey : pushEscaped "$float".toList = "$float".toList := by decide
      rw [if_neg Bool.false_ne_true, value_quotedMarker len fmt room hkey hclean, decodeMarker,
        parseFloatMarker_text hf]
      rfl
  | .decimal d, _, hplain, hroom, rest, _ => by
    rw [textDepth] at hroom
    obtain ⟨room, rfl⟩ : ∃ n, room = n + 2 := ⟨room - 2, by omega⟩
    have hkey : pushEscaped "$dec".toList = "$dec".toList := by decide
    have hread := value_quotedMarker len fmt room hkey (showDecimal_clean fmt d) rest
    have hparse : fmt.parseDecimal (fmt.showDecimal d) = some d := hplain
    rw [decodeMarker, hparse] at hread
    exact hread
  | .timestamp ms, _, hplain, hroom, rest, _ => by
    rw [textDepth] at hroom
    obtain ⟨room, rfl⟩ : ∃ n, room = n + 2 := ⟨room - 2, by omega⟩
    have hkey : pushEscaped "$ts".toList = "$ts".toList := by decide
    have hread := value_marker len fmt (room + 1) hkey
      (value_showInt len fmt room ms (stops_cons (by decide) rest))
    have hvalid : isValidTimestampMs ms = true := hplain
    rw [decodeMarker, if_pos hvalid] at hread
    exact hread
  | .str s, _, _, hroom, rest, _ => by
    obtain ⟨room, rfl⟩ := Nat.exists_eq_add_of_lt hroom
    exact value_writeString len fmt _ s rest
  | .bytes b, _, _, hroom, rest, _ => value_bytes len fmt room b hroom rest
  | .array items, hwf, hplain, hroom, rest, _ => by
    obtain ⟨room, rfl⟩ : ∃ n, room = n + 1 := ⟨room - 1, by omega⟩
    rw [textDepth] at hroom
    have hitems := items_reads fmt items hwf hplain (Nat.le_of_lt_succ hroom)
    rw [writeValue, canonNan, List.cons_append, value_cons len fmt room (by decide),
      valueBody_bracket, List.append_assoc]
    exact arrayBody_reads len hitems (writeItems_opens fmt items) rest
  | .object fields, hwf, hplain, hroom, rest, _ => by
    obtain ⟨room, rfl⟩ : ∃ n, room = n + 1 := ⟨room - 1, by omega⟩
    rw [textDepth] at hroom
    have hfields := fields_reads fmt fields hwf.2 hplain.2 (Nat.le_of_lt_succ hroom)
    rw [writeValue, canonNan, List.cons_append, value_cons len fmt room (by decide),
      valueBody_brace, List.append_assoc]
    exact objectBody_reads len fmt hfields (writeFields_opens fmt fields)
      (canonFields_keys fields hwf.1) hplain.1 rest

theorem items_reads (fmt : Formats) {room : ℕ} : ∀ items : List Value, wfItems items →
    plainItems fmt items → itemsDepth items ≤ room →
    List.Forall₂ (ReadsAs (value fmt len room)) (writeItems fmt items) (canonItems items)
  | [], _, _, _ => .nil
  | v :: vs, hwf, hplain, hroom => by
    rw [itemsDepth] at hroom
    exact .cons (value_reads fmt v hwf.1 hplain.1 (by omega))
      (items_reads fmt vs hwf.2 hplain.2 (by omega))

theorem fields_reads (fmt : Formats) {room : ℕ} : ∀ fields : List (String × Value),
    wfFields fields → plainFields fmt fields → fieldsDepth fields ≤ room →
    List.Forall₂ (ReadsAs (field len (value fmt len room))) (writeFields fmt fields)
      (canonFields fields)
  | [], _, _, _ => .nil
  | (k, v) :: fs, hwf, hplain, hroom => by
    rw [fieldsDepth] at hroom
    refine .cons (fun rest hrest => ?_) (fields_reads fmt fs hwf.2 hplain.2 (by omega))
    exact field_writeString len (value_reads fmt v hwf.1 hplain.1 (by omega) rest hrest)

end

end Reader

/-! ## What the parser returns -/

section Sound

variable {fmt : Formats} {len : ℕ}

/-- The values that are read back as they are. -/
structure Sound (fmt : Formats) (v : Value) : Prop where
  wf : v.WF
  plain : Plain fmt v
  canon : canonNan v = v

theorem sound_array {items : List Value} (h : ∀ v ∈ items, Sound fmt v) :
    Sound fmt (.array items) := by
  have hitems : wfItems items ∧ plainItems fmt items ∧ canonItems items = items := by
    induction items with
    | nil => exact ⟨trivial, trivial, rfl⟩
    | cons v vs ih =>
      obtain ⟨hwf, hplain, hcanon⟩ := ih fun w hw => h w (List.mem_cons_of_mem _ hw)
      have hv := h v List.mem_cons_self
      exact ⟨⟨hv.wf, hwf⟩, ⟨hv.plain, hplain⟩, by rw [canonItems, hv.canon, hcanon]⟩
  exact ⟨hitems.1, hitems.2.1, congrArg Value.array hitems.2.2⟩

theorem sound_fields {fields : List (String × Value)} (h : ∀ p ∈ fields, Sound fmt p.2) :
    wfFields fields ∧ plainFields fmt fields ∧ canonFields fields = fields := by
  induction fields with
  | nil => exact ⟨trivial, trivial, rfl⟩
  | cons p fs ih =>
    obtain ⟨k, v⟩ := p
    obtain ⟨hwf, hplain, hcanon⟩ := ih fun q hq => h q (List.mem_cons_of_mem _ hq)
    have hv := h (k, v) List.mem_cons_self
    exact ⟨⟨hv.wf, hwf⟩, ⟨hv.plain, hplain⟩, by rw [canonFields, hv.canon, hcanon]⟩

theorem parseFloatMarker_canon {s : String} {f : Binary64} (h : parseFloatMarker s = some f) :
    (if f.isNan then nan else f) = f := by
  unfold parseFloatMarker at h
  split at h
  · cases h
    rfl
  · split at h
    · cases h
      rfl
    · split at h
      · cases h
        rfl
      · cases h

/-- An object stays, or it is one of the four scalars. -/
theorem decodeMarker_cases (fmt : Formats) (obj : List (String × Value)) :
    decodeMarker fmt obj = .object obj ∨
      (∃ d, fmt.parseDecimal (fmt.showDecimal d) = some d ∧ decodeMarker fmt obj = .decimal d) ∨
      (∃ f : Binary64, (if f.isNan then nan else f) = f ∧ decodeMarker fmt obj = .float f) ∨
      (∃ ms, isValidTimestampMs ms = true ∧ decodeMarker fmt obj = .timestamp ms) ∨
      ∃ b, decodeMarker fmt obj = .bytes b := by
  unfold decodeMarker
  split
  · rename_i s
    cases hparse : fmt.parseDecimal s with
    | none => exact .inl rfl
    | some d => exact .inr (.inl ⟨d, fmt.parseDecimal_again s d hparse, rfl⟩)
  · rename_i s
    cases hparse : parseFloatMarker s with
    | none => exact .inl rfl
    | some f => exact .inr (.inr (.inl ⟨f, parseFloatMarker_canon hparse, rfl⟩))
  · split
    · rename_i ms hvalid
      exact .inr (.inr (.inr (.inl ⟨ms, hvalid, rfl⟩)))
    · exact .inl rfl
  · rename_i items
    cases markerBytes items with
    | none => exact .inl rfl
    | some b => exact .inr (.inr (.inr (.inr ⟨b, rfl⟩)))
  · exact .inl rfl

/-- A shape that does not qualify is kept, so it does not qualify the next time. -/
theorem decodeMarker_sound {obj : List (String × Value)} (hsorted : SortedKeys obj)
    (hobj : ∀ p ∈ obj, Sound fmt p.2) : Sound fmt (decodeMarker fmt obj) := by
  obtain ⟨hwf, hplain, hcanon⟩ := sound_fields hobj
  rcases decodeMarker_cases fmt obj with
    heq | ⟨d, hparse, heq⟩ | ⟨f, hf, heq⟩ | ⟨ms, hvalid, heq⟩ | ⟨b, heq⟩
  · rw [heq]
    refine ⟨⟨hsorted, hwf⟩, ⟨?_, hplain⟩, congrArg Value.object hcanon⟩
    rw [hcanon]
    exact heq
  · rw [heq]
    exact ⟨trivial, hparse, rfl⟩
  · rw [heq]
    exact ⟨trivial, trivial, congrArg Value.float hf⟩
  · rw [heq]
    exact ⟨trivial, hvalid, rfl⟩
  · rw [heq]
    exact ⟨trivial, trivial, rfl⟩

theorem insertField_sorted {k : String} {v : Value} {fs : List (String × Value)}
    (h : SortedKeys fs) : SortedKeys (insertField k v fs) := by
  induction fs with
  | nil => exact List.pairwise_singleton _ _
  | cons q fs ih =>
    obtain ⟨k', v'⟩ := q
    obtain ⟨hhead, htail⟩ := List.pairwise_cons.mp h
    rw [insertField]
    split
    · rename_i hlt
      refine List.pairwise_cons.mpr ⟨fun p hp => ?_, h⟩
      rcases List.mem_cons.mp hp with rfl | hmem
      · exact hlt
      · exact Std.TransCmp.lt_trans hlt (hhead p hmem)
    · rename_i heq
      refine List.pairwise_cons.mpr ⟨fun p hp => ?_, htail⟩
      exact Std.TransCmp.lt_of_eq_of_lt heq (hhead p hp)
    · rename_i hgt
      refine List.pairwise_cons.mpr ⟨fun p hp => ?_, ih htail⟩
      rcases mem_insertField hp with rfl | hmem
      · exact Std.OrientedCmp.gt_iff_lt.mp hgt
      · exact hhead p hmem

theorem itemsLoop_sound {item : Parser Value}
    (hitem : ∀ rest v left, item rest = .ok (v, left) → Sound fmt v) {fuel : ℕ}
    {acc : List Value} {rest left : List Char} {v : Value} (hacc : ∀ w ∈ acc, Sound fmt w)
    (h : itemsLoop len item fuel acc rest = .ok (v, left)) : Sound fmt v := by
  induction fuel generalizing acc rest with
  | zero => cases h
  | succ fuel ih =>
    rw [itemsLoop] at h
    split at h
    · cases h
    · rename_i w rest' hread
      have hacc' : ∀ x ∈ acc ++ [w], Sound fmt x := by
        intro x hx
        rcases List.mem_append.mp hx with hold | hnew
        · exact hacc x hold
        · obtain rfl := List.mem_singleton.mp hnew
          exact hitem _ _ _ hread
      split at h
      · exact ih hacc' h
      · cases h
        exact sound_array hacc'
      · cases h

theorem field_eq_ok {item : Parser Value} {rest left : List Char} {p : String × Value}
    (h : field len item rest = .ok (p, left)) : ∃ rest', item rest' = .ok (p.2, left) := by
  unfold field at h
  obtain ⟨⟨k, rest₁⟩, -, h⟩ := Except.bind_eq_ok_iff.mp h
  obtain ⟨⟨⟨⟩, rest₂⟩, -, h⟩ := Except.bind_eq_ok_iff.mp h
  obtain ⟨⟨v, rest₃⟩, hitem, h⟩ := Except.bind_eq_ok_iff.mp h
  cases h
  exact ⟨rest₂, hitem⟩

theorem fieldsLoop_sound {item : Parser Value}
    (hitem : ∀ rest v left, item rest = .ok (v, left) → Sound fmt v) {fuel : ℕ}
    {acc : List (String × Value)} {rest left : List Char} {v : Value} (hsorted : SortedKeys acc)
    (hacc : ∀ p ∈ acc, Sound fmt p.2)
    (h : fieldsLoop fmt len item fuel acc rest = .ok (v, left)) : Sound fmt v := by
  induction fuel generalizing acc rest with
  | zero => cases h
  | succ fuel ih =>
    rw [fieldsLoop] at h
    split at h
    · cases h
    · rename_i k w rest' hread
      obtain ⟨rest'', hvalue⟩ := field_eq_ok hread
      have hsorted' : SortedKeys (insertField k w acc) := insertField_sorted hsorted
      have hacc' : ∀ p ∈ insertField k w acc, Sound fmt p.2 := by
        intro p hp
        rcases mem_insertField hp with rfl | hold
        · exact hitem _ _ _ hvalue
        · exact hacc p hold
      split at h
      · exact ih hsorted' hacc' h
      · cases h
        exact decodeMarker_sound hsorted' hacc'
      · cases h

theorem floatNumber_sound {sign body left rest : List Char} {start : ℕ} {v : Value}
    (hsign : ∀ c ∈ sign, isNumberChar c = true) (hbody : ∀ c ∈ body, isNumberChar c = true)
    (h : floatNumber fmt (sign ++ body) left start = .ok (v, rest)) : Sound fmt v := by
  unfold floatNumber at h
  split at h
  · rename_i f hparse
    cases h
    have hnan : f.isNan = false := fmt.parseF64_number _ f (by
      intro c hc
      rcases List.mem_append.mp hc with h | h
      · exact hsign c h
      · exact hbody c h) hparse
    refine ⟨trivial, trivial, ?_⟩
    rw [canonNan, hnan, if_neg Bool.false_ne_true]
  · cases h

theorem number_sound {rest left : List Char} {v : Value}
    (h : number fmt len rest = .ok (v, left)) : Sound fmt v := by
  unfold number at h
  have hsign : ∀ c ∈ (takeMinus rest).1, isNumberChar c = true := by
    unfold takeMinus
    split
    · intro c hc
      obtain rfl := List.mem_singleton.mp hc
      decide
    · intro c hc
      cases hc
  have hbody : ∀ c ∈ (takeMinus rest).2.takeWhile isNumberChar, isNumberChar c = true :=
    fun c hc => List.mem_takeWhile_imp hc
  generalize takeMinus rest = parts at h hsign hbody
  obtain ⟨sign, tail⟩ := parts
  dsimp only at h hsign hbody
  unfold scannedNumber at h
  dsimp only at h
  split at h
  · cases h
  · split at h
    · split at h
      · cases h
        exact ⟨trivial, trivial, rfl⟩
      · exact floatNumber_sound hsign hbody h
    · exact floatNumber_sound hsign hbody h

theorem lit_sound {word : String} {w v : Value} {rest left : List Char} (hw : Sound fmt w)
    (h : lit len word w rest = .ok (v, left)) : Sound fmt v := by
  unfold lit at h
  split at h
  · cases h
    exact hw
  · cases h

theorem valueBody_sound {item : Parser Value}
    (hitem : ∀ rest v left, item rest = .ok (v, left) → Sound fmt v) {rest left : List Char}
    {v : Value} (h : valueBody fmt len item rest = .ok (v, left)) : Sound fmt v := by
  unfold valueBody at h
  split at h
  · cases h
  split at h
  · exact lit_sound (w := .null) ⟨trivial, trivial, rfl⟩ h
  split at h
  · exact lit_sound (w := .bool true) ⟨trivial, trivial, rfl⟩ h
  split at h
  · exact lit_sound (w := .bool false) ⟨trivial, trivial, rfl⟩ h
  split at h
  · rename_i c tail _ _ _ _
    cases hstring : string len (c :: tail) with
    | error e =>
      rw [hstring] at h
      cases h
    | ok p =>
      rw [hstring] at h
      cases h
      exact ⟨trivial, trivial, rfl⟩
  split at h
  · unfold arrayBody at h
    split at h
    · cases h
      exact sound_array fun _ hv => by cases hv
    · exact itemsLoop_sound hitem (fun _ hw => by cases hw) h
  split at h
  · unfold objectBody at h
    split at h
    · cases h
      exact ⟨⟨List.Pairwise.nil, trivial⟩, ⟨rfl, trivial⟩, rfl⟩
    · exact fieldsLoop_sound hitem List.Pairwise.nil (fun _ hp => by cases hp) h
  split at h
  · exact number_sound h
  · cases h

theorem value_sound {room : ℕ} {rest left : List Char} {v : Value}
    (h : value fmt len room rest = .ok (v, left)) : Sound fmt v := by
  induction room generalizing rest v left with
  | zero => cases h
  | succ room ih =>
    rw [value] at h
    exact valueBody_sound (fun _ _ _ hread => ih hread) h

theorem fromText_sound {s : String} {v : Value} (h : fromText fmt s = .ok v) : Sound fmt v := by
  unfold fromText at h
  obtain ⟨⟨w, rest⟩, hvalue, h⟩ := Except.bind_eq_ok_iff.mp h
  dsimp only at h
  split at h
  · cases h
    exact value_sound hvalue
  · cases h

/-- A text that opens with no white space goes to `value` whole. -/
theorem fromText_ofList {text : List Char} (hopen : OpensItem text) :
    fromText fmt (String.ofList text) =
      (value fmt (String.ofList text).utf8ByteSize (maxDepth + 1) text).bind fun p =>
        if skipWs p.2 = [] then .ok p.1
        else .error (.trailing (pos (String.ofList text).utf8ByteSize (skipWs p.2))) := by
  obtain ⟨c, cs, hcons, hws, -⟩ := hopen
  have hskip : skipWs text = text := by
    rw [hcons]
    exact skipWs_cons hws cs
  unfold fromText
  dsimp only
  rw [String.toList_ofList, hskip]
  rfl

theorem fromText_reads {text : List Char} {v : Value} (hopen : OpensItem text)
    (h : ∀ len, ReadsAs (value fmt len (maxDepth + 1)) text v) :
    fromText fmt (String.ofList text) = .ok v := by
  have hread := h (String.ofList text).utf8ByteSize [] stops_nil
  rw [List.append_nil] at hread
  rw [fromText_ofList hopen, hread]
  rfl

/-- A value without markers and with its text inside the bound. -/
theorem fromText_toText {v : Value} (hwf : v.WF) (hplain : Plain fmt v)
    (hdepth : textDepth v ≤ maxDepth) : fromText fmt (toText fmt v) = .ok (canonNan v) :=
  fromText_reads (writeValue_opens fmt v) fun len =>
    value_reads len fmt v hwf hplain (Nat.lt_succ_of_le hdepth)

end Sound

/-! ## The round trip -/

def markerKeys : List String := ["$dec", "$float", "$ts", "$bytes"]

mutual

/-- No object has one of the marker keys alone, and every timestamp is in range. -/
def Unmarked : Value → Prop
  | .timestamp ms => isValidTimestampMs ms = true
  | .array items => unmarkedItems items
  | .object fields => (∀ k v, fields = [(k, v)] → k ∉ markerKeys) ∧ unmarkedFields fields
  | _ => True

def unmarkedItems : List Value → Prop
  | [] => True
  | v :: vs => Unmarked v ∧ unmarkedItems vs

def unmarkedFields : List (String × Value) → Prop
  | [] => True
  | (_, v) :: fs => Unmarked v ∧ unmarkedFields fs

end

theorem decodeMarker_of_unmarked (fmt : Formats) {obj : List (String × Value)}
    (h : ∀ k v, obj = [(k, v)] → k ∉ markerKeys) : decodeMarker fmt obj = .object obj := by
  unfold decodeMarker
  split
  · exact absurd (by decide) (h "$dec" _ rfl)
  · exact absurd (by decide) (h "$float" _ rfl)
  · exact absurd (by decide) (h "$ts" _ rfl)
  · exact absurd (by decide) (h "$bytes" _ rfl)
  · rfl

mutual

theorem plain_of_unmarked {fmt : Formats}
    (hinv : ∀ d, fmt.parseDecimal (fmt.showDecimal d) = some d) :
    ∀ v : Value, Unmarked v → Plain fmt v
  | .null, _ => trivial
  | .bool _, _ => trivial
  | .int _, _ => trivial
  | .float _, _ => trivial
  | .decimal d, _ => hinv d
  | .timestamp _, h => h
  | .str _, _ => trivial
  | .bytes _, _ => trivial
  | .array items, h => plainItems_of_unmarked hinv items h
  | .object fields, h => by
    refine ⟨decodeMarker_of_unmarked fmt fun k w heq => ?_,
      plainFields_of_unmarked hinv fields h.2⟩
    match fields, heq with
    | [(k', v)], heq =>
      rw [canonFields, canonFields] at heq
      obtain ⟨hp, -⟩ := List.cons.inj heq
      obtain rfl : k' = k := congrArg Prod.fst hp
      exact h.1 k' v rfl

theorem plainItems_of_unmarked {fmt : Formats}
    (hinv : ∀ d, fmt.parseDecimal (fmt.showDecimal d) = some d) :
    ∀ items : List Value, unmarkedItems items → plainItems fmt items
  | [], _ => trivial
  | v :: vs, h => ⟨plain_of_unmarked hinv v h.1, plainItems_of_unmarked hinv vs h.2⟩

theorem plainFields_of_unmarked {fmt : Formats}
    (hinv : ∀ d, fmt.parseDecimal (fmt.showDecimal d) = some d) :
    ∀ fields : List (String × Value), unmarkedFields fields → plainFields fmt fields
  | [], _ => trivial
  | (_, v) :: fs, h => ⟨plain_of_unmarked hinv v h.1, plainFields_of_unmarked hinv fs h.2⟩

end

/-- Written values are read back with every constructor, every NaN as `f64::NAN`, and
what the parser accepts is read back from its own text, as long as that text nests no
deeper than the bound. -/
theorem text_round_trip (fmt : Formats)
    (hinv : ∀ d, fmt.parseDecimal (fmt.showDecimal d) = some d) :
    (∀ v : Value, v.WF → textDepth v ≤ maxDepth → Unmarked v →
      fromText fmt (toText fmt v) = .ok (canonNan v)) ∧
    ∀ (s : String) (v : Value), fromText fmt s = .ok v → textDepth v ≤ maxDepth →
      fromText fmt (toText fmt v) = .ok v := by
  constructor
  · intro v hwf hdepth hdomain
    exact fromText_toText hwf (plain_of_unmarked hinv v hdomain) hdepth
  · intro s v hread hdepth
    have hsound := fromText_sound hread
    rw [fromText_toText hsound.wf hsound.plain hdepth, hsound.canon]

end Docsql.Json
