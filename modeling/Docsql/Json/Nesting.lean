import Docsql.Json.RoundTrip

/-!
# Texts at the deepest level

A number that overflows is read as an infinity, which is written as a marker:
one level more than the literal took.
-/

namespace Docsql.Json

/-! ## Nested brackets -/

/-- A value inside `n` arrays. -/
def nested : ℕ → Value → Value
  | 0, v => v
  | n + 1, v => .array [nested n v]

def brackets : ℕ → List Char → List Char
  | 0, text => text
  | n + 1, text => '[' :: (brackets n text ++ [']'])

theorem writeValue_nested (fmt : Formats) (n : ℕ) (v : Value) :
    writeValue fmt (nested n v) = brackets n (writeValue fmt v) := by
  induction n with
  | zero => rfl
  | succ n ih =>
    rw [nested, writeValue, writeItems, writeItems, joinComma, ih]
    rfl

theorem brackets_opens {text : List Char} (h : OpensItem text) (n : ℕ) :
    OpensItem (brackets n text) := by
  cases n with
  | zero => exact h
  | succ n => exact ⟨'[', _, rfl, by decide, by decide⟩

section Reader

variable (fmt : Formats) (len : ℕ)

theorem value_brackets {room : ℕ} {text : List Char} {v : Value} (hopen : OpensItem text)
    (h : ReadsAs (value fmt len room) text v) (n : ℕ) :
    ReadsAs (value fmt len (room + n)) (brackets n text) (nested n v) := by
  induction n with
  | zero => exact h
  | succ n ih =>
    intro rest _
    have hitems : List.Forall₂ (ReadsAs (value fmt len (room + n))) [brackets n text]
        [nested n v] := .cons ih .nil
    have hopens : ∀ t ∈ [brackets n text], OpensItem t := by
      intro t ht
      rw [List.mem_singleton.1 ht]
      exact brackets_opens hopen n
    have hbody := arrayBody_reads len hitems hopens rest
    rw [joinComma] at hbody
    rw [brackets, List.cons_append, List.append_assoc, ← add_assoc,
      value_cons len fmt (room + n) (by decide), valueBody_bracket]
    exact hbody

/-- The first item of an array decides whether it is read. -/
theorem arrayBody_error {item : Parser Value} {text : List Char} {e : JsonError}
    (hopen : OpensItem text) (h : item text = .error e) :
    arrayBody len item text = .error e := by
  obtain ⟨c, cs, rfl, hws, hclose⟩ := hopen
  unfold arrayBody
  rw [skipWs_cons hws]
  split
  · rename_i heq
    exact absurd (List.cons.inj heq).1 hclose
  · rw [itemsLoop, h]

theorem OpensItem.append {text : List Char} (h : OpensItem text) (rest : List Char) :
    OpensItem (text ++ rest) := by
  obtain ⟨c, cs, rfl, hws, hclose⟩ := h
  exact ⟨c, cs ++ rest, rfl, hws, hclose⟩

theorem value_brackets_error {room : ℕ} {text : List Char} {e : JsonError}
    (hopen : OpensItem text) (h : ∀ rest, value fmt len room (text ++ rest) = .error e) (n : ℕ)
    (rest : List Char) : value fmt len (room + n) (brackets n text ++ rest) = .error e := by
  induction n generalizing rest with
  | zero => exact h rest
  | succ n ih =>
    rw [brackets, List.cons_append, List.append_assoc, ← add_assoc,
      value_cons len fmt (room + n) (by decide), valueBody_bracket]
    exact arrayBody_error len ((brackets_opens hopen n).append _) (ih _)

/-- A marker does not fit in the last level. -/
theorem value_marker_deep {key : String} (hkey : pushEscaped key.toList = key.toList)
    (payload rest : List Char) :
    value fmt len 1 (marker key payload ++ rest) = .error (.depth maxDepth) := by
  have htext : marker key payload ++ rest =
      '{' :: (writeString key ++ ':' :: (payload ++ '}' :: rest)) := by
    simp [marker, writeString, hkey]
  have hquote : writeString key ++ ':' :: (payload ++ '}' :: rest) =
      '"' :: (pushEscaped key.toList ++ ['"'] ++ ':' :: (payload ++ '}' :: rest)) := rfl
  rw [htext, value_cons len fmt 0 (by decide), valueBody_brace, hquote, objectBody_quote,
    ← hquote, fieldsLoop, field_eq_map]
  rfl

end Reader

/-- A number text at the deepest level. -/
theorem fromText_brackets (fmt : Formats) {c : Char} {cs : List Char} {f : Binary64}
    (hc : c.isDigit = true) (hcs : ∀ d ∈ c :: cs, isNumberChar d = true)
    (hall : (c :: cs).all Char.isDigit = false) (hparse : fmt.parseF64 (c :: cs) = some f) :
    fromText fmt (String.ofList (brackets maxDepth (c :: cs))) =
      .ok (nested maxDepth (.float f)) := by
  have hopen : OpensItem (c :: cs) := by
    refine ⟨c, cs, rfl, isWs_of_isDigit hc, ?_⟩
    rintro rfl
    exact absurd hc (by decide)
  have hread (len : ℕ) : ReadsAs (value fmt len 1) (c :: cs) (.float f) := by
    intro rest hstop
    have hnumber := number_split len fmt (.inl rfl) rfl hc hcs hstop
    rw [List.nil_append] at hnumber
    rw [List.cons_append, value_number len fmt 0 (.inr hc), ← List.cons_append, hnumber]
    have hsign : ¬([] ++ c :: cs = [] ∨ [] ++ c :: cs = ['-']) := sign_ne (.inl rfl) rfl hc
    rw [scannedNumber, if_neg hsign, hall, if_neg Bool.false_ne_true, floatNumber,
      List.nil_append, hparse]
  refine fromText_reads (brackets_opens hopen maxDepth) fun len => ?_
  have hvalue := value_brackets fmt len hopen (hread len) maxDepth
  rwa [add_comm] at hvalue

/-- The text of an infinity there takes one level more. -/
theorem fromText_toText_infinity (fmt : Formats) :
    fromText fmt (toText fmt (nested maxDepth (.float infinity))) = .error (.depth maxDepth) := by
  have hopen := writeValue_opens fmt (.float infinity)
  have hmarker : writeValue fmt (.float infinity) =
      marker "$float" ('"' :: ((floatMarkerText infinity).toList ++ ['"'])) := by
    rw [writeValue, if_neg (by decide)]
  have hdeep (len : ℕ) (rest : List Char) :
      value fmt len 1 (writeValue fmt (.float infinity) ++ rest) = .error (.depth maxDepth) := by
    rw [hmarker]
    exact value_marker_deep fmt len (by decide) _ rest
  have hvalue (len : ℕ) := value_brackets_error fmt len hopen (hdeep len) maxDepth []
  unfold toText
  rw [writeValue_nested, fromText_ofList (brackets_opens hopen maxDepth), add_comm,
    ← List.append_nil (brackets _ _), hvalue]
  rfl

/-! ## Formats that can be run -/

/-- `Display` of a decimal: the integer part, and the fraction at its full scale. -/
def decimalChars (d : Decimal) : List Char :=
  let sign := if d.neg then ['-'] else []
  let whole := Nat.toDigits 10 (d.mantissa / 10 ^ d.scale)
  let digits := Nat.toDigits 10 (d.mantissa % 10 ^ d.scale)
  let fraction :=
    if d.scale = 0 then [] else '.' :: (List.replicate (d.scale - digits.length) '0' ++ digits)
  sign ++ (whole ++ fraction)

def decimalOfParts (neg : Bool) (whole fraction : List Char) : Option Decimal :=
  let mantissa := Nat.ofDigitChars 10 (whole ++ fraction) 0
  if h : mantissa < 2 ^ 96 ∧ fraction.length ≤ 28 then
    some ⟨⟨neg, mantissa, fraction.length⟩, h.1, h.2⟩
  else none

def readDecimal (text : List Char) : Option Decimal :=
  let (sign, body) := takeMinus text
  decimalOfParts (sign == ['-']) (body.takeWhile Char.isDigit)
    ((body.dropWhile Char.isDigit).drop 1)

theorem decimalOfParts_eq {d : Decimal} {whole fraction : List Char}
    (hmantissa : Nat.ofDigitChars 10 (whole ++ fraction) 0 = d.mantissa)
    (hscale : fraction.length = d.scale) : decimalOfParts d.neg whole fraction = some d := by
  obtain ⟨⟨neg, mantissa, scale⟩, hlt, hle⟩ := d
  dsimp only at hmantissa hscale ⊢
  subst hmantissa hscale
  exact dif_pos ⟨hlt, hle⟩

theorem length_fraction (d : Decimal) (h : d.scale ≠ 0) :
    (Nat.toDigits 10 (d.mantissa % 10 ^ d.scale)).length ≤ d.scale :=
  (Nat.length_toDigits_le_iff (by norm_num) (Nat.pos_of_ne_zero h)).2
    (Nat.mod_lt _ (Nat.pow_pos (by norm_num)))

/-- The digits of both parts in a row are the mantissa. -/
theorem ofDigitChars_parts (d : Decimal) (h : d.scale ≠ 0) :
    Nat.ofDigitChars 10 (Nat.toDigits 10 (d.mantissa / 10 ^ d.scale) ++
      (List.replicate (d.scale - (Nat.toDigits 10 (d.mantissa % 10 ^ d.scale)).length) '0' ++
        Nat.toDigits 10 (d.mantissa % 10 ^ d.scale))) 0 = d.mantissa := by
  have hlen := length_fraction d h
  rw [Nat.ofDigitChars_append, Nat.ofDigitChars_append, Nat.ofDigitChars_ten_toDigits,
    Nat.ofDigitChars_replicate_zero, Nat.ofDigitChars_eq_ofDigitChars_zero,
    Nat.ofDigitChars_ten_toDigits, ← mul_assoc, ← pow_add, Nat.add_sub_cancel' hlen]
  exact Nat.div_add_mod _ _

theorem takeMinus_sign {body : List Char} {c : Char} {rest : List Char} (hbody : body = c :: rest)
    (hc : c.isDigit = true) (neg : Bool) :
    takeMinus ((if neg then ['-'] else []) ++ body) = (if neg then ['-'] else [], body) := by
  cases neg with
  | true => rfl
  | false =>
    rw [hbody]
    exact takeMinus_digit hc rest

/-- Digits up to an end or a point. -/
theorem takeWhile_digits {whole fraction : List Char} (hwhole : ∀ c ∈ whole, c.isDigit = true)
    (hfraction : fraction = [] ∨ ∃ more, fraction = '.' :: more) :
    (whole ++ fraction).takeWhile Char.isDigit = whole ∧
      (whole ++ fraction).dropWhile Char.isDigit = fraction := by
  rw [List.takeWhile_append_of_pos hwhole, List.dropWhile_append_of_pos hwhole]
  rcases hfraction with rfl | ⟨more, rfl⟩
  · simp
  · simp

theorem readDecimal_parts {whole fraction : List Char} {c : Char} {more : List Char}
    (hcons : whole = c :: more) (hwhole : ∀ c ∈ whole, c.isDigit = true)
    (hfraction : fraction = [] ∨ ∃ more, fraction = '.' :: more) (neg : Bool) :
    readDecimal ((if neg then ['-'] else []) ++ (whole ++ fraction)) =
      decimalOfParts neg whole (fraction.drop 1) := by
  have hc : c.isDigit = true := hwhole c (hcons ▸ List.mem_cons_self)
  have hbody : whole ++ fraction = c :: (more ++ fraction) := by
    rw [hcons]
    rfl
  obtain ⟨htake, hdrop⟩ := takeWhile_digits hwhole hfraction
  unfold readDecimal
  rw [takeMinus_sign hbody hc]
  dsimp only
  rw [htake, hdrop]
  cases neg <;> rfl

theorem readDecimal_decimalChars (d : Decimal) : readDecimal (decimalChars d) = some d := by
  have hwhole := toDigits_digits (d.mantissa / 10 ^ d.scale)
  obtain ⟨c, more, hcons, -⟩ := toDigits_cons (d.mantissa / 10 ^ d.scale)
  unfold decimalChars
  dsimp only
  by_cases hscale : d.scale = 0
  · rw [if_pos hscale, readDecimal_parts hcons hwhole (.inl rfl)]
    refine decimalOfParts_eq ?_ hscale.symm
    rw [hscale, pow_zero, Nat.div_one, List.drop_nil, List.append_nil,
      Nat.ofDigitChars_ten_toDigits]
  · rw [if_neg hscale, readDecimal_parts hcons hwhole (.inr ⟨_, rfl⟩)]
    refine decimalOfParts_eq (ofDigitChars_parts d hscale) ?_
    rw [List.drop_one, List.tail_cons, List.length_append, List.length_replicate,
      Nat.sub_add_cancel (length_fraction d hscale)]

theorem decimalChars_chars (d : Decimal) :
    ∀ c ∈ decimalChars d, c.isDigit = true ∨ c = '.' ∨ c = '-' := by
  intro c hc
  unfold decimalChars at hc
  simp only [List.mem_append] at hc
  rcases hc with hsign | hwhole | hfraction
  · split at hsign
    · exact .inr (.inr (List.mem_singleton.1 hsign))
    · cases hsign
  · exact .inl (toDigits_digits _ c hwhole)
  · split at hfraction
    · cases hfraction
    · rcases List.mem_cons.1 hfraction with rfl | hdigits
      · exact .inr (.inl rfl)
      · rcases List.mem_append.1 hdigits with hzero | hdigit
        · rw [List.eq_of_mem_replicate hzero]
          exact .inl rfl
        · exact .inl (toDigits_digits _ c hdigit)

/-- Finite floats by their bits, except for the texts of `3.0` and `-0.0`. -/
def three : Binary64 := Binary64.ofFields false 1024 (2 ^ 51)
def negZero : Binary64 := Binary64.ofFields true 0 0

def floatChars (f : Binary64) : List Char :=
  if f = three then "3.0".toList
  else if f = negZero then "-0.0".toList
  else Nat.toDigits 10 f.bits.toNat ++ ['.']

def readFloat (text : List Char) : Option Binary64 :=
  if text = "3.0".toList then some three
  else if text = "-0.0".toList then some negZero
  else if text = "1e999".toList then some infinity
  else
    let f : Binary64 := ⟨BitVec.ofNat 64 (Nat.ofDigitChars 10 text.dropLast 0)⟩
    if f.isFinite then some f else none

theorem readFloat_floatChars {f : Binary64} (h : f.isFinite = true) :
    readFloat (floatChars f) = some f := by
  unfold floatChars
  split
  · rename_i hthree
    rw [hthree]
    rfl
  · split
    · rename_i hzero
      rw [hzero]
      rfl
    · have hpoint (text : List Char) (hc : text.getLast? ≠ some '.') :
          Nat.toDigits 10 f.bits.toNat ++ ['.'] ≠ text := by
        rintro rfl
        exact hc List.getLast?_concat
      have hthree := hpoint "3.0".toList (by decide)
      have hzero := hpoint "-0.0".toList (by decide)
      have hhuge := hpoint "1e999".toList (by decide)
      have hbits : (⟨BitVec.ofNat 64 f.bits.toNat⟩ : Binary64) = f := by
        rw [BitVec.ofNat_toNat, BitVec.setWidth_eq]
      unfold readFloat
      rw [if_neg hthree, if_neg hzero, if_neg hhuge]
      dsimp only
      rw [List.dropLast_concat, Nat.ofDigitChars_ten_toDigits, hbits, if_pos h]

theorem isNan_readFloat {text : List Char} {f : Binary64} (h : readFloat text = some f) :
    f.isNan = false := by
  unfold readFloat at h
  split at h
  · cases h
    decide
  · split at h
    · cases h
      decide
    · split at h
      · cases h
        decide
      · dsimp only at h
        split at h
        · rename_i hfinite
          cases h
          exact Binary64.isNan_of_isFinite hfinite
        · cases h

theorem floatChars_shape (f : Binary64) : ∃ sign body, floatChars f = sign ++ body ∧
    (sign = [] ∨ sign = ['-']) ∧ (∃ d rest, body = d :: rest ∧ d.isDigit = true) ∧
    (∀ c ∈ body, isNumberChar c = true) ∧ ∃ c ∈ body, c.isDigit = false := by
  unfold floatChars
  split
  · exact ⟨[], "3.0".toList, rfl, .inl rfl, ⟨_, _, rfl, rfl⟩, List.all_eq_true.1 rfl, '.',
      List.mem_of_elem_eq_true rfl, rfl⟩
  · split
    · exact ⟨['-'], "0.0".toList, rfl, .inr rfl, ⟨_, _, rfl, rfl⟩, List.all_eq_true.1 rfl, '.',
        List.mem_of_elem_eq_true rfl, rfl⟩
    · obtain ⟨d, more, hcons, hd⟩ := toDigits_cons f.bits.toNat
      refine ⟨[], _, rfl, .inl rfl, ⟨d, more ++ ['.'], by rw [hcons]; rfl, hd⟩, ?_,
        '.', List.mem_append_right _ (List.mem_singleton.2 rfl), rfl⟩
      intro c hc
      rcases List.mem_append.1 hc with hdigit | hpoint
      · exact isNumberChar_of_isDigit (toDigits_digits _ c hdigit)
      · rw [List.mem_singleton.1 hpoint]
        rfl

theorem showDecimal_chars (d : Decimal) (c : Char)
    (hc : c ∈ (String.ofList (decimalChars d)).toList) : c.isDigit ∨ c = '.' ∨ c = '-' := by
  rw [String.toList_ofList] at hc
  exact decimalChars_chars d c hc

/-- Formats with the laws of the real ones. -/
def sampleFormats : Formats where
  debugF64 := floatChars
  parseF64 := readFloat
  showDecimal d := String.ofList (decimalChars d)
  parseDecimal s := readDecimal s.toList
  debugF64_shape f _ := floatChars_shape f
  parseF64_debugF64 _ h := readFloat_floatChars h
  parseF64_number _ _ _ h := isNan_readFloat h
  showDecimal_chars := showDecimal_chars
  parseDecimal_showDecimal d _ := by rw [String.toList_ofList, readDecimal_decimalChars]
  parseDecimal_again _ d _ := by rw [String.toList_ofList, readDecimal_decimalChars]

/-- Minus ten and a half, with a zero behind it. -/
def sampleDecimal : Decimal := ⟨⟨true, 1050, 2⟩, by decide, by decide⟩

/-- What the text of every value gives back, run on one with all kinds of scalars. -/
def sampleValue : Value :=
  .array [.float three, .float negZero, .str "a\x07\n\"é", .bytes [0, 255],
    .decimal sampleDecimal, .timestamp 1700000000000,
    .object [("$dec", .int 1), ("k", .array [.null, .bool true, .int (-7)])]]

theorem text_round_trip_sample :
    fromText sampleFormats (toText sampleFormats sampleValue) = .ok sampleValue := by
  have hsorted : SortedKeys [("$dec", Value.int 1), ("k", .array [.null, .bool true, .int (-7)])] :=
    List.pairwise_pair.2 (by decide)
  have hwf : sampleValue.WF := by
    simp [sampleValue, Value.WF, wfItems, wfFields, hsorted]
  have hplain : Unmarked sampleValue := by
    have htime : isValidTimestampMs 1700000000000 = true := by decide
    refine ⟨trivial, trivial, trivial, trivial, trivial, htime, ⟨?_, ?_⟩, trivial⟩
    · intro k v h
      cases h
    · exact ⟨trivial, ⟨trivial, trivial, trivial, trivial⟩, trivial⟩
  have hinv : ∀ d, sampleFormats.parseDecimal (sampleFormats.showDecimal d) = some d := by
    intro d
    unfold sampleFormats
    dsimp only
    rw [String.toList_ofList, readDecimal_decimalChars]
  exact (text_round_trip sampleFormats hinv).1 sampleValue hwf (by decide) hplain

def payloadNan : Binary64 := Binary64.ofFields true 2047 1

/-- `1e999` inside 128 arrays is accepted, and what it was read as is not; a NaN comes back
without its payload. -/
theorem overflowing_literal_not_read_back :
    (fromText sampleFormats (String.ofList (brackets 128 "1e999".toList)) =
        .ok (nested 128 (.float infinity)) ∧
      fromText sampleFormats (toText sampleFormats (nested 128 (.float infinity))) =
        .error (.depth 128)) ∧
    fromText sampleFormats (toText sampleFormats (.float payloadNan)) ≠
      .ok (.float payloadNan) := by
  refine ⟨⟨?_, fromText_toText_infinity sampleFormats⟩, ?_⟩
  · exact fromText_brackets sampleFormats rfl (List.all_eq_true.1 rfl) rfl rfl
  · have hread : fromText sampleFormats (toText sampleFormats (.float payloadNan)) =
        .ok (canonNan (.float payloadNan)) := fromText_toText trivial trivial (by decide)
    rw [hread]
    intro h
    have hnan : nan = payloadNan := by
      injection h with hvalue
      rw [canonNan, if_pos (by decide)] at hvalue
      injection hvalue
    exact absurd hnan (by decide)

end Docsql.Json
