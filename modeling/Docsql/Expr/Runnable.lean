import Docsql.Expr.Literal
import Docsql.Scalar.Total
import Mathlib

/-!
# A library and a parser that can be run

Number texts, decimal arithmetic and a reader of literals that have the laws of the real ones.
-/

namespace Docsql.Expr

open Docsql.Scalar

/-! ## Floats -/


/-- Finite floats by the bits of their magnitude. -/
def magnitudeChars (f : Binary64) : List Char :=
  Nat.toDigits 10 (f.bits.toNat % 2 ^ 63) ++ ['.', '0']

def floatLiteral (f : Binary64) : List Char :=
  (if f.isSignNegative then ['-'] else []) ++ magnitudeChars f

def wholeFloat (n : ℕ) : Binary64 := Binary64.roundMag false (n * 2 ^ 1074)

theorem isNan_wholeFloat (n : ℕ) : (wholeFloat n).isNan = false := by
  unfold wholeFloat
  exact Binary64.isNan_roundMag _ _

/-- Whole numbers, the markers, and what `magnitudeChars` writes. -/
def readMagnitude (text : List Char) : Option Binary64 :=
  if text = "NaN".toList then some Json.nan
  else if text = "inf".toList then some Json.infinity
  else if text.all Char.isDigit then
    some (wholeFloat (Nat.ofDigitChars 10 text 0))
  else
    let f : Binary64 := ⟨BitVec.ofNat 64 (Nat.ofDigitChars 10 text.dropLast.dropLast 0 % 2 ^ 63)⟩
    if f.isFinite then some f else none

def readSigned : List Char → Option Binary64
  | '-' :: body => (readMagnitude body).map negF64
  | text => readMagnitude text

theorem bits_negF64 (f : Binary64) :
    (negF64 f).bits.toNat / 2 ^ 63 = f.bits.toNat / 2 ^ 63 ^^^ 1 ∧
      (negF64 f).bits.toNat % 2 ^ 63 = f.bits.toNat % 2 ^ 63 := by
  unfold negF64
  rw [BitVec.toNat_xor, Nat.xor_div_two_pow, Nat.xor_mod_two_pow]
  exact ⟨rfl, Nat.xor_zero _⟩

theorem isNan_negF64 (f : Binary64) : (negF64 f).isNan = f.isNan := by
  have hfinite := isFinite_negF64 f
  have hfrac : (negF64 f).frac = f.frac := by
    unfold Binary64.frac negF64
    rw [BitVec.toNat_xor, Nat.xor_mod_two_pow]
    exact Nat.xor_zero _
  rw [Binary64.isFinite, Binary64.isFinite] at hfinite
  have hexp : ((negF64 f).expBits == 2047) = (f.expBits == 2047) := Bool.not_inj hfinite
  rw [Binary64.isNan, Binary64.isNan, hexp, hfrac]

/-- The float with the same magnitude and no sign. -/
def magnitude (f : Binary64) : Binary64 := ⟨BitVec.ofNat 64 (f.bits.toNat % 2 ^ 63)⟩

theorem magnitude_eq (f : Binary64) :
    (f.isSignNegative = true → negF64 (magnitude f) = f) ∧
      (f.isSignNegative = false → magnitude f = f) := by
  have hlt : f.bits.toNat < 2 ^ 64 := f.bits.isLt
  have hbits : (magnitude f).bits.toNat = f.bits.toNat % 2 ^ 63 := by
    rw [magnitude, BitVec.toNat_ofNat]
    omega
  have hext {g : Binary64} (h : g.bits.toNat = f.bits.toNat) : g = f := by
    cases g
    cases f
    exact congrArg Binary64.mk (BitVec.eq_of_toNat_eq h)
  constructor
  · intro hneg
    have hge : 2 ^ 63 ≤ f.bits.toNat := of_decide_eq_true hneg
    obtain ⟨hdiv, hmod⟩ := bits_negF64 (magnitude f)
    rw [hbits] at hdiv hmod
    have hzero : f.bits.toNat % 2 ^ 63 / 2 ^ 63 = 0 := by omega
    rw [hzero, Nat.zero_xor] at hdiv
    apply hext
    omega
  · intro hpos
    have hlt' : ¬ 2 ^ 63 ≤ f.bits.toNat := of_decide_eq_false hpos
    apply hext
    rw [hbits]
    omega

theorem magnitudeChars_cons (f : Binary64) :
    ∃ d more, magnitudeChars f = d :: more ∧ d.isDigit = true := by
  obtain ⟨d, more, hcons, hd⟩ := Json.toDigits_cons (f.bits.toNat % 2 ^ 63)
  exact ⟨d, more ++ ['.', '0'], by rw [magnitudeChars, hcons]; rfl, hd⟩

theorem readMagnitude_chars (f : Binary64) :
    readMagnitude (magnitudeChars f) =
      if (magnitude f).isFinite then some (magnitude f) else none := by
  obtain ⟨d, more, hcons, hd⟩ := magnitudeChars_cons f
  have hword {c : Char} (cs : List Char) (hc : c.isDigit = false) :
      magnitudeChars f ≠ c :: cs := by
    rw [hcons]
    intro heq
    rw [(List.cons.inj heq).1, hc] at hd
    cases hd
  have hall : ¬ (magnitudeChars f).all Char.isDigit = true := by
    intro hall
    have hpoint := List.all_eq_true.mp hall '.'
      (List.mem_append_right _ List.mem_cons_self)
    exact absurd hpoint (by decide)
  have hdrop : (magnitudeChars f).dropLast.dropLast = Nat.toDigits 10 (f.bits.toNat % 2 ^ 63) := by
    have hsplit : magnitudeChars f = (Nat.toDigits 10 (f.bits.toNat % 2 ^ 63) ++ ['.']) ++ ['0'] := by
      rw [magnitudeChars, List.append_assoc]
      rfl
    rw [hsplit, List.dropLast_concat, List.dropLast_concat]
  have hnan : magnitudeChars f ≠ "NaN".toList := hword ['a', 'N'] (by decide)
  have hinf : magnitudeChars f ≠ "inf".toList := hword ['n', 'f'] (by decide)
  unfold readMagnitude
  rw [if_neg hnan, if_neg hinf, if_neg hall, hdrop,
    Nat.ofDigitChars_ten_toDigits, Nat.mod_mod]
  rfl

theorem readSigned_digit {d : Char} (hd : d.isDigit = true) (more : List Char) :
    readSigned (d :: more) = readMagnitude (d :: more) := by
  unfold readSigned
  split
  · rename_i heq
    cases heq
    exact absurd hd (by decide)
  · rfl

theorem readSigned_floatLiteral {f : Binary64} (h : f.isFinite = true) :
    readSigned (floatLiteral f) = some f := by
  obtain ⟨hneg, hpos⟩ := magnitude_eq f
  obtain ⟨d, more, hcons, hd⟩ := magnitudeChars_cons f
  have hread := readMagnitude_chars f
  unfold floatLiteral
  cases hsign : f.isSignNegative with
  | true =>
    have heq := hneg hsign
    have hfinite : (magnitude f).isFinite = true := by rw [← isFinite_negF64, heq, h]
    rw [hfinite, if_pos rfl] at hread
    change (readMagnitude (magnitudeChars f)).map negF64 = some f
    rw [hread, Option.map_some, heq]
  | false =>
    have heq := hpos hsign
    rw [heq, h, if_pos rfl, hcons] at hread
    change readSigned (magnitudeChars f) = some f
    rw [hcons, readSigned_digit hd, hread]

theorem isNan_readMagnitude {text : List Char} {f : Binary64}
    (htext : ∀ c ∈ text, Json.isNumberChar c = true) (h : readMagnitude text = some f) :
    f.isNan = false := by
  unfold readMagnitude at h
  split at h
  · rename_i heq
    rw [heq] at htext
    exact absurd (htext 'N' (by decide)) (by decide)
  · split at h
    · cases h
      decide
    · split at h
      · rw [← Option.some.inj h]
        exact isNan_wholeFloat _
      · dsimp only at h
        split at h
        · rename_i hfinite
          cases h
          exact Binary64.isNan_of_isFinite hfinite
        · cases h

theorem isNan_readSigned {text : List Char} {f : Binary64}
    (htext : ∀ c ∈ text, Json.isNumberChar c = true) (h : readSigned text = some f) :
    f.isNan = false := by
  unfold readSigned at h
  split at h
  · obtain ⟨g, hg, rfl⟩ := Option.map_eq_some_iff.mp h
    rw [isNan_negF64]
    exact isNan_readMagnitude (fun c hc => htext c (List.mem_cons_of_mem _ hc)) hg
  · exact isNan_readMagnitude htext h

theorem magnitudeChars_token (f : Binary64) :
    NumberToken (magnitudeChars f) ∧ ∃ c ∈ magnitudeChars f, c.isDigit = false := by
  refine ⟨⟨_, ['.', '0'], [], by rw [List.append_nil]; rfl, Nat.toDigits_ne_nil,
    Json.toDigits_digits _, .inr ⟨['0'], rfl, ?_⟩, .inl rfl⟩, '.', ?_, by decide⟩
  · intro c hc
    rw [List.mem_singleton.mp hc]
    decide
  · exact List.mem_append_right _ List.mem_cons_self

/-! ## The library -/

/-- The number as it is read: no sign for a zero. -/
def unsignZero (d : Decimal) : Decimal := if d.mantissa = 0 then { d with neg := false } else d

def literalFormats : Json.Formats where
  debugF64 := floatLiteral
  parseF64 := readSigned
  showDecimal d := String.ofList (Json.decimalChars d)
  parseDecimal s := (Json.readDecimal s.toList).map unsignZero
  debugF64_shape f _ := by
    obtain ⟨-, c, hc, hdigit⟩ := magnitudeChars_token f
    refine ⟨_, _, rfl, ?_, magnitudeChars_cons f, ?_, c, hc, hdigit⟩
    · cases f.isSignNegative with
      | true => exact .inr rfl
      | false => exact .inl rfl
    · intro c hc
      rcases List.mem_append.mp hc with hdigit | hpoint
      · exact Json.isNumberChar_of_isDigit (Json.toDigits_digits _ c hdigit)
      · rcases List.mem_pair.mp hpoint with rfl | rfl
        · rfl
        · rfl
  parseF64_debugF64 _ h := readSigned_floatLiteral h
  parseF64_number _ _ htext h := isNan_readSigned htext h
  showDecimal_chars := Json.showDecimal_chars
  parseDecimal_showDecimal d h := by
    rw [String.toList_ofList, Json.readDecimal_decimalChars, Option.map_some, unsignZero]
    split_ifs with hzero
    · have hneg : d.neg = false := Bool.eq_false_iff.mpr fun htrue => h htrue hzero
      rw [← hneg]
    · rfl
  parseDecimal_again text d h := by
    obtain ⟨d', -, rfl⟩ := Option.map_eq_some_iff.mp h
    rw [String.toList_ofList, Json.readDecimal_decimalChars, Option.map_some]
    unfold unsignZero
    split_ifs with hzero
    · rfl
    · rfl

theorem parseF64_markers {f : Binary64} (h : f.isFinite = false) :
    readSigned (Json.floatMarkerText f).toList = some (if f.isNan then Json.nan else f) := by
  cases hnan : f.isNan with
  | true =>
    rw [Json.floatMarkerText, hnan, if_pos rfl]
    rfl
  | false =>
    rcases Json.ofFields_infinite h hnan with rfl | rfl
    · rw [Json.floatMarkerText, hnan, if_neg Bool.false_ne_true, Json.lt_zero_infinity.1]
      rfl
    · rw [Json.floatMarkerText, hnan, if_neg Bool.false_ne_true, Json.lt_zero_infinity.2]
      rfl

theorem toUpper_of_isUpper {c : Char} (h : c.isUpper = true ∨ c = '_') : c.toUpper = c := by
  refine dif_neg ?_
  rintro ⟨hlow, -⟩
  rcases h with hupper | rfl
  · simp only [Char.isUpper, decide_eq_true_eq] at hupper
    exact absurd (UInt32.le_trans hlow hupper.2) (by decide)
  · exact absurd hlow (by decide)

/-- A library with the laws of the real one. -/
def sampleLibrary : TextLibrary where
  toFormats := literalFormats
  displayF64 f := String.ofList (floatLiteral f)
  displayF64Tenths f := String.ofList (floatLiteral f)
  debug _ := ""
  intToF64 i := if i.toInt < 0 then negF64 (wholeFloat i.toInt.natAbs) else wholeFloat i.toInt.natAbs
  decimalToF64 _ := none
  absF64 f := f
  addF64 _ _ := Json.nan
  subF64 _ _ := Json.nan
  mulF64 _ _ := Json.nan
  divF64 _ _ := Json.nan
  remF64 _ _ := Json.nan
  powiTen _ := Json.nan
  roundF64 f := f
  truncF64 f := f
  fromF64Retain _ := none
  checkedAdd _ _ := none
  checkedSub _ _ := none
  checkedMul := sampleMul
  checkedDiv := sampleDiv
  checkedRem _ _ := none
  roundDp := sampleRoundDp
  roundDp_zero := Scalar.sampleLibrary.roundDp_zero
  div_exact := Scalar.sampleLibrary.div_exact
  div_small := Scalar.sampleLibrary.div_small
  mul_integer := Scalar.sampleLibrary.mul_integer
  debugText s := s
  displayLiteral _ := ""
  displayExpr _ := ""
  upper s := String.ofList (s.toList.map Char.toUpper)
  lowerFirst c := c.toLower
  likeMatch s pattern _ := s == pattern
  otherFunction name _ := fail name
  otherFunction_aggregate _ _ _ _ := nofun
  debugF64_token f _ := by
    obtain ⟨htoken, hpoint⟩ := magnitudeChars_token f
    refine ⟨_, _, rfl, ?_, htoken, hpoint⟩
    cases f.isSignNegative with
    | true => exact .inr rfl
    | false => exact .inl rfl
  parseF64_minus n h := by
    obtain ⟨whole, fraction, exponent, rfl, hne, hdigits, -, -⟩ := h
    obtain ⟨d, whole, rfl⟩ := List.exists_cons_of_ne_nil hne
    exact congrArg (Option.map negF64) (readSigned_digit (hdigits d List.mem_cons_self) _).symm
  parseF64_marker _ h := parseF64_markers h
  upper_upper s h := by
    rw [List.map_congr_left fun c hc => toUpper_of_isUpper (h c hc), List.map_id',
      String.ofList_toList]

/-! ## The parser -/

/-- A quoted text up to its closing quote, and what follows it. -/
def readQuoted : List Char → Option (List Char × List Char)
  | '\x27' :: '\x27' :: rest => (readQuoted rest).map fun p => ('\x27' :: p.1, p.2)
  | '\x27' :: rest => some ([], rest)
  | c :: rest => (readQuoted rest).map fun p => (c :: p.1, p.2)
  | [] => none

theorem readQuoted_cons {c : Char} (h : c ≠ '\x27') (rest : List Char) :
    readQuoted (c :: rest) = (readQuoted rest).map fun p => (c :: p.1, p.2) := by
  rw [readQuoted]
  · exact fun _ heq _ => h heq
  · exact h

theorem readQuoted_close {rest : List Char} (h : rest.head? ≠ some '\x27') :
    readQuoted ('\x27' :: rest) = some ([], rest) := by
  cases rest with
  | nil => rfl
  | cons d rest =>
    rw [readQuoted]
    rintro rest' heq
    rw [(List.cons.inj heq).1] at h
    exact h rfl

theorem readQuoted_escaped (s : List Char) {rest : List Char} (h : rest.head? ≠ some '\x27') :
    readQuoted (s.flatMap (fun c => if c = '\x27' then [c, c] else [c]) ++ '\x27' :: rest) =
      some (s, rest) := by
  induction s with
  | nil => exact readQuoted_close h
  | cons c s ih =>
    rw [List.flatMap_cons, List.append_assoc]
    by_cases hc : c = '\x27'
    · subst hc
      rw [if_pos rfl]
      change readQuoted ('\x27' :: '\x27' :: (s.flatMap _ ++ '\x27' :: rest)) = _
      rw [readQuoted, ih]
      rfl
    · rw [if_neg hc, List.singleton_append, readQuoted_cons hc, ih]
      rfl

theorem readQuoted_literal (s : String) (rest : List Char) (h : rest.head? ≠ some '\x27') :
    readQuoted ((sqlStringLiteral s).drop 1 ++ rest) = some (s.toList, rest) := by
  have hsplit : (sqlStringLiteral s).drop 1 ++ rest =
      s.toList.flatMap (fun c => if c = '\x27' then [c, c] else [c]) ++ '\x27' :: rest := by
    rw [sqlStringLiteral, List.drop_one, List.tail_cons, List.append_assoc]
    rfl
  rw [hsplit, readQuoted_escaped s.toList h]

def quotedText (text : List Char) : Option SqlExpr :=
  (readQuoted text).map fun p => .value (.singleQuotedString (String.ofList p.1))

/-- Behind `CAST('`: the text, ` AS `, the type and the parenthesis. -/
def quotedCast (text : List Char) : Option SqlExpr :=
  (readQuoted text).map fun p =>
    .cast false (.value (.singleQuotedString (String.ofList p.1)))
      (String.ofList (p.2.drop 4).dropLast)

def quotedCall (text : List Char) : Option SqlExpr :=
  (readQuoted text).map fun p =>
    .function "JSON_EXTRACT" false [some (.value (.singleQuotedString (String.ofList p.1)))]

/-- The expressions literals are made of, by their first character. -/
def sampleParse (text : List Char) : Option SqlExpr :=
  match text with
  | [] => none
  | c :: rest =>
    if c = '\x27' then quotedText rest
    else if c = 'N' then some (.value .null)
    else if c = 'T' then some (.value (.boolean true))
    else if c = 'F' then some (.value (.boolean false))
    else if c = 'C' then quotedCast (rest.drop 5)
    else if c = 'J' then quotedCall (rest.drop 13)
    else if c = 'x' then
      some (.value (.hexStringLiteral (String.ofList ((rest.drop 1).takeWhile (· ≠ '\x27')))))
    else if c = '-' then some (.unaryOp .minus (.value (.number (String.ofList rest))))
    else if c.isDigit then some (.value (.number (String.ofList text)))
    else none

theorem sampleParse_digit {d : Char} (h : d.isDigit = true) (rest : List Char) :
    sampleParse (d :: rest) = some (.value (.number (String.ofList (d :: rest)))) := by
  have hne {c : Char} (hc : c.isDigit = false) : d ≠ c := by
    rintro rfl
    rw [h] at hc
    cases hc
  rw [sampleParse, if_neg (hne (by decide)), if_neg (hne (by decide)), if_neg (hne (by decide)),
    if_neg (hne (by decide)), if_neg (hne (by decide)), if_neg (hne (by decide)),
    if_neg (hne (by decide)), if_neg (hne (by decide)), if_pos h]

theorem hexText_unquoted (b : List UInt8) :
    (hexText b ++ ['\x27']).takeWhile (· ≠ '\x27') = hexText b := by
  have hplain : ∀ n < 16, Nat.digitChar n ≠ '\x27' := by decide
  have hall : ∀ c ∈ hexText b, decide (c ≠ '\x27') = true := by
    intro c hc
    obtain ⟨x, -, hx⟩ := List.mem_flatMap.mp hc
    rcases List.mem_pair.mp hx with rfl | rfl
    · exact decide_eq_true (hplain _ (Nat.mod_lt _ (by norm_num)))
    · exact decide_eq_true (hplain _ (Nat.mod_lt _ (by norm_num)))
  rw [List.takeWhile_append_of_pos hall]
  exact List.append_nil _

def sampleParser : Parser where
  parseExpr := sampleParse
  parse_null := rfl
  parse_bool b := by cases b <;> rfl
  parse_number n h := by
    obtain ⟨whole, fraction, exponent, rfl, hne, hdigits, -, -⟩ := h
    obtain ⟨d, whole, rfl⟩ := List.exists_cons_of_ne_nil hne
    exact sampleParse_digit (hdigits d List.mem_cons_self) _
  parse_minus n _ := rfl
  parse_string s := by
    have hread := readQuoted_literal s [] nofun
    rw [List.append_nil] at hread
    change quotedText ((sqlStringLiteral s).drop 1) = _
    rw [quotedText, hread, Option.map_some, String.ofList_toList]
  parse_hex b := by
    have hread := hexText_unquoted b
    change some (SqlExpr.value (.hexStringLiteral (String.ofList
      ((hexText b ++ ['\x27']).takeWhile (· ≠ '\x27'))))) = _
    rw [hread]
  parse_cast s dataType h := by
    have hread := readQuoted_literal s (" AS ".toList ++ (dataType.toList ++ [')'])) nofun
    change quotedCast ((sqlStringLiteral s).drop 1 ++ _) = _
    rw [quotedCast, hread, Option.map_some, String.ofList_toList]
    change some (SqlExpr.cast false _ (String.ofList (dataType.toList ++ [')']).dropLast)) = _
    rw [List.dropLast_concat, String.ofList_toList]
  parse_json fmt v := by
    have hread := readQuoted_literal (Json.toText fmt v) [')'] nofun
    change quotedCall ((sqlStringLiteral (Json.toText fmt v)).drop 1 ++ _) = _
    rw [quotedCall, hread, Option.map_some, String.ofList_toList]

end Docsql.Expr
