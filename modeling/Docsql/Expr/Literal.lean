import Mathlib.Data.Bool.AllAny
import Docsql.Expr.Eval
import Docsql.Json.Exact
import Docsql.Lib.StateExcept
import Docsql.Timestamp.RoundTrip

/-!
# Literals

The SQL text of a value, as dumps and replicated statements carry it, and what folding that
text gives back.
-/

namespace Docsql.Expr

open Docsql.Scalar

/-! ## Writer -/

/-- `sql_string_literal` -/
def sqlStringLiteral (s : String) : List Char :=
  '\x27' :: (s.toList.flatMap (fun c => if c = '\x27' then [c, c] else [c]) ++ ['\x27'])

def castLiteral (text dataType : String) : List Char :=
  "CAST(".toList ++ (sqlStringLiteral text ++ (" AS ".toList ++ (dataType.toList ++ [')'])))

def hexText (b : List UInt8) : List Char :=
  b.flatMap fun x => [Json.hexChar (x.toNat / 16), Json.hexChar x.toNat]

def hexLiteral (b : List UInt8) : List Char := 'x' :: '\x27' :: (hexText b ++ ['\x27'])

def jsonLiteral (fmt : Json.Formats) (v : Value) : List Char :=
  "JSON_EXTRACT(".toList ++ (sqlStringLiteral (Json.toText fmt v) ++ [')'])

def valueLiteral (lib : Library) : Value → Eval (List Char)
  | .null => .ok "NULL".toList
  | .bool b => .ok (if b then "TRUE" else "FALSE").toList
  | .int i => .ok (Json.showInt i.toInt)
  | .float f =>
    .ok (if f.isFinite then lib.debugF64 f else castLiteral (Json.floatMarkerText f) "REAL")
  | .decimal d => .ok (castLiteral (lib.showDecimal d) "DECIMAL")
  | .bytes b => .ok (hexLiteral b)
  | .str s => .ok (sqlStringLiteral s)
  | .timestamp ms =>
    if Json.isValidTimestampMs ms then
      .ok (castLiteral (Timestamp.formatTimestampMs ms.toInt) "TIMESTAMP")
    else
      let shown := ms.toInt
      fail s!"TIMESTAMP value {shown} is outside 0001-01-01..=9999-12-31 and cannot be dumped"
  | v => .ok (jsonLiteral lib.toFormats v)

/-! ## Reader -/

/-- Digits, and a fraction and an exponent if they are there. -/
def NumberToken (n : List Char) : Prop :=
  ∃ whole fraction exponent, n = whole ++ (fraction ++ exponent) ∧ whole ≠ [] ∧
    (∀ c ∈ whole, c.isDigit = true) ∧
    (fraction = [] ∨ ∃ digits, fraction = '.' :: digits ∧ ∀ c ∈ digits, c.isDigit = true) ∧
    (exponent = [] ∨ ∃ sign digits, exponent = 'e' :: (sign ++ digits) ∧
      (sign = [] ∨ sign = ['-']) ∧ digits ≠ [] ∧ ∀ c ∈ digits, c.isDigit = true)

/-- The texts of numbers and names as the standard library has them. -/
structure TextLibrary extends engine : Library where
  debugF64_token : ∀ f, f.isFinite = true → ∃ sign body, debugF64 f = sign ++ body ∧
    (sign = [] ∨ sign = ['-']) ∧ NumberToken body ∧ ∃ c ∈ body, c.isDigit = false
  parseF64_minus : ∀ n, NumberToken n → parseF64 ('-' :: n) = (parseF64 n).map negF64
  parseF64_marker : ∀ f, f.isFinite = false →
    parseF64 (Json.floatMarkerText f).toList = some (if f.isNan then Json.nan else f)
  upper_upper : ∀ s : String, (∀ c ∈ s.toList, c.isUpper = true ∨ c = '_') → upper s = s

/-- The SQL parser on the texts of literals. -/
structure Parser where
  parseExpr : List Char → Option SqlExpr
  parse_null : parseExpr "NULL".toList = some (.value .null)
  parse_bool : ∀ b : Bool, parseExpr (if b then "TRUE" else "FALSE").toList =
    some (.value (.boolean b))
  parse_number : ∀ n, NumberToken n → parseExpr n = some (.value (.number (String.ofList n)))
  parse_minus : ∀ n, NumberToken n →
    parseExpr ('-' :: n) = some (.unaryOp .minus (.value (.number (String.ofList n))))
  parse_string : ∀ s, parseExpr (sqlStringLiteral s) = some (.value (.singleQuotedString s))
  parse_hex : ∀ b, parseExpr (hexLiteral b) =
    some (.value (.hexStringLiteral (String.ofList (hexText b))))
  parse_cast : ∀ s dataType, dataType ∈ ["REAL", "DECIMAL", "TIMESTAMP"] →
    parseExpr (castLiteral s dataType) =
      some (.cast false (.value (.singleQuotedString s)) dataType)
  parse_json : ∀ fmt v, parseExpr (jsonLiteral fmt v) = some
    (.function "JSON_EXTRACT" false [some (.value (.singleQuotedString (Json.toText fmt v)))])

/-! ## Numbers -/

section Numbers

theorem parseI64_nondigit {n : List Char} (htoken : NumberToken n)
    (h : ∃ c ∈ n, c.isDigit = false) :
    Json.parseI64 n = none ∧ Json.parseI64 ('-' :: n) = none := by
  have hall : ¬ n.all Char.isDigit = true := by
    intro hall
    obtain ⟨c, hc, hno⟩ := h
    rw [List.all_eq_true.mp hall c hc] at hno
    cases hno
  have hfalse : n.all Char.isDigit = false := Bool.not_eq_true _ ▸ hall
  have hsign : Json.takeSign n = (false, n) := by
    obtain ⟨whole, fraction, exponent, rfl, hne, hdigits, -, -⟩ := htoken
    obtain ⟨d, whole, rfl⟩ := List.exists_cons_of_ne_nil hne
    have hd := hdigits d List.mem_cons_self
    rw [List.cons_append]
    unfold Json.takeSign
    split
    · rename_i heq
      cases heq
      exact absurd hd (by decide)
    · rename_i heq
      cases heq
      exact absurd hd (by decide)
    · rfl
  constructor
  · unfold Json.parseI64
    rw [hsign]
    exact if_pos (.inr hfalse)
  · unfold Json.parseI64
    exact if_pos (.inr hfalse)

theorem isFinite_negF64 (f : Binary64) : (negF64 f).isFinite = f.isFinite := by
  have hexp : (negF64 f).expBits = f.expBits := by
    unfold Binary64.expBits negF64
    rw [BitVec.toNat_xor, ← Nat.shiftRight_eq_div_pow, ← Nat.shiftRight_eq_div_pow,
      Nat.shiftRight_xor_distrib, Nat.xor_mod_two_pow]
    exact Nat.xor_zero _
  rw [Binary64.isFinite, Binary64.isFinite, hexp]

theorem digits_token (n : ℕ) : NumberToken (Nat.toDigits 10 n) :=
  ⟨_, [], [], by rw [List.append_nil, List.append_nil], Nat.toDigits_ne_nil,
    Json.toDigits_digits n, .inl rfl, .inl rfl⟩

variable (lib : TextLibrary)

theorem numberValue_float {n : List Char} {f : Binary64} (hint : Json.parseI64 n = none)
    (hparse : lib.parseF64 n = some f) (hf : f.isFinite = true) :
    numberValue lib.engine (String.ofList n) = .ok (.float f) := by
  unfold numberValue
  rw [String.toList_ofList, hint]
  dsimp only
  rw [hparse]
  exact if_pos hf

theorem evalConst_number (n : String) :
    evalConst lib.engine (.value (.number n)) = numberValue lib.engine n := by
  rw [evalConst, sqlValue]

theorem evalConst_string (s : String) :
    evalConst lib.engine (.value (.singleQuotedString s)) = .ok (.str s) := by
  rw [evalConst, sqlValue]

/-- A minus sign in front of a number that is no integer. -/
theorem evalConst_minus {n : List Char} {f : Binary64} (htoken : NumberToken n)
    (hdigit : ∃ c ∈ n, c.isDigit = false) (hparse : lib.parseF64 ('-' :: n) = some f)
    (hf : f.isFinite = true) :
    evalConst lib.engine (.unaryOp .minus (.value (.number (String.ofList n)))) =
      .ok (.float f) := by
  obtain ⟨hpos, hneg⟩ := parseI64_nondigit htoken hdigit
  rw [lib.parseF64_minus n htoken] at hparse
  obtain ⟨g, hg, rfl⟩ := Option.map_eq_some_iff.mp hparse
  rw [isFinite_negF64] at hf
  have hnumber := numberValue_float lib hpos hg hf
  unfold evalConst
  rw [negatedLiteral, String.toList_ofList, hneg]
  dsimp only
  rw [evalConst_number, hnumber]
  rfl

variable (parser : Parser)

/-- What the parsed text of a literal is folded to. -/
def readLiteral (text : List Char) : Option (Eval Value) :=
  (parser.parseExpr text).map (evalConst lib.engine)

theorem readLiteral_int (i : Int64) :
    readLiteral lib parser (Json.showInt i.toInt) = some (.ok (.int i)) := by
  have hread := Json.parseI64_showInt i
  unfold Json.showInt at hread ⊢
  unfold readLiteral
  split at hread
  · rename_i hneg
    rw [if_pos hneg, parser.parse_minus _ (digits_token _), Option.map_some]
    unfold evalConst
    rw [negatedLiteral, String.toList_ofList, hread]
  · rename_i hneg
    rw [if_neg hneg, parser.parse_number _ (digits_token _), Option.map_some, evalConst_number,
      numberValue, String.toList_ofList, hread]

theorem readLiteral_finite {f : Binary64} (hf : f.isFinite = true) :
    readLiteral lib parser (lib.debugF64 f) = some (.ok (.float f)) := by
  have hparse := lib.parseF64_debugF64 f hf
  obtain ⟨sign, body, heq, hsign, htoken, hdigit⟩ := lib.debugF64_token f hf
  rw [heq] at hparse ⊢
  unfold readLiteral
  rcases hsign with rfl | rfl
  · rw [List.nil_append] at hparse ⊢
    obtain ⟨hpos, -⟩ := parseI64_nondigit htoken hdigit
    rw [parser.parse_number body htoken, Option.map_some, evalConst_number,
      numberValue_float lib hpos hparse hf]
  · rw [List.singleton_append] at hparse ⊢
    rw [parser.parse_minus body htoken, Option.map_some,
      evalConst_minus lib htoken hdigit hparse hf]

/-! ## Casts -/

theorem trim_eq_self {cs : List Char} (h : ∀ c ∈ cs, Timestamp.isWhitespace c = false) :
    Timestamp.trim cs = cs := by
  have hdrop (ds : List Char) (hds : ∀ c ∈ ds, Timestamp.isWhitespace c = false) :
      ds.dropWhile Timestamp.isWhitespace = ds := by
    cases ds with
    | nil => rfl
    | cons c ds =>
      rw [List.dropWhile_cons_of_neg]
      rw [hds c List.mem_cons_self]
      exact Bool.false_ne_true
  unfold Timestamp.trim
  rw [hdrop cs h, hdrop _ fun c hc => h c (List.mem_reverse.mp hc), List.reverse_reverse]

theorem isWhitespace_of_isDigit {c : Char} (h : c.isDigit = true) :
    Timestamp.isWhitespace c = false := by
  have hrange : 48 ≤ c.toNat ∧ c.toNat ≤ 57 := by
    simp only [Char.isDigit, Bool.and_eq_true, decide_eq_true_eq] at h
    exact ⟨h.1, h.2⟩
  unfold Timestamp.isWhitespace
  simp only [Bool.or_eq_false_iff, Bool.and_eq_false_iff, beq_eq_false_iff_ne,
    decide_eq_false_iff_not]
  omega

theorem castValue_real (s : String) :
    castValue lib.engine "REAL" (.str s) = castReal lib.engine "REAL" (.str s) := by
  have hupper : lib.upper "REAL" = "REAL" :=
    lib.upper_upper "REAL" (List.all_iff_forall_prop.mp (by decide))
  unfold castValue
  rw [hupper]
  rfl

theorem castValue_decimal (s : String) :
    castValue lib.engine "DECIMAL" (.str s) = castDecimal lib.engine "DECIMAL" (.str s) := by
  have hupper : lib.upper "DECIMAL" = "DECIMAL" :=
    lib.upper_upper "DECIMAL" (List.all_iff_forall_prop.mp (by decide))
  unfold castValue
  rw [hupper]
  rfl

theorem castValue_timestamp (s : String) :
    castValue lib.engine "TIMESTAMP" (.str s) = castTimestamp lib.engine "TIMESTAMP" (.str s) := by
  have hupper : lib.upper "TIMESTAMP" = "TIMESTAMP" :=
    lib.upper_upper "TIMESTAMP" (List.all_iff_forall_prop.mp (by decide))
  unfold castValue
  rw [hupper]
  rfl

theorem readLiteral_cast {s dataType : String} (h : dataType ∈ ["REAL", "DECIMAL", "TIMESTAMP"]) :
    readLiteral lib parser (castLiteral s dataType) =
      some (castValue lib.engine dataType (.str s)) := by
  unfold readLiteral
  rw [parser.parse_cast s dataType h, Option.map_some, evalConst, evalConst_string]
  rfl

theorem floatMarkerText_trim (f : Binary64) :
    Timestamp.trim (Json.floatMarkerText f).toList = (Json.floatMarkerText f).toList := by
  unfold Json.floatMarkerText
  split
  · decide
  · split
    · decide
    · decide

theorem readLiteral_marker {f : Binary64} (hf : f.isFinite = false) :
    readLiteral lib parser (castLiteral (Json.floatMarkerText f) "REAL") =
      some (.ok (.float (if f.isNan then Json.nan else f))) := by
  rw [readLiteral_cast lib parser (by decide), castValue_real, castReal, floatMarkerText_trim,
    lib.parseF64_marker f hf]

theorem readLiteral_decimal (d : Decimal) :
    readLiteral lib parser (castLiteral (lib.showDecimal d) "DECIMAL") = some (.ok (.decimal d)) ↔
      lib.parseDecimal (lib.showDecimal d) = some d := by
  have htrim : Timestamp.trim (lib.showDecimal d).toList = (lib.showDecimal d).toList := by
    apply trim_eq_self
    intro c hc
    rcases lib.showDecimal_chars d c hc with hd | rfl | rfl
    · exact isWhitespace_of_isDigit hd
    · decide
    · decide
  rw [readLiteral_cast lib parser (by decide), castValue_decimal, castDecimal, htrim,
    parseDecimal, String.ofList_toList]
  cases lib.parseDecimal (lib.showDecimal d) with
  | none => exact iff_of_false nofun nofun
  | some d' =>
    constructor
    · intro h
      cases h
      rfl
    · intro h
      cases h
      rfl

theorem readLiteral_timestamp {ms : Int64} (h : Json.isValidTimestampMs ms = true) :
    readLiteral lib parser (castLiteral (Timestamp.formatTimestampMs ms.toInt) "TIMESTAMP") =
      some (.ok (.timestamp ms)) := by
  have hrange : Json.timestampMinMs ≤ ms.toInt ∧ ms.toInt ≤ Json.timestampMaxMs := by
    simpa only [Json.isValidTimestampMs, Bool.and_eq_true, decide_eq_true_eq] using h
  have hparse : Timestamp.parseTimestampMs (Timestamp.formatTimestampMs ms.toInt) =
      .ok ms.toInt := by
    obtain ⟨f, hf, heq, htext⟩ := Timestamp.exists_fields hrange.1 hrange.2
    rw [← heq] at hrange htext ⊢
    rw [← String.ofList_toList (s := Timestamp.formatTimestampMs f.instant), htext]
    exact Timestamp.Fields.parse_text hf hrange.1 hrange.2
  rw [readLiteral_cast lib parser (by decide), castValue_timestamp, castTimestamp,
    parseTimestamp, hparse]
  dsimp only
  rw [Int64.ofInt_toInt]
  rfl

/-! ## Bytes -/

theorem hexPairs_hexText (shown : String) (b : List UInt8) :
    hexPairs shown (hexText b) = .ok b := by
  induction b with
  | nil => rfl
  | cons x b ih =>
    have hx : x.toNat < 256 := x.toNat_lt
    have hbyte : UInt8.ofNat (x.toNat / 16 % 16 * 16 + x.toNat % 16) = x := by
      have heq : x.toNat / 16 % 16 * 16 + x.toNat % 16 = x.toNat := by omega
      rw [heq, UInt8.ofNat_toNat]
    change hexPairs shown (Json.hexChar (x.toNat / 16) :: Json.hexChar x.toNat :: hexText b) = _
    rw [hexPairs, Json.hexDigit_hexChar, Json.hexDigit_hexChar]
    dsimp only
    rw [ih, hbyte]
    rfl

/-- Hexadecimal digits take one byte and are no white space. -/
theorem hexChar_plain : ∀ n < 16, Timestamp.isWhitespace (Nat.digitChar n) = false ∧
    (Nat.digitChar n).utf8Size = 1 := by
  decide

theorem hexText_plain (b : List UInt8) :
    ((hexText b).filter fun c => !Timestamp.isWhitespace c) = hexText b ∧
      Lib.Utf8.byteLen (hexText b) % 2 = 0 := by
  induction b with
  | nil => exact ⟨rfl, rfl⟩
  | cons x b ih =>
    obtain ⟨hfilter, heven⟩ := ih
    obtain ⟨hhi, hhi'⟩ := hexChar_plain (x.toNat / 16 % 16) (Nat.mod_lt _ (by norm_num))
    obtain ⟨hlo, hlo'⟩ := hexChar_plain (x.toNat % 16) (Nat.mod_lt _ (by norm_num))
    change (List.filter _ (Nat.digitChar (x.toNat / 16 % 16) :: Nat.digitChar (x.toNat % 16) ::
        hexText b)) = Nat.digitChar (x.toNat / 16 % 16) :: Nat.digitChar (x.toNat % 16) ::
        hexText b ∧ Lib.Utf8.byteLen (Nat.digitChar (x.toNat / 16 % 16) ::
        Nat.digitChar (x.toNat % 16) :: hexText b) % 2 = 0
    constructor
    · rw [List.filter_cons_of_pos (by rw [hhi]; rfl), List.filter_cons_of_pos (by rw [hlo]; rfl),
        hfilter]
    · rw [Lib.Utf8.byteLen_cons, Lib.Utf8.byteLen_cons, hhi', hlo']
      omega

theorem readLiteral_hex (b : List UInt8) :
    readLiteral lib parser (hexLiteral b) = some (.ok (.bytes b)) := by
  obtain ⟨hfilter, heven⟩ := hexText_plain b
  unfold readLiteral
  rw [parser.parse_hex, Option.map_some, evalConst, sqlValue, String.toList_ofList, hfilter, if_neg (not_not.mpr heven), hexPairs_hexText]
  rfl

/-! ## Arrays and objects -/

theorem jsonFn_text (text : String) :
    jsonFn lib.engine.toLibrary false [.str text] =
      match Json.fromText lib.toFormats text with
      | .error _ => pure .null
      | .ok parsed => pure parsed := by
  unfold jsonFn
  rfl

theorem evalConst_json (text : String) :
    evalConst lib.engine (.function "JSON_EXTRACT" false [some (.value (.singleQuotedString text))]) =
      match Json.fromText lib.toFormats text with
      | .ok w => .ok w
      | .error _ => .ok .null := by
  have hupper : lib.upper "JSON_EXTRACT" = "JSON_EXTRACT" :=
    lib.upper_upper "JSON_EXTRACT" (List.all_iff_forall_prop.mp (by decide))
  have hargs : constArgs lib.engine (takesDatepartName "JSON_EXTRACT")
      [some (.value (.singleQuotedString text))] = [some (.ok (.str text))] := by
    rw [constArgs, constArgs, evalConst_string]
    rfl
  rw [evalConst]
  dsimp only
  rw [if_neg Bool.false_ne_true, hupper, if_neg (by decide), hargs]
  change jsonFn lib.engine.toLibrary false [.str text] = _
  rw [jsonFn_text]
  cases Json.fromText lib.toFormats text with
  | ok w => rfl
  | error e => rfl

theorem readLiteral_json {v : Value} (hwf : v.WF) (hnull : v ≠ .null) :
    readLiteral lib parser (jsonLiteral lib.toFormats v) = some (.ok v) ↔
      Json.Plain lib.toFormats v ∧ Json.canonNan v = v ∧ Json.textDepth v ≤ Json.maxDepth := by
  rw [← Json.fromText_toText_iff lib.toFormats hwf]
  unfold readLiteral
  rw [parser.parse_json, Option.map_some, evalConst_json]
  cases Json.fromText lib.toFormats (Json.toText lib.toFormats v) with
  | ok w =>
    constructor
    · intro h
      cases h
      rfl
    · intro h
      cases h
      rfl
  | error e =>
    refine iff_of_false (fun h => hnull ?_) nofun
    cases h
    rfl

end Numbers

end Docsql.Expr
