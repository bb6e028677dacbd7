import Docsql.Lib.StreamReader
import Docsql.Encode

/-!
# JSON text of values

The writer and the parser of `json.rs`.  The parser reads the characters of a
valid `str`; positions in its errors are byte offsets, and a byte of a longer
character is only ever looked at as the first one of what is left.
-/

namespace Docsql.Json

inductive JsonError where
  | eof
  | unexpected (c : Char) (pos : ℕ)
  | badNumber (pos : ℕ)
  | badEscape (pos : ℕ)
  | trailing (pos : ℕ)
  | depth (max : ℕ)
deriving DecidableEq, Repr

def maxDepth : ℕ := 128

/-- A character of the number scanner, after an optional sign. -/
def isNumberChar (c : Char) : Bool :=
  c.isDigit || c == '.' || c == 'e' || c == 'E' || c == '+' || c == '-'

/-- The number formats of the standard library and of `rust_decimal`: `Debug` and
`parse` of finite floats, `Display` and `parse` of decimals. -/
structure Formats where
  debugF64 : Binary64 → List Char
  parseF64 : List Char → Option Binary64
  showDecimal : Decimal → String
  parseDecimal : String → Option Decimal
  /-- An optional sign and a digit, then number characters, one of them no digit. -/
  debugF64_shape : ∀ f, f.isFinite = true → ∃ sign body, debugF64 f = sign ++ body ∧
    (sign = [] ∨ sign = ['-']) ∧ (∃ d rest, body = d :: rest ∧ d.isDigit = true) ∧
    (∀ c ∈ body, isNumberChar c = true) ∧ ∃ c ∈ body, c.isDigit = false
  parseF64_debugF64 : ∀ f, f.isFinite = true → parseF64 (debugF64 f) = some f
  parseF64_number : ∀ text f, (∀ c ∈ text, isNumberChar c = true) → parseF64 text = some f →
    f.isNan = false
  showDecimal_chars : ∀ d, ∀ c ∈ (showDecimal d).toList,
    c.isDigit = true ∨ c = '.' ∨ c = '-'
  /-- The sign of a zero may be lost. -/
  parseDecimal_showDecimal : ∀ d, (d.neg = true → d.mantissa ≠ 0) →
    parseDecimal (showDecimal d) = some d
  /-- What has been read once is read again. -/
  parseDecimal_again : ∀ text d, parseDecimal text = some d →
    parseDecimal (showDecimal d) = some d

/-! ## Writer -/

/-- `f64::NAN` and the infinities. -/
def nan : Binary64 := Binary64.ofFields false 2047 (2 ^ 51)
def infinity : Binary64 := Binary64.ofFields false 2047 0
def negInfinity : Binary64 := Binary64.ofFields true 2047 0

def floatMarkerText (f : Binary64) : String :=
  if f.isNan then "NaN" else if Binary64.lt Binary64.zero f then "inf" else "-inf"

def parseFloatMarker (s : String) : Option Binary64 :=
  if s = "NaN" then some nan
  else if s = "inf" ∨ s = "+inf" ∨ s = "Infinity" then some infinity
  else if s = "-inf" ∨ s = "-Infinity" then some negInfinity
  else none

def showInt (i : ℤ) : List Char :=
  if i < 0 then '-' :: Nat.toDigits 10 i.natAbs else Nat.toDigits 10 i.natAbs

def hexChar (n : ℕ) : Char := Nat.digitChar (n % 16)

def escapeChar (c : Char) : List Char :=
  match c with
  | '"' => ['\\', '"']
  | '\\' => ['\\', '\\']
  | '\n' => ['\\', 'n']
  | '\r' => ['\\', 'r']
  | '\t' => ['\\', 't']
  | c =>
    if c.toNat < 0x20 then
      ['\\', 'u', hexChar (c.toNat / 4096), hexChar (c.toNat / 256), hexChar (c.toNat / 16),
        hexChar c.toNat]
    else [c]

def escapable (c : Char) : Bool :=
  c == '"' || c == '\\' || c == '\n' || c == '\r' || c == '\t' || decide (c.toNat < 0x20)

/-- The clean start of the text goes in whole. -/
def pushEscaped (s : List Char) : List Char :=
  s.takeWhile (!escapable ·) ++ (s.dropWhile (!escapable ·)).flatMap escapeChar

def writeString (s : String) : List Char := '"' :: (pushEscaped s.toList ++ ['"'])

/-- The separator in front of all items but the first. -/
def joinComma : List (List Char) → List Char
  | [] => []
  | [item] => item
  | item :: rest => item ++ ',' :: joinComma rest

/-- An object with one key, which is written as it is. -/
def marker (key : String) (payload : List Char) : List Char :=
  '{' :: '"' :: (key.toList ++ '"' :: ':' :: (payload ++ ['}']))

section Formats

variable (fmt : Formats)

mutual

def writeValue : Value → List Char
  | .null => "null".toList
  | .bool b => if b then "true".toList else "false".toList
  | .int i => showInt i.toInt
  | .float f =>
    if f.isFinite then fmt.debugF64 f
    else marker "$float" ('"' :: ((floatMarkerText f).toList ++ ['"']))
  | .decimal d => marker "$dec" ('"' :: ((fmt.showDecimal d).toList ++ ['"']))
  | .timestamp ms => marker "$ts" (showInt ms.toInt)
  | .str s => writeString s
  | .bytes b =>
    marker "$bytes" ('[' :: (joinComma (b.map fun x => showInt x.toNat) ++ [']']))
  | .array items => '[' :: (joinComma (writeItems items) ++ [']'])
  | .object fields => '{' :: (joinComma (writeFields fields) ++ ['}'])

def writeItems : List Value → List (List Char)
  | [] => []
  | v :: vs => writeValue v :: writeItems vs

def writeFields : List (String × Value) → List (List Char)
  | [] => []
  | (k, v) :: fs => (writeString k ++ ':' :: writeValue v) :: writeFields fs

end

def toText (v : Value) : String := String.ofList (writeValue fmt v)

/-! ## Parser -/

def timestampMinMs : ℤ := -62135596800000
def timestampMaxMs : ℤ := 253402300799999

def isValidTimestampMs (ms : Int64) : Bool :=
  decide (timestampMinMs ≤ ms.toInt) && decide (ms.toInt ≤ timestampMaxMs)

/-- The bytes of a `$bytes` array. -/
def markerBytes : List Value → Option (List UInt8)
  | [] => some []
  | .int i :: rest =>
    if 0 ≤ i.toInt ∧ i.toInt ≤ 255 then
      (markerBytes rest).map (UInt8.ofNat i.toInt.toNat :: ·)
    else none
  | _ :: _ => none

/-- Shapes that do not qualify stay plain objects. -/
def decodeMarker (obj : List (String × Value)) : Value :=
  match obj with
  | [("$dec", .str s)] => (fmt.parseDecimal s).elim (.object obj) .decimal
  | [("$float", .str s)] => (parseFloatMarker s).elim (.object obj) .float
  | [("$ts", .int ms)] => if isValidTimestampMs ms then .timestamp ms else .object obj
  | [("$bytes", .array items)] => (markerBytes items).elim (.object obj) .bytes
  | obj => .object obj

/-- The parser threads the characters that are left. -/
abbrev Parser := StreamReader JsonError Char

def isWs (c : Char) : Bool := c == ' ' || c == '\t' || c == '\n' || c == '\r'

def skipWs (rest : List Char) : List Char := rest.dropWhile isWs

def bytesLeft (rest : List Char) : ℕ := (rest.map Char.utf8Size).sum

/-- The next byte read as a character. -/
def peekByte (rest : List Char) : Char :=
  match rest with
  | [] => '?'
  | c :: _ => Char.ofNat (String.utf8EncodeChar c).head!.toNat

-- `len`: the length of the buffer in bytes.
variable (len : ℕ)

def pos (rest : List Char) : ℕ := len - bytesLeft rest

/-- The position after one more byte, if there is one. -/
def posBumped (rest : List Char) : ℕ := if rest = [] then pos len rest else pos len rest + 1

def expect (c : Char) : Parser Unit := fun rest =>
  match rest with
  | d :: tail => if d = c then .ok ((), tail) else .error (.unexpected c (posBumped len rest))
  | [] => .error (.unexpected c (posBumped len rest))

def lit (word : String) (v : Value) : Parser Value := fun rest =>
  if word.toList.isPrefixOf rest then .ok (v, rest.drop word.toList.length)
  else .error (.unexpected (peekByte rest) (pos len rest))

/-- The sign of an integer and what follows it. -/
def takeSign : List Char → Bool × List Char
  | '-' :: digits => (true, digits)
  | '+' :: digits => (false, digits)
  | digits => (false, digits)

/-- `str::parse::<i64>`. -/
def parseI64 (text : List Char) : Option Int64 :=
  let (neg, digits) := takeSign text
  if digits = [] ∨ digits.all Char.isDigit = false then none
  else
    let n : ℤ := Nat.ofDigitChars 10 digits 0
    let i : ℤ := if neg then -n else n
    if -2 ^ 63 ≤ i ∧ i < 2 ^ 63 then some (Int64.ofInt i) else none

def takeMinus : List Char → List Char × List Char
  | '-' :: tail => (['-'], tail)
  | tail => ([], tail)

def floatNumber (text left : List Char) (start : ℕ) : Except JsonError (Value × List Char) :=
  match fmt.parseF64 text with
  | some f => .ok (.float f, left)
  | none => .error (.badNumber start)

/-- The scanned text: an integer if it has only digits and fits, else a float. -/
def scannedNumber (sign body left : List Char) (start : ℕ) :
    Except JsonError (Value × List Char) :=
  let text := sign ++ body
  if text = [] ∨ text = ['-'] then .error (.badNumber start)
  else if body.all Char.isDigit then
    match parseI64 text with
    | some i => .ok (.int i, left)
    | none => floatNumber fmt text left start
  else floatNumber fmt text left start

def number : Parser Value := fun rest =>
  let (sign, tail) := takeMinus rest
  scannedNumber fmt sign (tail.takeWhile isNumberChar) (tail.dropWhile isNumberChar)
    (pos len rest)

def hexDigit (c : Char) : Option ℕ :=
  if c.isDigit then some (c.toNat - '0'.toNat)
  else if 'a' ≤ c ∧ c ≤ 'f' then some (c.toNat - 'a'.toNat + 10)
  else if 'A' ≤ c ∧ c ≤ 'F' then some (c.toNat - 'A'.toNat + 10)
  else none

def hexLoop : ℕ → ℕ → Parser ℕ
  | 0, v, rest => .ok (v, rest)
  | _ + 1, _, [] => .error .eof
  | n + 1, v, c :: rest =>
    match hexDigit c with
    | some d => hexLoop n (v * 16 + d) rest
    | none => .error (.badEscape (posBumped len (c :: rest)))

def hex4 : Parser ℕ := hexLoop len 4 0

def replacement : Char := Char.ofNat 0xFFFD

/-- `char::from_u32`, with the replacement character for what is no scalar value. -/
def fromU32 (n : ℕ) : Char := if n.isValidChar then Char.ofNat n else replacement

/-- `\u`: surrogate pairs are joined, lone ones replaced. -/
def unicodeEscape : Parser (List Char) := fun rest =>
  match hex4 len rest with
  | .error e => .error e
  | .ok (cp, rest) =>
    if 0xD800 ≤ cp ∧ cp < 0xDC00 then
      match rest with
      | '\\' :: 'u' :: tail =>
        match hex4 len tail with
        | .error e => .error e
        | .ok (lo, tail) =>
          if 0xDC00 ≤ lo ∧ lo < 0xE000 then
            .ok ([fromU32 (0x10000 + (cp - 0xD800) * 2 ^ 10 + (lo - 0xDC00))], tail)
          else .ok ([replacement, fromU32 lo], tail)
      -- Another escape after it is left for the outer loop.
      | rest => .ok ([replacement], rest)
    else if 0xDC00 ≤ cp ∧ cp < 0xE000 then .ok ([replacement], rest)
    else .ok ([fromU32 cp], rest)

/-- After a backslash. -/
def escape : Parser (List Char) := fun rest =>
  match rest with
  | '"' :: tail => .ok (['"'], tail)
  | '\\' :: tail => .ok (['\\'], tail)
  | '/' :: tail => .ok (['/'], tail)
  | 'n' :: tail => .ok (['\n'], tail)
  | 'r' :: tail => .ok (['\r'], tail)
  | 't' :: tail => .ok (['\t'], tail)
  | 'b' :: tail => .ok ([Char.ofNat 0x8], tail)
  | 'f' :: tail => .ok ([Char.ofNat 0xC], tail)
  | 'u' :: tail => unicodeEscape len tail
  | rest => .error (.badEscape (posBumped len rest))

theorem hexLoop_length {n v r : ℕ} {rest left : List Char}
    (h : hexLoop len n v rest = .ok (r, left)) : left.length ≤ rest.length := by
  induction n generalizing v rest with
  | zero =>
    cases h
    exact le_refl _
  | succ n ih =>
    cases rest with
    | nil => cases h
    | cons c rest =>
      rw [hexLoop] at h
      split at h
      · exact (ih h).trans (Nat.le_succ _)
      · cases h

theorem unicodeEscape_length {cs rest left : List Char}
    (h : unicodeEscape len rest = .ok (cs, left)) : left.length ≤ rest.length := by
  unfold unicodeEscape at h
  split at h
  · cases h
  · rename_i hhex
    have hfirst := hexLoop_length len hhex
    split at h
    · split at h
      · split at h
        · cases h
        · rename_i hhex'
          have hsecond := hexLoop_length len hhex'
          have hle : left.length ≤ rest.length := by
            split at h
            · cases h
              simp only [List.length_cons] at hfirst
              omega
            · cases h
              simp only [List.length_cons] at hfirst
              omega
          exact hle
      · cases h
        exact hfirst
    · split at h
      · cases h
        exact hfirst
      · cases h
        exact hfirst

theorem escape_length {cs rest left : List Char} (h : escape len rest = .ok (cs, left)) :
    left.length ≤ rest.length := by
  unfold escape at h
  split at h
  case h_9 => exact (unicodeEscape_length len h).trans (Nat.le_succ _)
  case h_10 => cases h
  all_goals
    cases h
    exact Nat.le_succ _

/-- The body of a string, up to its closing quote. -/
def stringLoop (rest out : List Char) : Except JsonError (String × List Char) :=
  match rest with
  | [] => .error .eof
  | '"' :: tail => .ok (String.ofList out, tail)
  | '\\' :: tail =>
    match _h : escape len tail with
    | .error e => .error e
    | .ok (cs, left) => stringLoop left (out ++ cs)
  | c :: tail => stringLoop tail (out ++ [c])
termination_by rest.length
decreasing_by
  · exact Nat.lt_succ_of_le (escape_length len _h)
  · exact Nat.lt_succ_self _

def string : Parser String := do
  expect len '"'
  fun rest => stringLoop len rest []

/-- Items up to the closing bracket.  Each round takes a comma, so `fuel` beyond the
characters left changes nothing. -/
def itemsLoop (item : Parser Value) : ℕ → List Value → Parser Value
  | 0, _, _ => .error .eof
  | fuel + 1, items, rest =>
    match item rest with
    | .error e => .error e
    | .ok (v, rest) =>
      match skipWs rest with
      | ',' :: tail => itemsLoop item fuel (items ++ [v]) tail
      | ']' :: tail => .ok (.array (items ++ [v]), tail)
      | rest => .error (.unexpected ',' (posBumped len rest))

/-- One key and its value. -/
def field (item : Parser Value) : Parser (String × Value) := fun rest => do
  let (k, rest) ← string len (skipWs rest)
  let ((), rest) ← expect len ':' (skipWs rest)
  let (v, rest) ← item rest
  return ((k, v), rest)

/-- Fields up to the closing brace; a repeated key takes the last value. -/
def fieldsLoop (item : Parser Value) : ℕ → List (String × Value) → Parser Value
  | 0, _, _ => .error .eof
  | fuel + 1, obj, rest =>
    match field len item rest with
    | .error e => .error e
    | .ok ((k, v), rest) =>
      match skipWs rest with
      | ',' :: tail => fieldsLoop item fuel (insertField k v obj) tail
      | '}' :: tail => .ok (decodeMarker fmt (insertField k v obj), tail)
      | rest => .error (.unexpected '}' (posBumped len rest))

/-- After an opening bracket. -/
def arrayBody (item : Parser Value) : Parser Value := fun rest =>
  match skipWs rest with
  | ']' :: tail => .ok (.array [], tail)
  | tail => itemsLoop len item (tail.length + 1) [] tail

/-- After an opening brace. -/
def objectBody (item : Parser Value) : Parser Value := fun rest =>
  match skipWs rest with
  | '}' :: tail => .ok (.object [], tail)
  | tail => fieldsLoop fmt len item (tail.length + 1) [] tail

/-- The branches of `value`; `item` reads one level deeper. -/
def valueBody (item : Parser Value) : Parser Value := fun rest =>
  match rest with
  | [] => .error (.unexpected (peekByte rest) (pos len rest))
  | c :: tail =>
    if c = 'n' then lit len "null" .null rest
    else if c = 't' then lit len "true" (.bool true) rest
    else if c = 'f' then lit len "false" (.bool false) rest
    else if c = '"' then (string len rest).map fun p => (.str p.1, p.2)
    else if c = '[' then arrayBody len item tail
    else if c = '{' then objectBody fmt len item tail
    else if c = '-' ∨ c.isDigit = true then number fmt len rest
    else .error (.unexpected (peekByte rest) (pos len rest))

/-- `value` at depth `maxDepth + 1 - room`. -/
def value : ℕ → Parser Value
  | 0 => fun _ => .error (.depth maxDepth)
  | room + 1 => fun rest => valueBody fmt len (value room) (skipWs rest)

def fromText (s : String) : Except JsonError Value := do
  let len := s.utf8ByteSize
  let (v, rest) ← value fmt len (maxDepth + 1) (skipWs s.toList)
  let rest := skipWs rest
  if rest = [] then return v else throw (.trailing (pos len rest))

end Formats

end Docsql.Json
