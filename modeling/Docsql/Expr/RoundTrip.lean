import Docsql.Expr.Runnable

/-!
# Literals round trip

Which values a folded literal gives back.
-/

namespace Docsql.Expr

open Docsql.Scalar

/-- Writing, parsing and folding, given the text. -/
theorem reads_iff (lib : TextLibrary) (parser : Parser) {v : Value} {text : List Char}
    (htext : valueLiteral lib.engine v = .ok text) :
    (∃ text e, valueLiteral lib.engine v = .ok text ∧ parser.parseExpr text = some e ∧
      evalConst lib.engine e = .ok v) ↔ readLiteral lib parser text = some (.ok v) := by
  unfold readLiteral
  rw [Option.map_eq_some_iff, htext]
  constructor
  · rintro ⟨_, e, heq, hparse, heval⟩
    cases heq
    exact ⟨e, hparse, heval⟩
  · rintro ⟨e, hparse, heval⟩
    exact ⟨text, e, rfl, hparse, heval⟩

def isContainer : Value → Bool
  | .array _ => true
  | .object _ => true
  | _ => false

/-- The literal of a value is folded to the value itself exactly if every timestamp in it is in
range, every NaN is `f64::NAN`, every decimal is read back from its own text, and, in an array
or an object, no object has the shape of a marker and the JSON text nests within the bound. -/
theorem literal_round_trip_iff (lib : TextLibrary) (parser : Parser) {v : Value} (hwf : v.WF) :
    (∃ text e, valueLiteral lib.engine v = .ok text ∧ parser.parseExpr text = some e ∧
      evalConst lib.engine e = .ok v) ↔
    Json.Plain lib.toFormats v ∧ Json.canonNan v = v ∧
      (isContainer v = true → Json.textDepth v ≤ Json.maxDepth) := by
  cases v with
  | null =>
    rw [reads_iff lib parser rfl, readLiteral, parser.parse_null, Option.map_some, evalConst, sqlValue]
    exact iff_of_true rfl ⟨trivial, rfl, fun h => absurd h Bool.false_ne_true⟩
  | bool b =>
    rw [reads_iff lib parser rfl, readLiteral, parser.parse_bool, Option.map_some, evalConst, sqlValue]
    exact iff_of_true rfl ⟨trivial, rfl, fun h => absurd h Bool.false_ne_true⟩
  | int i =>
    rw [reads_iff lib parser rfl, readLiteral_int]
    exact iff_of_true rfl ⟨trivial, rfl, fun h => absurd h Bool.false_ne_true⟩
  | float f =>
    rw [reads_iff lib parser rfl, Json.canonNan]
    cases hf : f.isFinite with
    | true =>
      rw [if_pos rfl, readLiteral_finite lib parser hf, Binary64.isNan_of_isFinite hf,
        if_neg Bool.false_ne_true]
      exact iff_of_true rfl ⟨trivial, rfl, fun h => absurd h Bool.false_ne_true⟩
    | false =>
      rw [if_neg Bool.false_ne_true, readLiteral_marker lib parser hf]
      constructor
      · intro h
        refine ⟨trivial, ?_, fun h => absurd h Bool.false_ne_true⟩
        exact Except.ok.inj (Option.some.inj h)
      · rintro ⟨-, hcanon, -⟩
        rw [hcanon]
  | decimal d =>
    rw [reads_iff lib parser rfl, readLiteral_decimal]
    exact ⟨fun h => ⟨h, rfl, fun h => absurd h Bool.false_ne_true⟩, fun h => h.1⟩
  | timestamp ms =>
    by_cases hvalid : Json.isValidTimestampMs ms = true
    · rw [reads_iff lib parser (v := .timestamp ms) (if_pos hvalid), readLiteral_timestamp lib parser hvalid]
      exact iff_of_true rfl ⟨hvalid, rfl, fun h => absurd h Bool.false_ne_true⟩
    · refine iff_of_false ?_ fun h => hvalid h.1
      rintro ⟨text, e, htext, -, -⟩
      rw [valueLiteral, if_neg hvalid] at htext
      cases htext
  | str s =>
    rw [reads_iff lib parser rfl, readLiteral, parser.parse_string, Option.map_some, evalConst_string]
    exact iff_of_true rfl ⟨trivial, rfl, fun h => absurd h Bool.false_ne_true⟩
  | bytes b =>
    rw [reads_iff lib parser rfl, readLiteral_hex]
    exact iff_of_true rfl ⟨trivial, rfl, fun h => absurd h Bool.false_ne_true⟩
  | array items =>
    rw [reads_iff lib parser rfl, readLiteral_json lib parser hwf fun h => by cases h]
    exact and_congr_right fun _ => and_congr_right fun _ => ⟨fun h _ => h, fun h => h rfl⟩
  | object fields =>
    rw [reads_iff lib parser rfl, readLiteral_json lib parser hwf fun h => by cases h]
    exact and_congr_right fun _ => and_congr_right fun _ => ⟨fun h _ => h, fun h => h rfl⟩

/-- A value with a quote in a text, a negative integer and a decimal inside an object. -/
def sampleValue : Value :=
  .object [("k", .array [.str "it's", .int (-7), .decimal Json.sampleDecimal])]

theorem literal_round_trip_sample :
    ∃ text e, valueLiteral sampleLibrary.engine sampleValue = .ok text ∧
      sampleParser.parseExpr text = some e ∧
      evalConst sampleLibrary.engine e = .ok sampleValue := by
  have hwf : sampleValue.WF :=
    ⟨List.pairwise_singleton _ _, ⟨trivial, trivial, trivial, trivial⟩, trivial⟩
  refine (literal_round_trip_iff sampleLibrary sampleParser hwf).mpr ⟨?_, rfl, fun _ => by decide⟩
  refine ⟨rfl, ⟨trivial, trivial, ?_, trivial⟩, trivial⟩
  exact literalFormats.parseDecimal_showDecimal _ fun _ => by decide

theorem nested_wf (n : ℕ) {v : Value} (h : v.WF) : (Json.nested n v).WF := by
  induction n with
  | zero => exact h
  | succ n ih => exact ⟨ih, trivial⟩

theorem nested_depth (n : ℕ) (v : Value) :
    Json.textDepth (Json.nested n v) = n + Json.textDepth v := by
  induction n with
  | zero => exact (Nat.zero_add _).symm
  | succ n ih =>
    rw [Json.nested, Json.textDepth, Json.itemsDepth, Json.itemsDepth, ih, Nat.max_zero]
    omega

/-- The literal of the value is read and folded back to it. -/
def FoldsBack (v : Value) : Prop :=
  ∃ text e, valueLiteral sampleLibrary.engine v = .ok text ∧
    sampleParser.parseExpr text = some e ∧ evalConst sampleLibrary.engine e = .ok v

theorem not_foldsBack_json {v : Value} (hwf : v.WF) (hnull : v ≠ .null)
    (htext : valueLiteral sampleLibrary.engine v = .ok (jsonLiteral sampleLibrary.toFormats v))
    (hno : ¬ (Json.Plain literalFormats v ∧ Json.textDepth v ≤ Json.maxDepth)) :
    ¬ FoldsBack v := by
  rw [FoldsBack, reads_iff sampleLibrary sampleParser htext,
    readLiteral_json sampleLibrary sampleParser hwf hnull]
  exact fun h => hno ⟨h.1, h.2.2⟩

/-- An infinity inside as many arrays as the JSON reader accepts, an object with the shape of a
marker, and a NaN with a payload. -/
theorem literal_not_read_back :
    ¬ FoldsBack (Json.nested Json.maxDepth (.float Json.infinity)) ∧
      ¬ FoldsBack (.object [("$dec", .str "1")]) ∧ ¬ FoldsBack (.float Json.payloadNan) := by
  refine ⟨?_, ?_, ?_⟩
  · refine not_foldsBack_json (nested_wf Json.maxDepth (v := .float Json.infinity) trivial)
      nofun rfl ?_
    rintro ⟨-, hdepth⟩
    rw [nested_depth] at hdepth
    exact absurd hdepth (by decide)
  · refine not_foldsBack_json ⟨List.pairwise_singleton _ _, trivial, trivial⟩ nofun rfl ?_
    rintro ⟨hplain, -⟩
    have hmarker := hplain.1
    cases hmarker
  · have htext : valueLiteral sampleLibrary.engine (.float Json.payloadNan) =
        .ok (castLiteral (Json.floatMarkerText Json.payloadNan) "REAL") := rfl
    have hfinite : Json.payloadNan.isFinite = false := by decide
    rw [FoldsBack, reads_iff sampleLibrary sampleParser htext,
      readLiteral_marker sampleLibrary sampleParser hfinite]
    intro h
    have hnan : Json.nan = Json.payloadNan := by
      have heq := Option.some.inj h
      cases heq
    exact absurd hnan (by decide)

end Docsql.Expr
