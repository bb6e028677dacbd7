import Docsql.Json.Nesting

/-!
# Which values come back

A value is read back from its own text exactly if the text nests within the bound, every NaN
in it is `f64::NAN`, every decimal has a text that gives it back, and no object in it has the
shape of a marker.
-/

namespace Docsql.Json

section Reader

variable (fmt : Formats) (len : ℕ)

/-- The text is not accepted. -/
def Refuses {α : Type} (p : Parser α) (text : List Char) : Prop :=
  ∀ rest, Stops rest → ∃ e, p (text ++ rest) = .error e

/-- What does not fit inside a marker makes the marker too deep. -/
theorem value_marker_error {room : ℕ} {key : String} {payload : List Char}
    (hkey : pushEscaped key.toList = key.toList) (h : Refuses (value fmt len room) payload) :
    Refuses (value fmt len (room + 1)) (marker key payload) := by
  intro rest _
  obtain ⟨e, he⟩ := h ('}' :: rest) (stops_cons (by decide) rest)
  have htext : marker key payload ++ rest =
      '{' :: (writeString key ++ ':' :: (payload ++ '}' :: rest)) := by
    simp [marker, writeString, hkey]
  have hquote : writeString key ++ ':' :: (payload ++ '}' :: rest) =
      '"' :: (pushEscaped key.toList ++ ['"'] ++ ':' :: (payload ++ '}' :: rest)) := rfl
  refine ⟨e, ?_⟩
  rw [htext, value_cons len fmt room (by decide), valueBody_brace, hquote, objectBody_quote,
    ← hquote, fieldsLoop, field_eq_map, he]
  rfl

theorem refuses_zero (text : List Char) : Refuses (value fmt len 0) text :=
  fun _ _ => ⟨_, rfl⟩

theorem refuses_bytes {room : ℕ} {b : List UInt8} (h : room ≤ textDepth (.bytes b)) :
    Refuses (value fmt len room) (writeValue fmt (.bytes b)) := by
  have hkey : pushEscaped "$bytes".toList = "$bytes".toList := by decide
  cases room with
  | zero => exact refuses_zero fmt len _
  | succ room =>
    refine value_marker_error fmt len hkey ?_
    cases room with
    | zero => exact refuses_zero fmt len _
    | succ room =>
      cases b with
      | nil =>
        rw [textDepth, if_pos rfl] at h
        omega
      | cons x b =>
        obtain rfl : room = 0 := by
          rw [textDepth, if_neg (List.cons_ne_nil x b)] at h
          omega
        intro rest _
        have hopen : OpensItem (showInt x.toNat) := by
          have hint := writeValue_opens fmt (.int (Int64.ofInt x.toNat))
          rwa [writeValue, toInt_byte] at hint
        obtain ⟨more, hmore⟩ : ∃ more, joinComma ((x :: b).map fun y => showInt y.toNat) =
            showInt x.toNat ++ more := by
          cases b with
          | nil => exact ⟨[], by rw [List.append_nil]; rfl⟩
          | cons y b => exact ⟨_, rfl⟩
        rw [List.cons_append, value_cons len fmt 0 (by decide), valueBody_bracket, hmore,
          List.append_assoc, List.append_assoc]
        exact ⟨_, arrayBody_error len (hopen.append _) rfl⟩

/-- A loop that fails makes an array fail. -/
theorem arrayBody_refused {item : Parser Value} {texts : List (List Char)} {rest : List Char}
    (hne : texts ≠ []) (hopen : ∀ t ∈ texts, OpensItem t)
    (h : ∀ fuel, ∃ e, itemsLoop len item fuel [] (joinComma texts ++ ']' :: rest) = .error e) :
    ∃ e, arrayBody len item (joinComma texts ++ ']' :: rest) = .error e := by
  obtain ⟨text, texts, rfl⟩ := List.exists_cons_of_ne_nil hne
  obtain ⟨c, cs, heq, hws, hclose⟩ := hopen text List.mem_cons_self
  obtain ⟨tail, htail⟩ : ∃ tail, joinComma (text :: texts) ++ ']' :: rest = c :: tail := by
    cases texts with
    | nil => exact ⟨cs ++ ']' :: rest, by rw [joinComma, heq]; rfl⟩
    | cons next more =>
      rw [joinComma_cons_cons, heq]
      exact ⟨_, rfl⟩
  rw [htail] at h ⊢
  unfold arrayBody
  rw [skipWs_cons hws]
  split
  · rename_i heq'
    exact absurd (List.cons.inj heq').1 hclose
  · exact h _

theorem objectBody_refused {item : Parser Value} {texts : List (List Char)} {rest : List Char}
    (hne : texts ≠ []) (hopen : ∀ t ∈ texts, ∃ cs, t = '"' :: cs)
    (h : ∀ fuel, ∃ e,
      fieldsLoop fmt len item fuel [] (joinComma texts ++ '}' :: rest) = .error e) :
    ∃ e, objectBody fmt len item (joinComma texts ++ '}' :: rest) = .error e := by
  obtain ⟨text, texts, rfl⟩ := List.exists_cons_of_ne_nil hne
  obtain ⟨cs, heq⟩ := hopen text List.mem_cons_self
  obtain ⟨tail, htail⟩ : ∃ tail, joinComma (text :: texts) ++ '}' :: rest = '"' :: tail := by
    cases texts with
    | nil => exact ⟨cs ++ '}' :: rest, by rw [joinComma, heq]; rfl⟩
    | cons next more =>
      rw [joinComma_cons_cons, heq]
      exact ⟨_, rfl⟩
  rw [htail] at h ⊢
  rw [objectBody_quote]
  exact h _

mutual

/-- A text that nests deeper than there is room for is refused. -/
theorem value_refused {room : ℕ} : ∀ v : Value, v.WF → Plain fmt v → room ≤ textDepth v →
    Refuses (value fmt len room) (writeValue fmt v)
  | v, hwf, hplain, hdeep => by
    cases room with
    | zero => exact refuses_zero fmt len _
    | succ room =>
      match v, hwf, hplain, hdeep with
      | .float f, _, _, hdeep =>
        rw [textDepth] at hdeep
        cases hf : f.isFinite with
        | true =>
          rw [hf, if_pos rfl] at hdeep
          omega
        | false =>
          rw [hf, if_neg Bool.false_ne_true] at hdeep
          obtain rfl : room = 0 := by omega
          rw [writeValue, hf, if_neg Bool.false_ne_true]
          exact value_marker_error fmt len (by decide) (refuses_zero fmt len _)
      | .decimal d, _, _, hdeep =>
        rw [textDepth] at hdeep
        obtain rfl : room = 0 := by omega
        exact value_marker_error fmt len (by decide) (refuses_zero fmt len _)
      | .timestamp ms, _, _, hdeep =>
        rw [textDepth] at hdeep
        obtain rfl : room = 0 := by omega
        exact value_marker_error fmt len (by decide) (refuses_zero fmt len _)
      | .bytes b, _, _, hdeep => exact refuses_bytes fmt len hdeep
      | .array items, hwf, hplain, hdeep =>
        rw [textDepth] at hdeep
        have hne : writeItems fmt items ≠ [] := by
          intro hnil
          cases items with
          | nil =>
            rw [itemsDepth] at hdeep
            omega
          | cons v vs => cases hnil
        intro rest _
        rw [writeValue, List.cons_append, value_cons len fmt room (by decide),
          valueBody_bracket, List.append_assoc]
        exact arrayBody_refused len hne (writeItems_opens fmt items) fun fuel =>
          items_refused items hwf hplain hdeep fuel [] rest
      | .object fields, hwf, hplain, hdeep =>
        rw [textDepth] at hdeep
        have hne : writeFields fmt fields ≠ [] := by
          intro hnil
          cases fields with
          | nil =>
            rw [fieldsDepth] at hdeep
            omega
          | cons p fs => cases hnil
        intro rest _
        rw [writeValue, List.cons_append, value_cons len fmt room (by decide),
          valueBody_brace, List.append_assoc]
        exact objectBody_refused fmt len hne (writeFields_opens fmt fields) fun fuel =>
          fields_refused fields hwf.2 hplain.2 hdeep fuel [] rest
      | .null, _, _, hdeep | .bool _, _, _, hdeep | .int _, _, _, hdeep | .str _, _, _, hdeep =>
        exact absurd hdeep (Nat.not_succ_le_zero room)

/-- The items in front of the deep one are read. -/
theorem items_refused {room : ℕ} : ∀ items : List Value, wfItems items → plainItems fmt items →
    room < itemsDepth items → ∀ fuel acc rest, ∃ e,
      itemsLoop len (value fmt len room) fuel acc
        (joinComma (writeItems fmt items) ++ ']' :: rest) = .error e
  | [], _, _, hdeep => by
    rw [itemsDepth] at hdeep
    omega
  | v :: vs, hwf, hplain, hdeep => by
    intro fuel acc rest
    cases fuel with
    | zero => exact ⟨_, rfl⟩
    | succ fuel =>
      rw [itemsDepth] at hdeep
      obtain ⟨more, hsplit, hstop⟩ : ∃ more, joinComma (writeItems fmt (v :: vs)) ++ ']' :: rest =
          writeValue fmt v ++ more ∧ Stops more := by
        cases vs with
        | nil => exact ⟨']' :: rest, rfl, stops_cons (by decide) rest⟩
        | cons w ws =>
          exact ⟨_, by rw [writeItems, writeItems, joinComma_cons_cons, List.append_assoc]; rfl,
            stops_cons (by decide) _⟩
      by_cases hv : textDepth v < room
      · have hread := value_reads len fmt v hwf.1 hplain.1 hv
        cases vs with
        | nil =>
          rw [itemsDepth] at hdeep
          omega
        | cons w ws =>
          rw [writeItems, writeItems, joinComma_cons_cons, List.append_assoc, List.cons_append,
            itemsLoop_comma len (hread _ (stops_cons (by decide) _))]
          exact items_refused (w :: ws) hwf.2 hplain.2 (by omega) fuel _ rest
      · obtain ⟨e, he⟩ := value_refused v hwf.1 hplain.1 (not_lt.mp hv) more hstop
        rw [hsplit, itemsLoop, he]
        exact ⟨e, rfl⟩

theorem fields_refused {room : ℕ} : ∀ fields : List (String × Value), wfFields fields →
    plainFields fmt fields → room < fieldsDepth fields → ∀ fuel acc rest, ∃ e,
      fieldsLoop fmt len (value fmt len room) fuel acc
        (joinComma (writeFields fmt fields) ++ '}' :: rest) = .error e
  | [], _, _, hdeep => by
    rw [fieldsDepth] at hdeep
    omega
  | (k, v) :: fs, hwf, hplain, hdeep => by
    intro fuel acc rest
    cases fuel with
    | zero => exact ⟨_, rfl⟩
    | succ fuel =>
      rw [fieldsDepth] at hdeep
      obtain ⟨more, hsplit, hstop⟩ : ∃ more,
          joinComma (writeFields fmt ((k, v) :: fs)) ++ '}' :: rest =
            writeString k ++ ':' :: (writeValue fmt v ++ more) ∧ Stops more := by
        cases fs with
        | nil =>
          exact ⟨'}' :: rest, by simp [writeFields, joinComma], stops_cons (by decide) rest⟩
        | cons q qs =>
          obtain ⟨k', w⟩ := q
          exact ⟨_, by
            rw [writeFields, writeFields, joinComma_cons_cons]
            simp only [List.append_assoc, List.cons_append]
            rfl, stops_cons (by decide) _⟩
      by_cases hv : textDepth v < room
      · have hread := value_reads len fmt v hwf.1 hplain.1 hv
        cases fs with
        | nil =>
          rw [fieldsDepth] at hdeep
          omega
        | cons q qs =>
          obtain ⟨k', w⟩ := q
          rw [writeFields, writeFields, joinComma_cons_cons, List.append_assoc,
            List.cons_append (a := ','),
            fieldsLoop_comma len fmt (field_writeString len (hread _ (stops_cons (by decide) _)))]
          exact fields_refused ((k', w) :: qs) hwf.2 hplain.2 (by omega) fuel _ rest
      · obtain ⟨e, he⟩ := value_refused v hwf.1 hplain.1 (not_lt.mp hv) more hstop
        rw [hsplit, fieldsLoop, field_eq_map, he]
        exact ⟨e, rfl⟩

end

end Reader

/-- The values that are read back from their own text. -/
theorem fromText_toText_iff (fmt : Formats) {v : Value} (hwf : v.WF) :
    fromText fmt (toText fmt v) = .ok v ↔
      Plain fmt v ∧ canonNan v = v ∧ textDepth v ≤ maxDepth := by
  constructor
  · intro h
    have hsound := fromText_sound h
    refine ⟨hsound.plain, hsound.canon, not_lt.mp fun hdeep => ?_⟩
    have hopen := writeValue_opens fmt v
    obtain ⟨e, he⟩ := value_refused fmt (String.ofList (writeValue fmt v)).utf8ByteSize v hwf
      hsound.plain (Nat.succ_le_of_lt hdeep) [] stops_nil
    rw [toText, fromText_ofList hopen, ← List.append_nil (writeValue fmt v)] at h
    rw [List.append_nil] at h he
    rw [he] at h
    cases h
  · rintro ⟨hplain, hcanon, hdepth⟩
    rw [fromText_toText hwf hplain hdepth, hcanon]

end Docsql.Json
