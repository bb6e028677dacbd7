import Docsql.EncodeRoundTrip

/-!
# Reading one field of a document

`Decoder::skip_at` walks over a value without building it, and `extract_field`
uses it to find one field in the bytes of a document.  The walker stops where the
decoder stops, at every depth; so the field is the one the decoded document has.
-/

namespace Docsql

open StreamReader

/-- `n` steps in a row. -/
def skipLoop (skip : Decoder Unit) : ℕ → Decoder Unit
  | 0 => return ()
  | n + 1 => do
    skip
    skipLoop skip n

/-- Advance past one value with `room` levels of nesting left. -/
def skipAt : ℕ → Decoder Unit
  | 0 => throw .tooDeep
  | room + 1 => do
    match ← u8 with
    | 0 => return ()
    | 1 => discard u8
    | 2 | 3 | 9 => discard (take 8)
    | 8 => discard (take 16)
    | 4 | 5 => do
      let len ← u32
      discard (take len)
    | 6 => do
      let len ← u32
      skipLoop (skipAt room) len
    | 7 => do
      let len ← u32
      skipLoop (do
        let klen ← u32
        discard (take klen)
        skipAt room) len
    | t => throw (.unknownTag t)

def skipValue : Decoder Unit := skipAt (maxDepth + 1)

section Codec

variable (codec : DecimalCodec)

/-- `n` entries from here on: the value of the first one named `field`. -/
def extractLoop (field : String) : ℕ → Decoder (Option Value)
  | 0 => return none
  | n + 1 => do
    let key ← string
    if key = field then return some (← value codec)
    else
      skipValue
      extractLoop field n

/-- One top-level field; `none` when the root is not an object. -/
def extractField (buf : List UInt8) (field : String) : Except EncodeError (Option Value) := do
  let (found, _) ← StateT.run (do
    if (← u8) ≠ 7 then return none
    else
      let len ← u32
      extractLoop codec field len) buf
  return found

end Codec

/-- The field of a decoded document. -/
def Value.getField (v : Value) (field : String) : Option Value :=
  match v with
  | .object obj => obj.lookup field
  | _ => none

/-! ## The walker stops where the decoder stops -/

theorem fromUtf8_idle (raw : List UInt8) : Idle (fromUtf8 raw) := by
  unfold fromUtf8
  split
  · exact Idle.pure _
  · exact Idle.throw _

theorem discard_follows {α β : Type} {m : Decoder α} {n : Decoder β} (h : Follows n m) :
    Follows (discard n) m := by
  intro s a t hm
  obtain ⟨b, hb⟩ := h s a t hm
  refine ⟨(), ?_⟩
  show (n >>= fun _ => pure ()) s = _
  exact bind_eq_ok_iff.mpr ⟨b, t, hb, rfl⟩

theorem skipBytes_follows_bytes :
    Follows (do let len ← u32; discard (take len)) bytes :=
  Follows.bind_same fun len => discard_follows (Follows.refl (take len))

theorem skipBytes_follows_string :
    Follows (do let len ← u32; discard (take len)) string :=
  skipBytes_follows_bytes.bind_idle fromUtf8_idle

theorem skipLoop_follows_items {skip : Decoder Unit} {item : Decoder Value}
    (h : Follows skip item) (n : ℕ) : Follows (skipLoop skip n) (itemsLoop item n) := by
  induction n with
  | zero => exact Follows.pure _ _
  | succ n ih => exact h.bind fun _ _ => ih.bind_idle fun _ => Idle.pure _

theorem skipLoop_follows_fields {skip : Decoder Unit} {item : Decoder Value}
    (h : Follows skip item) (n : ℕ) (obj : List (String × Value)) :
    Follows (skipLoop (do let klen ← u32; discard (take klen); skip) n)
      (fieldsLoop item n obj) := by
  induction n generalizing obj with
  | zero => exact Follows.pure _ _
  | succ n ih =>
      have hround : Follows ((do let klen ← u32; discard (take klen); skip) >>= fun _ =>
          skipLoop (do let klen ← u32; discard (take klen); skip) n)
          (string >>= fun k => item >>= fun v =>
            if containsKey k obj then throw (.duplicateKey k)
            else fieldsLoop item n (insertField k v obj)) := by
        have hassoc : ((do let klen ← u32; discard (take klen); skip) >>= fun _ =>
            skipLoop (do let klen ← u32; discard (take klen); skip) n : Decoder Unit) =
            (do let klen ← u32; discard (take klen)) >>= fun _ => skip >>= fun _ =>
              skipLoop (do let klen ← u32; discard (take klen); skip) n := by
          simp only [bind_assoc]
        rw [hassoc]
        refine skipBytes_follows_string.bind fun _ k => h.bind fun _ v => ?_
        split
        · exact Follows.of_throw _ _
        · exact ih _
      exact hround

theorem boolv_follows : Follows (discard u8) boolv := by
  refine (discard_follows (Follows.refl u8)).bind_idle fun b => ?_
  split
  · exact Idle.pure _
  · exact Idle.pure _
  · exact Idle.throw _

theorem decimalv_follows (codec : DecimalCodec) :
    Follows (discard (take 16)) (decimalv codec) := by
  refine (discard_follows (Follows.refl (take 16))).bind_idle fun b => ?_
  simp only
  split
  · exact Idle.pure _
  · exact Idle.throw _

/-- Where a value is read, a value is skipped, and both stop at the same place. -/
theorem skipAt_follows (codec : DecimalCodec) (room : ℕ) :
    Follows (skipAt room) (valueAt codec room) := by
  induction room with
  | zero => exact Follows.of_throw _ _
  | succ room ih =>
      refine Follows.bind_same fun t => ?_
      have height : Follows (discard (take 8)) (take 8) := discard_follows (Follows.refl _)
      split
      · exact Follows.pure _ _
      · exact boolv_follows.bind_idle fun _ => Idle.pure _
      · exact (height.bind_idle fun _ => Idle.pure _).bind_idle fun _ => Idle.pure _
      · exact (height.bind_idle fun _ => Idle.pure _).bind_idle fun _ => Idle.pure _
      · exact (height.bind_idle fun _ => Idle.pure _).bind_idle fun _ => Idle.pure _
      · exact (decimalv_follows codec).bind_idle fun _ => Idle.pure _
      · exact skipBytes_follows_string.bind_idle fun _ => Idle.pure _
      · exact skipBytes_follows_bytes.bind_idle fun _ => Idle.pure _
      · exact Follows.bind_same fun len =>
          (skipLoop_follows_items ih len).bind_idle fun _ => Idle.pure _
      · exact Follows.bind_same fun len =>
          (skipLoop_follows_fields ih len []).bind_idle fun _ => Idle.pure _
      · split <;> first | exact Follows.of_throw _ _ | simp_all

/-! ## More room reads the same values -/

theorem itemsLoop_extends {item more : Decoder Value} (h : Extends more item) (n : ℕ) :
    Extends (itemsLoop more n) (itemsLoop item n) := by
  induction n with
  | zero => exact Extends.refl _
  | succ n ih => exact h.bind fun _ => ih.bind fun _ => Extends.refl _

theorem fieldsLoop_extends {item more : Decoder Value} (h : Extends more item) (n : ℕ)
    (obj : List (String × Value)) : Extends (fieldsLoop more n obj) (fieldsLoop item n obj) := by
  induction n generalizing obj with
  | zero => exact Extends.refl _
  | succ n ih =>
      refine (Extends.refl string).bind fun k => h.bind fun v => ?_
      split
      · exact Extends.of_throw _ _
      · exact ih _

theorem valueAt_extends (codec : DecimalCodec) (room : ℕ) :
    Extends (valueAt codec (room + 1)) (valueAt codec room) := by
  induction room with
  | zero => exact Extends.of_throw _ _
  | succ room ih =>
      refine (Extends.refl u8).bind fun t => ?_
      split
      case h_7 => exact (Extends.refl u32).bind fun n =>
        (itemsLoop_extends ih n).bind fun _ => Extends.refl _
      case h_8 => exact (Extends.refl u32).bind fun n =>
        (fieldsLoop_extends ih n []).bind fun _ => Extends.refl _
      all_goals exact Extends.refl _

/-- A child is skipped as a value of its own. -/
theorem skipValue_follows_child (codec : DecimalCodec) :
    Follows skipValue (valueAt codec maxDepth) :=
  (skipAt_follows codec (maxDepth + 1)).trans (valueAt_extends codec maxDepth).follows

/-! ## The field that is found -/

theorem containsKey_eq_isSome {α : Type} (k : String) (fs : List (String × α)) :
    containsKey k fs = (fs.lookup k).isSome := by
  induction fs with
  | nil => rfl
  | cons p fs ih =>
      obtain ⟨k', v⟩ := p
      rw [containsKey, List.any_cons, ← containsKey, ih, List.lookup_cons]
      by_cases hk : k = k'
      · subst hk
        simp [cmpStr_self]
      · have hne : cmpStr k k' ≠ .eq := fun h => hk (Std.LawfulEqCmp.eq_of_compare h)
        rw [beq_false_of_ne hk, beq_false_of_ne hne, Bool.false_or]

/-- One round of the object loop that succeeds. -/
theorem fieldsLoop_succ_eq_ok {item : Decoder Value} {n : ℕ} {acc obj : List (String × Value)}
    {s rest : List UInt8} (h : fieldsLoop item (n + 1) acc s = .ok (obj, rest)) :
    ∃ k s₁ v s₂, string s = .ok (k, s₁) ∧ item s₁ = .ok (v, s₂) ∧ acc.lookup k = none ∧
      fieldsLoop item n (insertField k v acc) s₂ = .ok (obj, rest) := by
  obtain ⟨k, s₁, hk, h⟩ := bind_eq_ok_iff.mp h
  obtain ⟨v, s₂, hv, h⟩ := bind_eq_ok_iff.mp h
  rw [containsKey_eq_isSome] at h
  split_ifs at h with hmem
  · cases h
  · exact ⟨k, s₁, v, s₂, hk, hv, Option.not_isSome_iff_eq_none.mp hmem, h⟩

/-- A field that was read keeps its value: a second one of its name is corruption. -/
theorem fieldsLoop_lookup_of_some {item : Decoder Value} {field : String} {v : Value} {n : ℕ}
    {acc obj : List (String × Value)} {s rest : List UInt8} (hacc : acc.lookup field = some v)
    (h : fieldsLoop item n acc s = .ok (obj, rest)) : obj.lookup field = some v := by
  induction n generalizing acc s with
  | zero =>
      cases h
      exact hacc
  | succ n ih =>
      obtain ⟨k, s₁, w, s₂, -, -, hk, h⟩ := fieldsLoop_succ_eq_ok h
      refine ih ?_ h
      have hne : field ≠ k := by
        rintro rfl
        rw [hacc] at hk
        cases hk
      rw [lookup_insertField, if_neg hne, hacc]

theorem extractLoop_eq_ok (codec : DecimalCodec) {field : String} {n : ℕ}
    {acc obj : List (String × Value)} {s rest : List UInt8} (hacc : acc.lookup field = none)
    (h : fieldsLoop (valueAt codec maxDepth) n acc s = .ok (obj, rest)) :
    ∃ t, extractLoop codec field n s = .ok (obj.lookup field, t) := by
  induction n generalizing acc s with
  | zero =>
      cases h
      exact ⟨_, by rw [hacc]; rfl⟩
  | succ n ih =>
      obtain ⟨k, s₁, v, s₂, hk, hv, -, h⟩ := fieldsLoop_succ_eq_ok h
      by_cases hfield : k = field
      · subst hfield
        have hread : (insertField k v acc).lookup k = some v := by
          rw [lookup_insertField, if_pos rfl]
        have hlast := fieldsLoop_lookup_of_some hread h
        refine ⟨s₂, bind_eq_ok_iff.mpr ⟨k, s₁, hk, ?_⟩⟩
        rw [if_pos rfl, hlast]
        exact bind_eq_ok_iff.mpr ⟨v, s₂, valueAt_extends codec maxDepth _ _ hv, rfl⟩
      · obtain ⟨⟨⟩, hskip⟩ := skipValue_follows_child codec s₁ v s₂ hv
        have hnext : (insertField k v acc).lookup field = none := by
          rw [lookup_insertField, if_neg (Ne.symm hfield), hacc]
        obtain ⟨t, ht⟩ := ih hnext h
        refine ⟨t, bind_eq_ok_iff.mpr ⟨k, s₁, hk, ?_⟩⟩
        rw [if_neg hfield]
        exact bind_eq_ok_iff.mpr ⟨(), s₂, hskip, ht⟩

/-- Where the bytes decode, the field is the one of the decoded value. -/
theorem extractField_of_decode {codec : DecimalCodec} {buf : List UInt8} {v : Value}
    (h : decode codec buf = .ok v) (field : String) :
    extractField codec buf field = .ok (v.getField field) := by
  obtain ⟨t, s, htag, h⟩ := bind_eq_ok_iff.mp (decode_eq_ok.mp h)
  by_cases hobj : t = 7
  · subst hobj
    obtain ⟨len, s₁, hlen, h⟩ := bind_eq_ok_iff.mp h
    obtain ⟨obj, s₂, hfields, h⟩ := bind_eq_ok_iff.mp h
    cases h
    have hempty : ([] : List (String × Value)).lookup field = none := rfl
    obtain ⟨rest, hfound⟩ := extractLoop_eq_ok codec hempty hfields
    refine Except.bind_eq_ok_iff.mpr ⟨(obj.lookup field, rest), ?_, rfl⟩
    refine bind_eq_ok_iff.mpr ⟨7, s, htag, ?_⟩
    exact bind_eq_ok_iff.mpr ⟨len, s₁, hlen, hfound⟩
  · have hnone : v.getField field = none := by
      split at h
      case h_1 =>
        cases h
        rfl
      case h_7 =>
        obtain ⟨_, _, -, h⟩ := bind_eq_ok_iff.mp h
        obtain ⟨_, _, -, ⟨⟩⟩ := bind_eq_ok_iff.mp h
        rfl
      case h_8 => exact absurd rfl hobj
      case h_11 => cases h
      all_goals
        obtain ⟨_, _, -, ⟨⟩⟩ := bind_eq_ok_iff.mp h
        rfl
    refine Except.bind_eq_ok_iff.mpr ⟨(none, s), ?_, by rw [hnone]; rfl⟩
    refine bind_eq_ok_iff.mpr ⟨t, s, htag, ?_⟩
    rw [if_pos hobj]
    rfl

/-- Field extraction: on the bytes of a document it is the lookup in the
document, on any bytes that decode it is the lookup in what they decode to, and
the walker it rests on follows the decoder at every depth. -/
theorem field_extraction (codec : DecimalCodec) :
    (∀ doc field bs, (Value.object doc).WF → encodeObject codec doc = .ok bs →
      decode codec bs = .ok (.object doc) ∧
        extractField codec bs field = .ok (doc.lookup field)) ∧
    (∀ buf v field, decode codec buf = .ok v →
      extractField codec buf field = .ok (v.getField field)) ∧
    ∀ room buf v rest, valueAt codec room buf = .ok (v, rest) →
      skipAt room buf = .ok ((), rest) := by
  refine ⟨?_, fun _ _ field h => extractField_of_decode h field, ?_⟩
  · intro doc field bs hwf h
    rw [encodeObject_eq] at h
    have hdec := decode_of_encode hwf h
    exact ⟨hdec, extractField_of_decode hdec field⟩
  · intro room buf v rest h
    obtain ⟨⟨⟩, hskip⟩ := skipAt_follows codec room buf v rest h
    exact hskip

theorem field_extraction_behind_nested :
    let doc : List (String × Value) := [("a", .array [.int 7, .null]), ("b", .bool true)]
    let bs : List UInt8 := [7, 2, 0, 0, 0, 1, 0, 0, 0, 97, 6, 2, 0, 0, 0, 2, 7, 0, 0, 0, 0, 0, 0, 0,
      0, 1, 0, 0, 0, 98, 1, 1]
    (Value.object doc).WF ∧ encodeObject rustDecimal doc = .ok bs ∧
      extractField rustDecimal bs "b" = .ok (some (.bool true)) ∧
      extractField rustDecimal bs "c" = .ok none ∧
      skipAt 128 (bs.drop 10) = .ok ((), bs.drop 25) := by
  intro doc bs
  have hwf : (Value.object doc).WF := by
    refine ⟨List.pairwise_cons.mpr ⟨?_, List.pairwise_singleton _ _⟩, ?_⟩
    · intro p hp
      rw [List.mem_singleton] at hp
      rw [hp]
      decide
    · exact ⟨⟨trivial, trivial, trivial⟩, trivial, trivial⟩
  have henc : encode rustDecimal (.object
      [("a", .array [.int 7, .null]), ("b", .bool true)]) = .ok bs := rfl
  rw [← encodeObject_eq] at henc
  obtain ⟨hdoc, hbuf, hskip⟩ := field_extraction rustDecimal
  exact ⟨hwf, henc, (hdoc doc "b" bs hwf henc).2,
    hbuf bs (.object doc) "c" (hdoc doc "c" bs hwf henc).1,
    hskip 128 (bs.drop 10) (.array [.int 7, .null]) (bs.drop 25) rfl⟩

end Docsql
