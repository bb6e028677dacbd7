import Docsql.Encode
import Docsql.Lib.StateExcept

/-!
# Round trip of the value encoding

Every primitive reader takes back exactly what the encoder wrote for it, in
front of any further bytes.  The values follow by recursion on the value: the
depth the encoder counts up is the room the decoder counts down.
-/

namespace Docsql

open StreamReader

theorem putU32_eq_ok {n : ℕ} {bs : List UInt8} :
    putU32 n = .ok bs ↔ n < 2 ^ 32 ∧ bs = Bytes.toLE 4 n := by
  unfold putU32
  split_ifs with h
  · rw [Except.ok.injEq, eq_comm]
    exact (and_iff_right h).symm
  · exact iff_of_false (by simp) fun h' => h h'.1

theorem putU32_ne_tooDeep (n : ℕ) : putU32 n ≠ .error .tooDeep := by
  unfold putU32
  split_ifs <;> simp

theorem guardDepth_eq_ok {depth : ℕ} {body : Encoded} {bs : List UInt8} :
    guardDepth depth body = .ok bs ↔ depth ≤ maxDepth ∧ body = .ok bs := by
  unfold guardDepth
  split_ifs with h <;> simp <;> omega

theorem guardDepth_eq_error {depth : ℕ} {body : Encoded} {e : EncodeError}
    (h : guardDepth depth body = .error e) (hd : depth ≤ maxDepth) : body = .error e := by
  rwa [guardDepth, if_neg (by omega)] at h

/-! ## Primitive readers -/

theorem take_reads {n : ℕ} {xs : List UInt8} (h : xs.length = n) : Reads (take n) xs xs := by
  intro rest
  have hlen : ¬(xs ++ rest).length < n := by
    rw [List.length_append]
    omega
  rw [take, if_neg hlen, ← h, List.take_left, List.drop_left]

theorem u8_reads (t : UInt8) : Reads u8 [t] t :=
  Reads.map (take_reads rfl) fun b : List UInt8 => b.headD 0

theorem u32_reads {n : ℕ} (h : n < 2 ^ 32) : Reads u32 (Bytes.toLE 4 n) n := by
  have := Reads.map (take_reads (Bytes.length_toLE 4 n)) Bytes.ofLE
  rwa [Bytes.ofLE_toLE h] at this

theorem i64v_reads (i : Int64) : Reads i64v (i64Bytes i) i := by
  have hlt : i.toUInt64.toNat < 256 ^ 8 := UInt64.toNat_lt _
  have := Reads.map (take_reads (Bytes.length_toLE 8 i.toUInt64.toNat))
    fun b => (UInt64.ofNat (Bytes.ofLE b)).toInt64
  rwa [Bytes.ofLE_toLE hlt, UInt64.ofNat_toNat, Int64.toInt64_toUInt64] at this

theorem f64v_reads (f : Binary64) : Reads f64v (f64Bytes f) f := by
  have hlt : f.bits.toNat < 256 ^ 8 := f.bits.isLt
  have := Reads.map (take_reads (Bytes.length_toLE 8 f.bits.toNat))
    fun b => (⟨BitVec.ofNat 64 (Bytes.ofLE b)⟩ : Binary64)
  rwa [Bytes.ofLE_toLE hlt, BitVec.ofNat_toNat, BitVec.setWidth_eq] at this

theorem bytes_reads {b : List UInt8} (h : b.length < 2 ^ 32) :
    Reads bytes (Bytes.toLE 4 b.length ++ b) b :=
  (u32_reads h).bind (take_reads rfl)

theorem fromUTF8_asBytes (s : String) : String.fromUTF8? ⟨(asBytes s).toArray⟩ = some s := by
  have hbytes : (⟨(asBytes s).toArray⟩ : ByteArray) = s.toByteArray := by
    simp [asBytes]
  rw [hbytes, String.fromUTF8?, dif_pos s.isValidUTF8]
  rfl

theorem string_reads {s : String} (h : (asBytes s).length < 2 ^ 32) :
    Reads string (Bytes.toLE 4 (asBytes s).length ++ asBytes s) s := by
  refine (bytes_reads h).bind_nil ?_
  rw [fromUtf8, fromUTF8_asBytes]
  exact Reads.pure s

theorem decimalv_reads (codec : DecimalCodec) (d : Decimal) :
    Reads (decimalv codec) (codec.serialize d) d := by
  refine (take_reads (codec.length_serialize d)).bind_nil ?_
  simp only [codec.deserialize_serialize, d.scale_le, dif_pos]
  exact Reads.pure d

theorem boolv_reads (b : Bool) : Reads boolv [if b then 1 else 0] b := by
  refine (u8_reads _).bind_nil ?_
  cases b
  · exact Reads.pure false
  · exact Reads.pure true

/-! ## Object fields arrive in key order -/

theorem insertField_last {α : Type} {k : String} {v : α} {fs : List (String × α)}
    (h : ∀ p ∈ fs, cmpStr p.1 k = .lt) : insertField k v fs = fs ++ [(k, v)] := by
  induction fs with
  | nil => rfl
  | cons p fs ih =>
      obtain ⟨k', v'⟩ := p
      have hgt : cmpStr k k' = .gt := by
        rw [Std.OrientedCmp.gt_iff_lt]
        exact h (k', v') (by simp)
      rw [insertField, hgt]
      simp only [List.cons_append]
      rw [ih fun q hq => h q (by simp [hq])]

theorem mem_insertField {α : Type} {k : String} {v : α} {fs : List (String × α)}
    {p : String × α} (h : p ∈ insertField k v fs) : p = (k, v) ∨ p ∈ fs := by
  induction fs with
  | nil => exact .inl (List.mem_singleton.mp h)
  | cons q fs ih =>
    obtain ⟨k', v'⟩ := q
    rw [insertField] at h
    split at h
    · exact List.mem_cons.mp h
    · exact (List.mem_cons.mp h).imp_right (List.mem_cons_of_mem _)
    · rcases List.mem_cons.mp h with rfl | hmem
      · exact .inr List.mem_cons_self
      · exact (ih hmem).imp_right (List.mem_cons_of_mem _)

theorem lookup_insertField {α : Type} (k j : String) (v : α) (m : List (String × α)) :
    (insertField k v m).lookup j = if j = k then some v else m.lookup j := by
  induction m with
  | nil =>
    rw [insertField, List.lookup_cons]
    by_cases hj : j = k
    · simp [hj]
    · rw [beq_false_of_ne hj, if_neg hj]
  | cons p m ih =>
    obtain ⟨k', v'⟩ := p
    rw [insertField]
    split
    · rw [List.lookup_cons]
      by_cases hj : j = k
      · simp [hj]
      · rw [beq_false_of_ne hj, if_neg hj]
    · rename_i heq
      have hk : k = k' := Std.LawfulEqCmp.eq_of_compare heq
      rw [List.lookup_cons, List.lookup_cons, ← hk]
      by_cases hj : j = k
      · simp [hj]
      · rw [beq_false_of_ne hj, if_neg hj]
    · rename_i hgt
      have hk : k' ≠ k := by
        rintro rfl
        rw [cmpStr_self] at hgt
        cases hgt
      rw [List.lookup_cons, List.lookup_cons, ih]
      by_cases hj : j = k'
      · simp [hj, hk]
      · rw [beq_false_of_ne hj]

theorem containsKey_of_lt {α : Type} {k : String} {fs : List (String × α)}
    (h : ∀ p ∈ fs, cmpStr p.1 k = .lt) : containsKey k fs = false := by
  rw [containsKey, List.any_eq_false]
  intro p hp
  have hgt : cmpStr k p.1 = .gt := by
    rw [Std.OrientedCmp.gt_iff_lt]
    exact h p hp
  simp [hgt]

/-! ## The bytes of a value -/

section Wire

variable (codec : DecimalCodec)

mutual

/-- The bytes a value has on the wire, however deep it is. -/
def wire : Value → List UInt8
  | .null => [0]
  | .bool b => [1, if b then 1 else 0]
  | .int i => 2 :: i64Bytes i
  | .float f => 3 :: f64Bytes f
  | .decimal d => 8 :: codec.serialize d
  | .timestamp ms => 9 :: i64Bytes ms
  | .str s => 4 :: (Bytes.toLE 4 (asBytes s).length ++ asBytes s)
  | .bytes b => 5 :: (Bytes.toLE 4 b.length ++ b)
  | .array items => 6 :: (Bytes.toLE 4 items.length ++ wireItems items)
  | .object fields => 7 :: (Bytes.toLE 4 fields.length ++ wireFields fields)

def wireItems : List Value → List UInt8
  | [] => []
  | v :: vs => wire v ++ wireItems vs

def wireFields : List (String × Value) → List UInt8
  | [] => []
  | (k, v) :: fs => Bytes.toLE 4 (asBytes k).length ++ (asBytes k ++ (wire v ++ wireFields fs))

end

mutual

/-- What the encoder writes is the wire form. -/
theorem encodeAt_eq_wire {depth : ℕ} {bs : List UInt8} :
    ∀ v : Value, encodeAt codec depth v = .ok bs → bs = wire codec v
  | .null, h | .bool _, h | .int _, h | .float _, h | .decimal _, h | .timestamp _, h => by
      rw [encodeAt, guardDepth_eq_ok] at h
      cases h.2
      rfl
  | .str s, h | .bytes b, h => by
      rw [encodeAt, guardDepth_eq_ok, Except.bind_eq_ok_iff] at h
      obtain ⟨-, len, hlen, h⟩ := h
      cases h
      rw [(putU32_eq_ok.mp hlen).2]
      rfl
  | .array items, h => by
      rw [encodeAt, guardDepth_eq_ok, Except.bind_eq_ok_iff] at h
      obtain ⟨-, len, hlen, h⟩ := h
      obtain ⟨body, hbody, h⟩ := Except.bind_eq_ok_iff.mp h
      cases h
      rw [(putU32_eq_ok.mp hlen).2, encodeItems_eq_wire items hbody]
      rfl
  | .object fields, h => by
      rw [encodeAt, guardDepth_eq_ok, Except.bind_eq_ok_iff] at h
      obtain ⟨-, len, hlen, h⟩ := h
      obtain ⟨body, hbody, h⟩ := Except.bind_eq_ok_iff.mp h
      cases h
      rw [(putU32_eq_ok.mp hlen).2, encodeFields_eq_wire fields hbody]
      rfl

theorem encodeItems_eq_wire {depth : ℕ} {bs : List UInt8} :
    ∀ vs : List Value, encodeItems codec depth vs = .ok bs → bs = wireItems codec vs
  | [], h => by
      cases h
      rfl
  | v :: vs, h => by
      obtain ⟨head, hhead, h⟩ := Except.bind_eq_ok_iff.mp h
      obtain ⟨tail, htail, h⟩ := Except.bind_eq_ok_iff.mp h
      cases h
      rw [encodeAt_eq_wire v hhead, encodeItems_eq_wire vs htail]
      rfl

theorem encodeFields_eq_wire {depth : ℕ} {bs : List UInt8} :
    ∀ fs : List (String × Value), encodeFields codec depth fs = .ok bs → bs = wireFields codec fs
  | [], h => by
      cases h
      rfl
  | (k, v) :: fs, h => by
      obtain ⟨klen, hklen, h⟩ := Except.bind_eq_ok_iff.mp h
      obtain ⟨head, hhead, h⟩ := Except.bind_eq_ok_iff.mp h
      obtain ⟨tail, htail, h⟩ := Except.bind_eq_ok_iff.mp h
      cases h
      rw [(putU32_eq_ok.mp hklen).2, encodeAt_eq_wire v hhead, encodeFields_eq_wire fs htail]
      rfl

end

/-! ## Decoding what was encoded -/

/-- The room of a value the encoder accepts, and the room of its children. -/
theorem room_succ {depth : ℕ} (h : depth ≤ maxDepth) :
    maxDepth + 1 - depth = (maxDepth + 1 - (depth + 1)) + 1 := by
  omega

/-- A field whose key is above all keys read so far is put last. -/
theorem lt_of_sortedKeys_append {acc fs : List (String × Value)} {k : String} {v : Value}
    (h : SortedKeys (acc ++ (k, v) :: fs)) : ∀ p ∈ acc, cmpStr p.1 k = .lt := by
  intro p hp
  exact (List.pairwise_append.mp h).2.2 p hp (k, v) (by simp)

/-- One round of the object loop. -/
theorem fieldsLoop_succ {item : Decoder Value} {n : ℕ} {acc fs : List (String × Value)}
    {k : String} {v : Value} (h : SortedKeys (acc ++ (k, v) :: fs)) :
    (if containsKey k acc then throw (.duplicateKey k)
      else fieldsLoop item n (insertField k v acc) : Decoder (List (String × Value))) =
      fieldsLoop item n (acc ++ [(k, v)]) := by
  have hlt := lt_of_sortedKeys_append h
  rw [containsKey_of_lt hlt, insertField_last hlt]
  rfl

mutual

theorem encodeAt_reads {depth : ℕ} {bs : List UInt8} :
    ∀ v : Value, v.WF → encodeAt codec depth v = .ok bs →
      Reads (valueAt codec (maxDepth + 1 - depth)) bs v
  | .null, _, h => by
      rw [encodeAt, guardDepth_eq_ok] at h
      obtain ⟨hd, ⟨⟩⟩ := h
      rw [room_succ hd]
      exact (u8_reads 0).bind (Reads.pure _)
  | .bool b, _, h => by
      rw [encodeAt, guardDepth_eq_ok] at h
      obtain ⟨hd, ⟨⟩⟩ := h
      rw [room_succ hd]
      exact (u8_reads 1).bind ((boolv_reads b).map Value.bool)
  | .int i, _, h => by
      rw [encodeAt, guardDepth_eq_ok] at h
      obtain ⟨hd, ⟨⟩⟩ := h
      rw [room_succ hd]
      exact (u8_reads 2).bind ((i64v_reads i).map Value.int)
  | .float f, _, h => by
      rw [encodeAt, guardDepth_eq_ok] at h
      obtain ⟨hd, ⟨⟩⟩ := h
      rw [room_succ hd]
      exact (u8_reads 3).bind ((f64v_reads f).map Value.float)
  | .decimal d, _, h => by
      rw [encodeAt, guardDepth_eq_ok] at h
      obtain ⟨hd, ⟨⟩⟩ := h
      rw [room_succ hd]
      exact (u8_reads 8).bind ((decimalv_reads codec d).map Value.decimal)
  | .timestamp ms, _, h => by
      rw [encodeAt, guardDepth_eq_ok] at h
      obtain ⟨hd, ⟨⟩⟩ := h
      rw [room_succ hd]
      exact (u8_reads 9).bind ((i64v_reads ms).map Value.timestamp)
  | .str s, _, h => by
      rw [encodeAt, guardDepth_eq_ok, Except.bind_eq_ok_iff] at h
      obtain ⟨hd, len, hlen, ⟨⟩⟩ := h
      obtain ⟨hlt, rfl⟩ := putU32_eq_ok.mp hlen
      rw [room_succ hd]
      exact (u8_reads 4).bind ((string_reads hlt).map Value.str)
  | .bytes b, _, h => by
      rw [encodeAt, guardDepth_eq_ok, Except.bind_eq_ok_iff] at h
      obtain ⟨hd, len, hlen, ⟨⟩⟩ := h
      obtain ⟨hlt, rfl⟩ := putU32_eq_ok.mp hlen
      rw [room_succ hd]
      exact (u8_reads 5).bind ((bytes_reads hlt).map Value.bytes)
  | .array items, hwf, h => by
      rw [encodeAt, guardDepth_eq_ok, Except.bind_eq_ok_iff] at h
      obtain ⟨hd, len, hlen, h⟩ := h
      obtain ⟨body, hbody, ⟨⟩⟩ := Except.bind_eq_ok_iff.mp h
      obtain ⟨hlt, rfl⟩ := putU32_eq_ok.mp hlen
      rw [room_succ hd]
      exact (u8_reads 6).bind ((u32_reads hlt).bind ((encodeItems_reads items hwf hbody).map _))
  | .object fields, hwf, h => by
      rw [encodeAt, guardDepth_eq_ok, Except.bind_eq_ok_iff] at h
      obtain ⟨hd, len, hlen, h⟩ := h
      obtain ⟨body, hbody, ⟨⟩⟩ := Except.bind_eq_ok_iff.mp h
      obtain ⟨hlt, rfl⟩ := putU32_eq_ok.mp hlen
      rw [room_succ hd]
      exact (u8_reads 7).bind ((u32_reads hlt).bind
        ((encodeFields_reads fields [] hwf.2 hwf.1 hbody).map _))

theorem encodeItems_reads {depth : ℕ} {bs : List UInt8} :
    ∀ vs : List Value, wfItems vs → encodeItems codec depth vs = .ok bs →
      Reads (itemsLoop (valueAt codec (maxDepth + 1 - depth)) vs.length) bs vs
  | [], _, h => by
      cases h
      exact Reads.pure _
  | v :: vs, hwf, h => by
      obtain ⟨head, hhead, h⟩ := Except.bind_eq_ok_iff.mp h
      obtain ⟨tail, htail, ⟨⟩⟩ := Except.bind_eq_ok_iff.mp h
      exact (encodeAt_reads v hwf.1 hhead).bind ((encodeItems_reads vs hwf.2 htail).map _)

theorem encodeFields_reads {depth : ℕ} {bs : List UInt8} :
    ∀ fs acc : List (String × Value), wfFields fs → SortedKeys (acc ++ fs) →
      encodeFields codec depth fs = .ok bs →
      Reads (fieldsLoop (valueAt codec (maxDepth + 1 - depth)) fs.length acc) bs (acc ++ fs)
  | [], acc, _, _, h => by
      cases h
      rw [List.append_nil]
      exact Reads.pure _
  | (k, v) :: fs, acc, hwf, hsorted, h => by
      obtain ⟨klen, hklen, h⟩ := Except.bind_eq_ok_iff.mp h
      obtain ⟨head, hhead, h⟩ := Except.bind_eq_ok_iff.mp h
      obtain ⟨tail, htail, ⟨⟩⟩ := Except.bind_eq_ok_iff.mp h
      obtain ⟨hlt, rfl⟩ := putU32_eq_ok.mp hklen
      have hnext : SortedKeys ((acc ++ [(k, v)]) ++ fs) := by simpa using hsorted
      have hrest := encodeFields_reads fs (acc ++ [(k, v)]) hwf.2 hnext htail
      rw [← fieldsLoop_succ hsorted, List.append_assoc] at hrest
      rw [← List.append_assoc]
      exact (string_reads hlt).bind ((encodeAt_reads v hwf.1 hhead).bind hrest)

end

/-! ## Refusing what the encoder refuses -/

theorem putU32_eq_error {n : ℕ} {e : EncodeError} (h : putU32 n = .error e) :
    e = .tooManyItems := by
  unfold putU32 at h
  split_ifs at h
  cases h
  rfl

mutual

/-- The encoder fails in two ways only. -/
theorem encodeAt_error {depth : ℕ} {e : EncodeError} : ∀ v : Value,
    encodeAt codec depth v = .error e → e = .tooDeep ∨ e = .tooManyItems
  | v, h => by
      rcases Nat.lt_or_ge maxDepth depth with hd | hd
      · left
        cases v <;> rw [encodeAt, guardDepth, if_pos hd] at h <;> cases h <;> rfl
      match v with
      | .null | .bool _ | .int _ | .float _ | .decimal _ | .timestamp _ =>
          rw [encodeAt] at h
          cases guardDepth_eq_error h hd
      | .str s | .bytes b =>
          rw [encodeAt] at h
          rcases Except.bind_eq_error_iff.mp (guardDepth_eq_error h hd) with h | ⟨len, -, ⟨⟩⟩
          exact Or.inr (putU32_eq_error h)
      | .array items =>
          rw [encodeAt] at h
          rcases Except.bind_eq_error_iff.mp (guardDepth_eq_error h hd) with h | ⟨len, -, h⟩
          · exact Or.inr (putU32_eq_error h)
          rcases Except.bind_eq_error_iff.mp h with h | ⟨body, -, ⟨⟩⟩
          exact encodeItems_error items h
      | .object fields =>
          rw [encodeAt] at h
          rcases Except.bind_eq_error_iff.mp (guardDepth_eq_error h hd) with h | ⟨len, -, h⟩
          · exact Or.inr (putU32_eq_error h)
          rcases Except.bind_eq_error_iff.mp h with h | ⟨body, -, ⟨⟩⟩
          exact encodeFields_error fields h

theorem encodeItems_error {depth : ℕ} {e : EncodeError} : ∀ vs : List Value,
    encodeItems codec depth vs = .error e → e = .tooDeep ∨ e = .tooManyItems
  | [], h => by cases h
  | v :: vs, h => by
      rcases Except.bind_eq_error_iff.mp h with h | ⟨head, -, h⟩
      · exact encodeAt_error v h
      rcases Except.bind_eq_error_iff.mp h with h | ⟨tail, -, ⟨⟩⟩
      exact encodeItems_error vs h

theorem encodeFields_error {depth : ℕ} {e : EncodeError} : ∀ fs : List (String × Value),
    encodeFields codec depth fs = .error e → e = .tooDeep ∨ e = .tooManyItems
  | [], h => by cases h
  | (k, v) :: fs, h => by
      rcases Except.bind_eq_error_iff.mp h with h | ⟨klen, -, h⟩
      · exact Or.inr (putU32_eq_error h)
      rcases Except.bind_eq_error_iff.mp h with h | ⟨head, -, h⟩
      · exact encodeAt_error v h
      rcases Except.bind_eq_error_iff.mp h with h | ⟨tail, -, ⟨⟩⟩
      exact encodeFields_error fs h

end

theorem valueAt_refuses {depth : ℕ} (h : maxDepth < depth) (bs : List UInt8) :
    Refuses (valueAt codec (maxDepth + 1 - depth)) bs .tooDeep := by
  rw [show maxDepth + 1 - depth = 0 by omega]
  exact (Refuses.throw EncodeError.tooDeep).append bs

mutual

theorem encodeAt_refuses {depth : ℕ} : ∀ v : Value, v.WF →
    encodeAt codec depth v = .error .tooDeep →
    Refuses (valueAt codec (maxDepth + 1 - depth)) (wire codec v) .tooDeep
  | v, hwf, h => by
      rcases Nat.lt_or_ge maxDepth depth with hd | hd
      · exact valueAt_refuses codec hd _
      rw [room_succ hd]
      match v with
      | .null | .bool _ | .int _ | .float _ | .decimal _ | .timestamp _ =>
          rw [encodeAt] at h
          cases guardDepth_eq_error h hd
      | .str s | .bytes b =>
          rw [encodeAt] at h
          rcases Except.bind_eq_error_iff.mp (guardDepth_eq_error h hd) with h | ⟨len, -, ⟨⟩⟩
          exact absurd h (putU32_ne_tooDeep _)
      | .array items =>
          rw [encodeAt] at h
          rcases Except.bind_eq_error_iff.mp (guardDepth_eq_error h hd) with h | ⟨len, hlen, h⟩
          · exact absurd h (putU32_ne_tooDeep _)
          rcases Except.bind_eq_error_iff.mp h with h | ⟨body, -, ⟨⟩⟩
          exact Refuses.bind (u8_reads 6) (Refuses.bind (u32_reads (putU32_eq_ok.mp hlen).1)
            (encodeItems_refuses items hwf h).bind_left)
      | .object fields =>
          rw [encodeAt] at h
          rcases Except.bind_eq_error_iff.mp (guardDepth_eq_error h hd) with h | ⟨len, hlen, h⟩
          · exact absurd h (putU32_ne_tooDeep _)
          rcases Except.bind_eq_error_iff.mp h with h | ⟨body, -, ⟨⟩⟩
          exact Refuses.bind (u8_reads 7) (Refuses.bind (u32_reads (putU32_eq_ok.mp hlen).1)
            (encodeFields_refuses fields [] hwf.2 hwf.1 h).bind_left)

theorem encodeItems_refuses {depth : ℕ} : ∀ vs : List Value, wfItems vs →
    encodeItems codec depth vs = .error .tooDeep →
    Refuses (itemsLoop (valueAt codec (maxDepth + 1 - depth)) vs.length) (wireItems codec vs)
      .tooDeep
  | [], _, h => by cases h
  | v :: vs, hwf, h => by
      rcases Except.bind_eq_error_iff.mp h with h | ⟨head, hhead, h⟩
      · exact ((encodeAt_refuses v hwf.1 h).append _).bind_left
      rcases Except.bind_eq_error_iff.mp h with h | ⟨tail, -, ⟨⟩⟩
      have hfirst := encodeAt_reads codec v hwf.1 hhead
      rw [encodeAt_eq_wire codec v hhead] at hfirst
      exact Refuses.bind hfirst (encodeItems_refuses vs hwf.2 h).bind_left

theorem encodeFields_refuses {depth : ℕ} : ∀ fs acc : List (String × Value), wfFields fs →
    SortedKeys (acc ++ fs) → encodeFields codec depth fs = .error .tooDeep →
    Refuses (fieldsLoop (valueAt codec (maxDepth + 1 - depth)) fs.length acc)
      (wireFields codec fs) .tooDeep
  | [], _, _, _, h => by cases h
  | (k, v) :: fs, acc, hwf, hsorted, h => by
      rcases Except.bind_eq_error_iff.mp h with h | ⟨klen, hklen, h⟩
      · exact absurd h (putU32_ne_tooDeep _)
      have hkey := string_reads (putU32_eq_ok.mp hklen).1
      rw [wireFields, ← List.append_assoc]
      rcases Except.bind_eq_error_iff.mp h with h | ⟨head, hhead, h⟩
      · exact Refuses.bind hkey ((encodeAt_refuses v hwf.1 h).append _).bind_left
      rcases Except.bind_eq_error_iff.mp h with h | ⟨tail, -, ⟨⟩⟩
      have hfirst := encodeAt_reads codec v hwf.1 hhead
      rw [encodeAt_eq_wire codec v hhead] at hfirst
      have hnext : SortedKeys ((acc ++ [(k, v)]) ++ fs) := by simpa using hsorted
      have hrest := encodeFields_refuses fs (acc ++ [(k, v)]) hwf.2 hnext h
      rw [← fieldsLoop_succ hsorted] at hrest
      exact Refuses.bind hkey (Refuses.bind hfirst hrest)

end

end Wire

/-! ## The decoder does not look ahead -/

theorem take_isLocal (n : ℕ) : IsLocal (take n) := by
  intro s a s' h t
  unfold take at h ⊢
  split_ifs at h with hlen
  cases h
  have hlen' : ¬(s ++ t).length < n := by
    rw [List.length_append]
    omega
  rw [if_neg hlen', List.take_append_of_le_length (by omega),
    List.drop_append_of_le_length (by omega)]

theorem u8_isLocal : IsLocal u8 := (take_isLocal 1).bind fun _ => IsLocal.pure _

theorem u32_isLocal : IsLocal u32 := (take_isLocal 4).bind fun _ => IsLocal.pure _

theorem i64v_isLocal : IsLocal i64v := (take_isLocal 8).bind fun _ => IsLocal.pure _

theorem f64v_isLocal : IsLocal f64v := (take_isLocal 8).bind fun _ => IsLocal.pure _

theorem bytes_isLocal : IsLocal bytes := u32_isLocal.bind take_isLocal

theorem string_isLocal : IsLocal string := bytes_isLocal.bind fun raw => by
  unfold fromUtf8
  split
  · exact IsLocal.pure _
  · exact IsLocal.throw _

theorem boolv_isLocal : IsLocal boolv := u8_isLocal.bind fun b => by
  split
  · exact IsLocal.pure _
  · exact IsLocal.pure _
  · exact IsLocal.throw _

theorem decimalv_isLocal (codec : DecimalCodec) : IsLocal (decimalv codec) :=
  (take_isLocal 16).bind fun b => by
    simp only
    split
    · exact IsLocal.pure _
    · exact IsLocal.throw _

theorem itemsLoop_isLocal {item : Decoder Value} (h : IsLocal item) (n : ℕ) :
    IsLocal (itemsLoop item n) := by
  induction n with
  | zero => exact IsLocal.pure _
  | succ n ih => exact h.bind fun _ => ih.bind fun _ => IsLocal.pure _

theorem fieldsLoop_isLocal {item : Decoder Value} (h : IsLocal item) (n : ℕ)
    (obj : List (String × Value)) : IsLocal (fieldsLoop item n obj) := by
  induction n generalizing obj with
  | zero => exact IsLocal.pure _
  | succ n ih =>
      refine string_isLocal.bind fun k => h.bind fun v => ?_
      split
      · exact IsLocal.throw _
      · exact ih _

theorem valueAt_isLocal (codec : DecimalCodec) (room : ℕ) : IsLocal (valueAt codec room) := by
  induction room with
  | zero => exact IsLocal.throw _
  | succ room ih =>
      refine u8_isLocal.bind fun t => ?_
      split
      · exact IsLocal.pure _
      · exact boolv_isLocal.bind fun _ => IsLocal.pure _
      · exact i64v_isLocal.bind fun _ => IsLocal.pure _
      · exact f64v_isLocal.bind fun _ => IsLocal.pure _
      · exact string_isLocal.bind fun _ => IsLocal.pure _
      · exact bytes_isLocal.bind fun _ => IsLocal.pure _
      · exact u32_isLocal.bind fun _ => (itemsLoop_isLocal ih _).bind fun _ => IsLocal.pure _
      · exact u32_isLocal.bind fun _ => (fieldsLoop_isLocal ih _ _).bind fun _ => IsLocal.pure _
      · exact (decimalv_isLocal codec).bind fun _ => IsLocal.pure _
      · exact i64v_isLocal.bind fun _ => IsLocal.pure _
      · exact IsLocal.throw _

/-! ## Whole buffers -/

theorem decode_eq_ok {codec : DecimalCodec} {buf : List UInt8} {v : Value} :
    decode codec buf = .ok v ↔ value codec buf = .ok (v, []) := by
  rw [decode, Except.bind_eq_ok_iff]
  constructor
  · rintro ⟨⟨w, rest⟩, hrun, h⟩
    cases rest with
    | nil =>
        cases h
        exact hrun
    | cons b rest => cases h
  · intro h
    exact ⟨(v, []), h, rfl⟩

theorem decode_eq_error {codec : DecimalCodec} {buf : List UInt8} {e : EncodeError}
    (h : value codec buf = .error e) : decode codec buf = .error e :=
  Except.bind_eq_error_iff.mpr (Or.inl h)

theorem encodeObject_eq (codec : DecimalCodec) (doc : List (String × Value)) :
    encodeObject codec doc = encode codec (.object doc) := by
  rw [encode, encodeAt, guardDepth, if_neg (by decide)]
  rfl

theorem encode_reads {codec : DecimalCodec} {v : Value} {bs : List UInt8} (hwf : v.WF)
    (h : encode codec v = .ok bs) : Reads (value codec) bs v :=
  encodeAt_reads codec v hwf h

theorem decode_of_encode {codec : DecimalCodec} {v : Value} {bs : List UInt8} (hwf : v.WF)
    (h : encode codec v = .ok bs) : decode codec bs = .ok v := by
  have hreads := encode_reads hwf h []
  rw [List.append_nil] at hreads
  exact decode_eq_ok.mpr hreads

theorem decodePrefix_of_encode {codec : DecimalCodec} {v : Value} {bs : List UInt8}
    (hwf : v.WF) (h : encode codec v = .ok bs) (rest : List UInt8) :
    decodePrefix codec (bs ++ rest) = .ok (v, bs.length) := by
  refine Except.bind_eq_ok_iff.mpr ⟨(v, rest), encode_reads hwf h rest, ?_⟩
  have hlen : (bs ++ rest).length - rest.length = bs.length := by
    rw [List.length_append, Nat.add_sub_cancel]
  simp only [hlen]
  rfl

/-- No proper prefix of an encoding decodes. -/
theorem decode_proper_prefix {codec : DecimalCodec} {v : Value} {bs p : List UInt8}
    (hwf : v.WF) (h : encode codec v = .ok bs) (hp : p <+: bs) (hne : p ≠ bs) :
    ∃ e, decode codec p = .error e := by
  cases hdec : decode codec p with
  | error e => exact ⟨e, rfl⟩
  | ok w =>
      exact absurd ((valueAt_isLocal codec _).eq_of_prefix_read (encode_reads hwf h) hp
        (decode_eq_ok.mp hdec)) hne

/-- The encoder stops for depth exactly where the decoder refuses the bytes. -/
theorem encode_tooDeep_iff {codec : DecimalCodec} {v : Value} (hwf : v.WF) :
    encode codec v = .error .tooDeep ↔
      encode codec v ≠ .error .tooManyItems ∧
        decode codec (wire codec v) = .error .tooDeep := by
  constructor
  · intro h
    have hrefuses := encodeAt_refuses codec v hwf h []
    rw [List.append_nil] at hrefuses
    exact ⟨by simp [h], decode_eq_error hrefuses⟩
  · rintro ⟨hitems, hdec⟩
    cases henc : encode codec v with
    | ok bs =>
        rw [← encodeAt_eq_wire codec v henc, decode_of_encode hwf henc] at hdec
        cases hdec
    | error e =>
        rcases encodeAt_error codec v henc with rfl | rfl
        · rfl
        · exact absurd henc hitems

/-- The binary codec: round trip in front of any bytes, one depth bound on both
sides, prefix-freeness, and the document encoder as a shortcut. -/
theorem value_codec (codec : DecimalCodec) :
    (∀ v bs, v.WF → encode codec v = .ok bs →
      decode codec bs = .ok v ∧
        ∀ rest, decodePrefix codec (bs ++ rest) = .ok (v, bs.length)) ∧
    (∀ v, v.WF → (encode codec v = .error .tooDeep ↔
      encode codec v ≠ .error .tooManyItems ∧
        decode codec (wire codec v) = .error .tooDeep)) ∧
    (∀ v bs p, v.WF → encode codec v = .ok bs → p <+: bs → p ≠ bs →
      ∃ e, decode codec p = .error e) ∧
    ∀ doc, encodeObject codec doc = encode codec (.object doc) :=
  ⟨fun _ _ hwf h => ⟨decode_of_encode hwf h, decodePrefix_of_encode hwf h⟩,
    fun _ hwf => encode_tooDeep_iff hwf, fun _ _ _ hwf => decode_proper_prefix hwf,
    encodeObject_eq codec⟩

/-- The layout `rust_decimal` documents: a flags word with the scale in bits
16 to 20 and the sign in bit 31, then the mantissa. -/
def rustDecimal : DecimalCodec where
  serialize d := Bytes.toLE 4 (d.scale * 2 ^ 16 + if d.neg then 2 ^ 31 else 0) ++
    Bytes.toLE 12 d.mantissa
  deserialize b :=
    let flags := Bytes.ofLE (b.take 4)
    { neg := decide (2 ^ 31 ≤ flags)
      mantissa := Bytes.ofLE (b.drop 4) % 2 ^ 96
      scale := flags / 2 ^ 16 % 32 }
  length_serialize d := by simp
  mantissa_deserialize b := Nat.mod_lt _ (by norm_num)
  deserialize_serialize d := by
    have hflags : d.scale * 2 ^ 16 + (if d.neg then 2 ^ 31 else 0) < 256 ^ 4 := by
      have := d.scale_le
      split_ifs <;> omega
    have hmantissa : d.mantissa < 256 ^ 12 := d.mantissa_lt
    rw [List.take_left' (Bytes.length_toLE 4 _), List.drop_left' (Bytes.length_toLE 4 _),
      Bytes.ofLE_toLE hflags, Bytes.ofLE_toLE hmantissa, Nat.mod_eq_of_lt d.mantissa_lt]
    obtain ⟨⟨neg, mantissa, scale⟩, -, hscale⟩ := d
    simp only at hscale
    rw [RawDecimal.mk.injEq]
    cases neg
    · simp only [Bool.false_eq_true, if_false]
      exact ⟨decide_eq_false (by omega), trivial, by omega⟩
    · simp only [if_true]
      exact ⟨decide_eq_true (by omega), trivial, by omega⟩

theorem value_codec_nested :
    let v : Value := .object [("a", .array [.int 7, .null]), ("b", .bool true)]
    let bs : List UInt8 := [7, 2, 0, 0, 0, 1, 0, 0, 0, 97, 6, 2, 0, 0, 0, 2, 7, 0, 0, 0, 0, 0, 0, 0,
      0, 1, 0, 0, 0, 98, 1, 1]
    v.WF ∧ encode rustDecimal v = .ok bs ∧ decode rustDecimal bs = .ok v ∧
      ∃ e, decode rustDecimal (bs.take 20) = .error e := by
  intro v bs
  have hwf : v.WF := by
    refine ⟨List.pairwise_cons.mpr ⟨?_, List.pairwise_singleton _ _⟩, ?_⟩
    · intro p hp
      rw [List.mem_singleton] at hp
      rw [hp]
      decide
    · exact ⟨⟨trivial, trivial, trivial⟩, trivial, trivial⟩
  have henc : encode rustDecimal v = .ok bs := rfl
  obtain ⟨hround, -, hshorter, -⟩ := value_codec rustDecimal
  exact ⟨hwf, henc, (hround v bs hwf henc).1,
    hshorter v bs _ hwf henc (List.take_prefix 20 bs) (by decide)⟩

end Docsql
