import Docsql.EncodeRoundTrip

/-!
# Frames of a catch-up pull

Journal entries travel in frames: the number, the length of the text and the text, one entry
after the other.  A frame is filled up to a budget and holds one entry at least.
-/

namespace Docsql.Cluster

/-- A number and its statement. -/
abbrev CatchupEntry := ℕ × String

namespace CatchupFrames

def entryLen (e : CatchupEntry) : ℕ := 8 + 4 + (asBytes e.2).length

def entryBytes (e : CatchupEntry) : List UInt8 :=
  Bytes.toLE 8 e.1 ++ (Bytes.toLE 4 (asBytes e.2).length ++ asBytes e.2)

def packLoop (budget : ℕ) : List UInt8 → ℕ → List CatchupEntry → List UInt8 × ℕ
  | out, count, [] => (out, count)
  | out, count, e :: rest =>
    if 0 < count ∧ budget < out.length + entryLen e then (out, count)
    else packLoop budget (out ++ entryBytes e) (count + 1) rest

/-- The payload and the number of entries in it. -/
def packCatchupEntries (entries : List CatchupEntry) (budget : ℕ) : List UInt8 × ℕ :=
  packLoop budget [] 0 entries

/-- The entry at the start, and what is left. -/
def decodeEntry (payload : List UInt8) : Except String (CatchupEntry × List UInt8) :=
  if payload.length < 12 then .error "truncated catchup entry"
  else
    let seq := Bytes.ofLE (payload.take 8)
    let len := Bytes.ofLE ((payload.drop 8).take 4)
    let rest := payload.drop 12
    if rest.length < len then .error "truncated catchup sql"
    else
      match String.fromUTF8? ⟨(rest.take len).toArray⟩ with
      | none => .error "catchup sql utf8"
      | some sql => .ok ((seq, sql), rest.drop len)

theorem decodeEntry_shorter {payload rest : List UInt8} {e : CatchupEntry}
    (h : decodeEntry payload = .ok (e, rest)) : rest.length < payload.length := by
  unfold decodeEntry at h
  split_ifs at h with hshort
  dsimp only at h
  split_ifs at h
  split at h
  · cases h
  · obtain ⟨-, rfl⟩ := Prod.mk.inj (Except.ok.inj h)
    simp only [List.length_drop]
    omega

def decodeCatchupEntries (payload : List UInt8) : Except String (List CatchupEntry) :=
  if payload = [] then .ok []
  else
    match _h : decodeEntry payload with
    | .error e => .error e
    | .ok (e, rest) =>
      match decodeCatchupEntries rest with
      | .error e => .error e
      | .ok entries => .ok (e :: entries)
termination_by payload.length
decreasing_by exact decodeEntry_shorter _h

/-! ## Packing -/

variable {budget : ℕ} {entries : List CatchupEntry} {e : CatchupEntry}

/-- The loop takes entries from the front; all but a first one are within the budget. -/
theorem packLoop_eq (budget : ℕ) (out : List UInt8) (count : ℕ) (entries : List CatchupEntry) :
    ∃ n ≤ entries.length, packLoop budget out count entries =
        (out ++ (entries.take n).flatMap entryBytes, count + n) ∧
      (count = 0 → entries ≠ [] → 0 < n) ∧
      ∀ d ∈ (entries.take n).drop (1 - count), entryLen d ≤ budget := by
  induction entries generalizing out count with
  | nil => exact ⟨0, le_rfl, by simp [packLoop], fun _ h => absurd rfl h, by simp⟩
  | cons e entries ih =>
    rw [packLoop]
    split_ifs with hfull
    · exact ⟨0, Nat.zero_le _, by simp, fun hzero => absurd hfull.1 (by omega), by simp⟩
    · obtain ⟨n, hle, heq, -, hsmall⟩ := ih (out ++ entryBytes e) (count + 1)
      rw [Nat.sub_eq_zero_of_le (Nat.le_add_left 1 count), List.drop_zero] at hsmall
      refine ⟨n + 1, Nat.succ_le_succ hle, ?_, fun _ _ => Nat.succ_pos n, ?_⟩
      · rw [heq, List.take_succ_cons, List.flatMap_cons, List.append_assoc]
        congr 1
        omega
      · rw [List.take_succ_cons]
        cases count with
        | zero => exact hsmall
        | succ count =>
          rw [Nat.sub_eq_zero_of_le (Nat.le_add_left 1 count), List.drop_zero]
          intro d hd
          rcases List.mem_cons.mp hd with rfl | hd
          · omega
          · exact hsmall d hd

theorem packCatchupEntries_le (entries : List CatchupEntry) (budget : ℕ) :
    (packCatchupEntries entries budget).2 ≤ entries.length := by
  obtain ⟨n, hle, heq, -, -⟩ := packLoop_eq budget [] 0 entries
  rw [packCatchupEntries, heq, Nat.zero_add]
  exact hle

/-- At least one entry, however small the budget. -/
theorem packCatchupEntries_pos (budget : ℕ) (h : entries ≠ []) :
    0 < (packCatchupEntries entries budget).2 := by
  obtain ⟨n, -, heq, hpos, -⟩ := packLoop_eq budget [] 0 entries
  rw [packCatchupEntries, heq, Nat.zero_add]
  exact hpos rfl h

theorem packCatchupEntries_payload (entries : List CatchupEntry) (budget : ℕ) :
    (packCatchupEntries entries budget).1 =
      (entries.take (packCatchupEntries entries budget).2).flatMap entryBytes := by
  obtain ⟨n, -, heq, -, -⟩ := packLoop_eq budget [] 0 entries
  rw [packCatchupEntries, heq, Nat.zero_add, List.nil_append]

theorem entryLen_le_of_packed {d : CatchupEntry} (e : CatchupEntry)
    (hd : d ∈ (e :: entries).take (packCatchupEntries (e :: entries) budget).2) :
    d = e ∨ entryLen d ≤ budget := by
  obtain ⟨n, -, heq, hpos, hsmall⟩ := packLoop_eq budget [] 0 (e :: entries)
  have hn : 0 < n := hpos rfl (List.cons_ne_nil _ _)
  rw [packCatchupEntries, heq, Nat.zero_add] at hd
  obtain ⟨n, rfl⟩ := Nat.exists_eq_succ_of_ne_zero hn.ne'
  rw [List.take_succ_cons] at hd hsmall
  rcases List.mem_cons.mp hd with rfl | hd
  · exact .inl rfl
  · exact .inr (hsmall d hd)

/-- Each frame makes progress. -/
theorem drop_packed_lt (h : entries ≠ []) :
    (entries.drop (packCatchupEntries entries budget).2).length < entries.length := by
  have hpos := packCatchupEntries_pos budget h
  have hlen := List.length_pos_of_ne_nil h
  rw [List.length_drop]
  omega

/-- Frame after frame until nothing is left. -/
def packAll (budget : ℕ) (entries : List CatchupEntry) : List (List UInt8) :=
  if _h : entries = [] then []
  else
    let frame := packCatchupEntries entries budget
    frame.1 :: packAll budget (entries.drop frame.2)
termination_by entries.length
decreasing_by exact drop_packed_lt _h

/-! ## Reading back -/

/-- The number and the length of the text fit their fields. -/
def Fits (e : CatchupEntry) : Prop := e.1 < 2 ^ 64 ∧ (asBytes e.2).length < 2 ^ 32

theorem decodeEntry_entryBytes (he : Fits e) (rest : List UInt8) :
    decodeEntry (entryBytes e ++ rest) = .ok (e, rest) := by
  have hseq : Bytes.ofLE (Bytes.toLE 8 e.1) = e.1 := Bytes.ofLE_toLE he.1
  have hlen : Bytes.ofLE (Bytes.toLE 4 (asBytes e.2).length) = (asBytes e.2).length :=
    Bytes.ofLE_toLE he.2
  have htake : (entryBytes e ++ rest).take 8 = Bytes.toLE 8 e.1 := by
    rw [entryBytes, List.append_assoc]
    exact List.take_left' (Bytes.length_toLE _ _)
  have hdrop : (entryBytes e ++ rest).drop 8 =
      Bytes.toLE 4 (asBytes e.2).length ++ (asBytes e.2 ++ rest) := by
    rw [entryBytes, List.append_assoc, List.append_assoc]
    exact List.drop_left' (Bytes.length_toLE _ _)
  have htext : (entryBytes e ++ rest).drop 12 = asBytes e.2 ++ rest := by
    rw [show 12 = 8 + 4 from rfl, ← List.drop_drop, hdrop]
    exact List.drop_left' (Bytes.length_toLE _ _)
  have hlong : ¬(entryBytes e ++ rest).length < 12 := by
    simp only [entryBytes, List.length_append, Bytes.length_toLE]
    omega
  have hroom : ¬(asBytes e.2 ++ rest).length < (asBytes e.2).length := by
    rw [List.length_append]
    omega
  unfold decodeEntry
  rw [if_neg hlong]
  dsimp only
  rw [htake, hdrop, htext, List.take_left' (Bytes.length_toLE _ _), hseq, hlen, if_neg hroom,
    List.take_left, List.drop_left, fromUTF8_asBytes]

theorem asBytes_of_fromUTF8 {raw : List UInt8} {sql : String}
    (h : String.fromUTF8? ⟨raw.toArray⟩ = some sql) : asBytes sql = raw := by
  rw [String.fromUTF8?] at h
  split_ifs at h with hvalid
  obtain rfl := Option.some.inj h
  rfl

theorem decodeCatchupEntries_nil : decodeCatchupEntries [] = .ok [] := by
  rw [decodeCatchupEntries, if_pos rfl]

theorem decodeCatchupEntries_cons (he : Fits e) (rest : List UInt8) :
    decodeCatchupEntries (entryBytes e ++ rest) =
      (decodeCatchupEntries rest).map (e :: ·) := by
  have hne : entryBytes e ++ rest ≠ [] := by
    intro hnil
    have hlen := congrArg List.length hnil
    simp only [entryBytes, List.length_append, Bytes.length_toLE, List.length_nil] at hlen
    omega
  rw [decodeCatchupEntries, if_neg hne]
  split
  · rename_i herror
    rw [decodeEntry_entryBytes he] at herror
    cases herror
  · rename_i hok
    rw [decodeEntry_entryBytes he] at hok
    obtain ⟨rfl, rfl⟩ := Prod.mk.inj (Except.ok.inj hok)
    cases decodeCatchupEntries rest <;> rfl

theorem decode_flatMap (h : ∀ e ∈ entries, Fits e) (rest : List UInt8) :
    decodeCatchupEntries (entries.flatMap entryBytes ++ rest) =
      (decodeCatchupEntries rest).map (entries ++ ·) := by
  induction entries with
  | nil =>
    rw [List.flatMap_nil, List.nil_append]
    cases decodeCatchupEntries rest <;> rfl
  | cons e entries ih =>
    have hrest := ih fun d hd => h d (List.mem_cons_of_mem e hd)
    rw [List.flatMap_cons, List.append_assoc, decodeCatchupEntries_cons (h e List.mem_cons_self),
      hrest]
    cases decodeCatchupEntries rest <;> rfl

theorem decode_pack (h : ∀ e ∈ entries.take (packCatchupEntries entries budget).2, Fits e) :
    decodeCatchupEntries (packCatchupEntries entries budget).1 =
      .ok (entries.take (packCatchupEntries entries budget).2) := by
  rw [packCatchupEntries_payload, ← List.append_nil (List.flatMap _ _), decode_flatMap h,
    decodeCatchupEntries_nil]
  exact congrArg Except.ok (List.append_nil _)

theorem packAll_nil (budget : ℕ) : packAll budget [] = [] := by
  rw [packAll, dif_pos rfl]

theorem packAll_of_ne (budget : ℕ) (h : entries ≠ []) :
    packAll budget entries = (packCatchupEntries entries budget).1 ::
      packAll budget (entries.drop (packCatchupEntries entries budget).2) := by
  rw [packAll, dif_neg h]

/-- Nothing is lost between the frames, each of which is a part that is not empty. -/
theorem packAll_parts (budget : ℕ) (h : ∀ e ∈ entries, Fits e) :
    ∃ parts : List (List CatchupEntry), parts.flatten = entries ∧
      List.Forall₂ (fun payload part => part ≠ [] ∧ payload = part.flatMap entryBytes ∧
        decodeCatchupEntries payload = .ok part) (packAll budget entries) parts := by
  induction hlen : entries.length using Nat.strong_induction_on generalizing entries with
  | _ n ih =>
    by_cases hnil : entries = []
    · rw [hnil, packAll_nil]
      exact ⟨[], rfl, .nil⟩
    · have hpos := packCatchupEntries_pos budget hnil
      have hshort : (entries.drop (packCatchupEntries entries budget).2).length < n :=
        hlen ▸ drop_packed_lt hnil
      obtain ⟨parts, hflat, hparts⟩ := ih _ hshort (fun e he => h e (List.mem_of_mem_drop he)) rfl
      refine ⟨entries.take (packCatchupEntries entries budget).2 :: parts, ?_, ?_⟩
      · rw [List.flatten_cons, hflat, List.take_append_drop]
      · rw [packAll_of_ne budget hnil]
        refine .cons ⟨?_, packCatchupEntries_payload entries budget,
          decode_pack fun e he => h e (List.mem_of_mem_take he)⟩ hparts
        intro htake
        have := congrArg List.length htake
        rw [List.length_take, List.length_nil] at this
        have := List.length_pos_of_ne_nil hnil
        omega

/-- The payloads one after the other read back as the entries. -/
theorem decode_packAll (budget : ℕ) (h : ∀ e ∈ entries, Fits e) :
    decodeCatchupEntries (packAll budget entries).flatten = .ok entries := by
  obtain ⟨parts, hflat, hparts⟩ := packAll_parts budget h
  have hjoin : (packAll budget entries).flatten = parts.flatten.flatMap entryBytes := by
    clear hflat
    generalize packAll budget entries = payloads at hparts ⊢
    induction hparts with
    | nil => rfl
    | cons hpart _ ih => rw [List.flatten_cons, List.flatten_cons, List.flatMap_append, ih, hpart.2.1]
  rw [hjoin, hflat, ← List.append_nil (List.flatMap _ _), decode_flatMap h,
    decodeCatchupEntries_nil]
  exact congrArg Except.ok (List.append_nil _)

/-- A text that was read has a length of four bytes. -/
theorem decodeEntry_short {payload rest : List UInt8} (h : decodeEntry payload = .ok (e, rest)) :
    (asBytes e.2).length < 2 ^ 32 := by
  unfold decodeEntry at h
  split_ifs at h with hshort
  dsimp only at h
  split_ifs at h
  split at h
  · cases h
  · rename_i sql hsql
    obtain ⟨rfl, -⟩ := Prod.mk.inj (Except.ok.inj h)
    have hlen := Bytes.ofLE_lt ((payload.drop 8).take 4)
    have hfour : ((payload.drop 8).take 4).length = 4 := by
      simp only [List.length_take, List.length_drop]
      omega
    rw [hfour] at hlen
    have htext : (asBytes sql).length ≤ Bytes.ofLE ((payload.drop 8).take 4) := by
      rw [asBytes_of_fromUTF8 hsql, List.length_take]
      exact Nat.min_le_left _ _
    exact htext.trans_lt hlen

/-- The length field wraps, so a longer text does not come back. -/
theorem decode_ne_of_long (seq : ℕ) {sql : String} (h : 2 ^ 32 ≤ (asBytes sql).length) :
    decodeCatchupEntries (entryBytes (seq, sql)) ≠ .ok [(seq, sql)] := by
  intro hdecode
  rw [decodeCatchupEntries] at hdecode
  split_ifs at hdecode
  · cases hdecode
  split at hdecode
  · cases hdecode
  · rename_i e rest hentry
    split at hdecode
    · cases hdecode
    · obtain ⟨rfl, -⟩ := List.cons.inj (Except.ok.inj hdecode)
      exact absurd (decodeEntry_short hentry) h.not_gt

theorem length_asBytes_replicate (n : ℕ) :
    (asBytes (String.ofList (List.replicate n 'a'))).length = n := by
  have hbytes : asBytes (String.ofList (List.replicate n 'a')) =
      (List.replicate n 'a').flatMap String.utf8EncodeChar := by
    simp [asBytes, List.utf8Encode]
  have hone : 'a'.utf8Size = 1 := by decide
  rw [hbytes, List.length_flatMap]
  simp [hone]

theorem packAll_singleton (budget : ℕ) (e : CatchupEntry) :
    (packAll budget [e]).flatten = entryBytes e := by
  have hpacked : (packCatchupEntries [e] budget).2 = 1 :=
    le_antisymm (packCatchupEntries_le _ _) (packCatchupEntries_pos _ (List.cons_ne_nil _ _))
  rw [packAll_of_ne budget (List.cons_ne_nil _ _), packCatchupEntries_payload, hpacked,
    List.drop_one, List.tail_cons, packAll_nil]
  simp

theorem packAll_long {seq budget : ℕ} {sql : String} (h : 2 ^ 32 ≤ (asBytes sql).length) :
    decodeCatchupEntries (packAll budget [(seq, sql)]).flatten ≠ .ok [(seq, sql)] := by
  rw [packAll_singleton]
  exact decode_ne_of_long seq h

def longText : String := String.ofList (List.replicate (2 ^ 32) 'a')

theorem long_text_not_read_back :
    decodeCatchupEntries (packAll 4194304 [(1, longText)]).flatten ≠ .ok [(1, longText)] :=
  packAll_long (length_asBytes_replicate (2 ^ 32)).ge

end CatchupFrames

end Docsql.Cluster
