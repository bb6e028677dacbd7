import Docsql.Auth.Kdf
import Docsql.Json.RoundTrip

/-!
# Keyed hashes, derived keys and stored passwords

The pads are the block key of RFC 2104 under the two constants, and the pad pair is computed
once for all blocks and iterations of RFC 8018.  The output loop counts one block further than
it writes.
-/

namespace Docsql.Kdf

open Docsql.Lib
open Docsql.Lib.Sha2 (toBE digest)

/-! ## HMAC -/

theorem length_digest (msg : List UInt8) : (digest msg).length = 32 := by
  rw [digest, List.length_flatMap]
  simp only [Sha2.length_toBE]
  rfl

theorem hmacWithPads_eq (ipad opad data : List UInt8) :
    hmacWithPads ipad opad data = digest (opad ++ digest (ipad ++ data)) := by
  have hinner := foldl_update Sha256.took_new rfl [ipad, data]
  have houter := foldl_update Sha256.took_new rfl [opad, digest (ipad ++ data)]
  simp only [List.foldl_cons, List.foldl_nil, List.flatten_cons, List.flatten_nil,
    List.append_nil, List.nil_append] at hinner houter
  rw [hmacWithPads, hinner, houter]

theorem zipWith_xor_comm (xs ys : List UInt8) :
    List.zipWith (· ^^^ ·) xs ys = KeyDerivation.xorBytes ys xs :=
  List.zipWith_comm_of_comm UInt8.xor_comm

theorem hmacKeyPads_eq (key : List UInt8) :
    hmacKeyPads key =
      (KeyDerivation.xorBytes (KeyDerivation.blockKey digest 64 key) (List.replicate 64 0x36),
        KeyDerivation.xorBytes (KeyDerivation.blockKey digest 64 key)
          (List.replicate 64 0x5c)) := by
  have hkey : (if 64 < key.length then sha256 key ++ List.replicate 32 0
      else key ++ List.replicate (64 - key.length) 0) = KeyDerivation.blockKey digest 64 key := by
    unfold KeyDerivation.blockKey
    split_ifs with hlong
    · rw [sha256_eq]
      dsimp only
      rw [length_digest]
    · rfl
  unfold hmacKeyPads
  rw [hkey]
  dsimp only
  rw [zipWith_xor_comm, zipWith_xor_comm]

theorem hmac_eq (key data : List UInt8) :
    hmacSha256 key data = KeyDerivation.hmac digest 64 key data := by
  rw [hmacSha256, hmacKeyPads_eq]
  exact hmacWithPads_eq _ _ _

/-- HMAC over SHA-256. -/
abbrev prf : List UInt8 → List UInt8 → List UInt8 := KeyDerivation.hmac digest 64

theorem hmacWithPads_key (key data : List UInt8) :
    hmacWithPads (hmacKeyPads key).1 (hmacKeyPads key).2 data = prf key data := hmac_eq key data

/-! ## PBKDF2 -/

theorem length_prf (key data : List UInt8) : (prf key data).length = 32 := length_digest _

theorem pbkdf2Block_eq (password salt : List UInt8) (c i : ℕ) :
    pbkdf2Block (hmacKeyPads password).1 (hmacKeyPads password).2 salt c i =
      KeyDerivation.blockOf prf password salt c i := by
  unfold pbkdf2Block KeyDerivation.blockOf
  dsimp only
  rw [hmacWithPads_key]
  generalize prf password (salt ++ toBE 4 i) = u
  have hloop : ∀ n, (List.range' 1 n).foldl (fun (p : List UInt8 × List UInt8) _ =>
      (hmacWithPads (hmacKeyPads password).1 (hmacKeyPads password).2 p.1,
        List.zipWith (· ^^^ ·) p.2
          (hmacWithPads (hmacKeyPads password).1 (hmacKeyPads password).2 p.1))) (u, u) =
      (KeyDerivation.iterate prf password u n, (List.range n).foldl (fun t j =>
        KeyDerivation.xorBytes t (KeyDerivation.iterate prf password u (j + 1))) u) := by
    intro n
    induction n with
    | zero => rfl
    | succ n ih =>
      rw [List.range'_concat, List.foldl_append, ih, List.range_succ, List.foldl_append]
      simp only [List.foldl_cons, List.foldl_nil, hmacWithPads_key]
      rfl
  rw [hloop (c - 1)]

theorem length_xorFold {n : ℕ} (us : List (List UInt8)) (h : ∀ u ∈ us, u.length = n)
    (t : List UInt8) (ht : t.length = n) :
    (us.foldl KeyDerivation.xorBytes t).length = n := by
  induction us generalizing t with
  | nil => exact ht
  | cons u us ih =>
    have hu := h u List.mem_cons_self
    refine ih (fun v hv => h v (List.mem_cons_of_mem _ hv)) _ ?_
    rw [KeyDerivation.length_xorBytes (ht.trans hu.symm), hu]

theorem length_blockOf (password salt : List UInt8) (c i : ℕ) :
    (KeyDerivation.blockOf prf password salt c i).length = 32 := by
  have hfold : KeyDerivation.blockOf prf password salt c i =
      ((List.range (c - 1)).map fun j => KeyDerivation.iterate prf password
        (prf password (salt ++ toBE 4 i)) (j + 1)).foldl KeyDerivation.xorBytes
          (prf password (salt ++ toBE 4 i)) := List.foldl_map.symm
  rw [hfold]
  refine length_xorFold _ (fun u hu => ?_) _ (length_prf _ _)
  obtain ⟨j, -, rfl⟩ := List.mem_map.mp hu
  exact length_prf _ _

/-- How many blocks are still to be written. -/
def blocksLeft (len filled : ℕ) : ℕ := (len - filled + 31) / 32

/-- The counter is checked behind every block, the last one included. -/
theorem pbkdf2Fill_eq {block : ℕ → List UInt8} (hblock : ∀ i, (block i).length = 32) (len : ℕ) :
    ∀ (m : ℕ) (out : List UInt8) (i : ℕ), blocksLeft len out.length = m →
      pbkdf2Fill block len out i =
        if m = 0 ∨ i + m < 2 ^ 32 then
          some (out ++ ((List.range m).flatMap fun j => block (i + j)).take (len - out.length))
        else none
  | 0, out, i, hm => by
    unfold blocksLeft at hm
    rw [pbkdf2Fill, if_neg (by omega), if_pos (.inl rfl)]
    rw [List.range_zero, List.flatMap_nil, List.take_nil, List.append_nil]
  | m + 1, out, i, hm => by
    unfold blocksLeft at hm
    have hlt : out.length < len := by omega
    have htake : (block i).take (min (len - out.length) 32) =
        (block i).take (len - out.length) := by
      rw [List.take_eq_take_iff, hblock]
      omega
    have hlen : (out ++ (block i).take (len - out.length)).length =
        out.length + min (len - out.length) 32 := by
      rw [List.length_append, List.length_take, hblock]
    have hnext : blocksLeft len (out ++ (block i).take (len - out.length)).length = m := by
      rw [hlen, blocksLeft]
      omega
    rw [pbkdf2Fill, if_pos hlt]
    dsimp only
    rw [htake]
    by_cases hroom : i + 1 < 2 ^ 32
    · rw [if_pos hroom, pbkdf2Fill_eq hblock len m _ _ hnext]
      by_cases hall : m = 0 ∨ i + 1 + m < 2 ^ 32
      · have hleft : len - (out ++ (block i).take (len - out.length)).length =
            len - out.length - (block i).length := by
          rw [hlen, hblock]
          omega
        rw [if_pos hall, if_pos (by omega), hleft, List.range_succ_eq_map, List.flatMap_cons,
          List.take_append, List.append_assoc, List.flatMap_map]
        simp only [Nat.add_zero, Nat.succ_eq_add_one, Nat.add_assoc, Nat.add_comm 1]
      · rw [if_neg hall, if_neg (by omega)]
    · rw [if_neg hroom, if_neg (by omega)]

theorem pbkdf2_eq_iff {password salt : List UInt8} {c len : ℕ} (hc : 1 ≤ c) :
    pbkdf2HmacSha256 password salt c len = KeyDerivation.pbkdf2 prf 32 password salt c len ↔
      ¬ ((2 ^ 32 - 2) * 32 < len ∧ len ≤ (2 ^ 32 - 1) * 32) := by
  have hfill := pbkdf2Fill_eq (length_blockOf password salt c) len _ [] 1 rfl
  have hcode : pbkdf2HmacSha256 password salt c len =
      pbkdf2Fill (KeyDerivation.blockOf prf password salt c) len [] 1 := by
    rw [pbkdf2HmacSha256, if_pos hc]
    exact congrArg (fun block => pbkdf2Fill block len [] 1)
      (funext fun i => pbkdf2Block_eq password salt c i)
  rw [hcode, hfill, KeyDerivation.pbkdf2, blocksLeft, List.length_nil, List.nil_append,
    Nat.sub_zero]
  simp only [Nat.add_comm 1]
  split_ifs with hwritten hlong hlong
  · exact iff_of_false nofun (by omega)
  · exact iff_of_true rfl (by omega)
  · exact iff_of_true rfl (by omega)
  · exact iff_of_false nofun (by omega)

/-- Both standards are met, but for the lengths whose last block has the greatest number: there
the counter overflows behind it. -/
theorem keyed_standards (password salt : List UInt8) {c : ℕ} (hc : 1 ≤ c) (len : ℕ) :
    (∀ data, hmacSha256 password data = KeyDerivation.hmac digest 64 password data) ∧
      (pbkdf2HmacSha256 password salt c len = KeyDerivation.pbkdf2 prf 32 password salt c len ↔
        ¬ ((2 ^ 32 - 2) * 32 < len ∧ len ≤ (2 ^ 32 - 1) * 32)) :=
  ⟨hmac_eq password, pbkdf2_eq_iff hc⟩

theorem keyed_standards_two_blocks :
    1 ≤ 3 ∧ pbkdf2HmacSha256 [0x70] [0x73] 3 33 = KeyDerivation.pbkdf2 prf 32 [0x70] [0x73] 3 33 :=
  ⟨by decide, (keyed_standards [0x70] [0x73] (by decide) 33).2.mpr (by decide)⟩

/-! ## The text of a stored password -/

theorem hexChar_mem (n : ℕ) : Json.hexChar n ∈ "0123456789abcdef".toList := by
  have hlt : n % 16 < 16 := Nat.mod_lt _ (by decide)
  unfold Json.hexChar
  generalize n % 16 = d at hlt ⊢
  revert d
  decide

theorem mem_hex {bytes : List UInt8} {c : Char} (h : c ∈ hex bytes) :
    c ∈ "0123456789abcdef".toList := by
  obtain ⟨b, -, hc⟩ := List.mem_flatMap.mp h
  rcases List.mem_pair.mp hc with rfl | rfl
  · exact hexChar_mem _
  · exact hexChar_mem _

theorem length_hex (bytes : List UInt8) : (hex bytes).length = 2 * bytes.length := by
  rw [hex, List.length_flatMap]
  simp [Nat.mul_comm]

theorem unhexPairs_hex (bytes : List UInt8) : unhexPairs (hex bytes) = some bytes := by
  induction bytes with
  | nil => rfl
  | cons b bytes ih =>
    have hlt := UInt8.toNat_lt b
    have hbyte : UInt8.ofNat (b.toNat / 16 % 16 * 16 + b.toNat % 16) = b := by
      rw [show b.toNat / 16 % 16 * 16 + b.toNat % 16 = b.toNat by omega]
      exact UInt8.ofNat_toNat
    rw [hex, List.flatMap_cons]
    change unhexPairs (_ :: _ :: hex bytes) = _
    rw [unhexPairs, Json.hexDigit_hexChar, Json.hexDigit_hexChar, ih]
    exact congrArg (fun x => some (x :: bytes)) hbyte

theorem unhex_hex (bytes : List UInt8) : unhex (hex bytes) = some bytes := by
  have hascii : Utf8.Ascii (hex bytes) := by
    have hsize : ("0123456789abcdef".toList.all fun c => c.utf8Size == 1) = true := by decide
    exact fun c hc => beq_iff_eq.mp (List.all_eq_true.mp hsize c (mem_hex hc))
  have hback : (Utf8.toBytes (hex bytes)).map (fun x => Char.ofNat x.toNat) = hex bytes := by
    have hall : ("0123456789abcdef".toList.all
        fun c => Char.ofNat c.val.toUInt8.toNat == c) = true := by decide
    have hchar (c : Char) (hc : c ∈ "0123456789abcdef".toList) :
        Char.ofNat c.val.toUInt8.toNat = c := beq_iff_eq.mp (List.all_eq_true.mp hall c hc)
    rw [hascii.toBytes_eq, List.map_map]
    exact (List.map_congr_left fun c hc => hchar c (mem_hex hc)).trans (List.map_id _)
  have hlen : (Utf8.toBytes (hex bytes)).length % 2 = 0 := by
    rw [hascii.toBytes_eq, List.length_map, length_hex]
    exact Nat.mul_mod_right 2 _
  rw [unhex, if_neg (not_not.mpr hlen), hback, unhexPairs_hex]

theorem parseU32_toDigits {n : ℕ} (h : n < 2 ^ 32) : parseU32 (Nat.toDigits 10 n) = some n := by
  obtain ⟨d, more, hdigits, hd⟩ := Json.toDigits_cons n
  have hall : (Nat.toDigits 10 n).all Char.isDigit = true :=
    List.all_eq_true.mpr (Json.toDigits_digits n)
  have hsame : skipPlus (Nat.toDigits 10 n) = Nat.toDigits 10 n := by
    rw [hdigits]
    unfold skipPlus
    split
    · rename_i heq
      obtain ⟨rfl, -⟩ := List.cons.inj heq
      exact absurd hd (by decide)
    · rfl
  unfold parseU32
  rw [hsame, if_neg, Nat.ofDigitChars_toDigits (by decide) (by decide), if_pos h]
  rintro (hnil | hsome)
  · exact Nat.toDigits_ne_nil hnil
  · rw [hall] at hsome
    cases hsome

theorem effectiveIterations_bounds (env : Option String) :
    1 ≤ effectiveIterations env ∧ effectiveIterations env ≤ maxPbkdf2Iterations := by
  unfold effectiveIterations
  cases h : (env.bind fun v => parseU32 v.toList).filter fun n =>
      decide (1 ≤ n ∧ n ≤ maxPbkdf2Iterations) with
  | none => decide
  | some n => exact of_decide_eq_true (Option.filter_eq_some_iff.mp h).2

theorem isPrefixOf?_append (pre rest : List Char) : pre.isPrefixOf? (pre ++ rest) = some rest := by
  induction pre with
  | nil => rfl
  | cons c pre ih =>
    rw [List.cons_append, List.isPrefixOf?, if_pos (beq_self_eq_true c)]
    exact ih

/-! ## Verification -/

theorem foldl_or_eq_zero (ds : List UInt8) (d : UInt8) :
    ds.foldl (· ||| ·) d = 0 ↔ d = 0 ∧ ∀ x ∈ ds, x = 0 := by
  induction ds generalizing d with
  | nil => simp
  | cons x ds ih =>
    rw [List.foldl_cons, ih, UInt8.or_eq_zero_iff, List.forall_mem_cons, and_assoc]

theorem zipWith_xor_eq_zero {a b : List UInt8} (h : a.length = b.length) :
    (∀ x ∈ List.zipWith (· ^^^ ·) a b, x = 0) ↔ a = b := by
  induction a generalizing b with
  | nil =>
    obtain rfl := List.length_eq_zero_iff.mp h.symm
    exact iff_of_true nofun rfl
  | cons x a ih =>
    cases b with
    | nil => cases h
    | cons y b =>
      rw [List.zipWith_cons_cons, List.forall_mem_cons, UInt8.xor_eq_zero_iff,
        ih (Nat.succ.inj h), List.cons.injEq]

theorem constantTimeEq_eq (a b : List UInt8) : constantTimeEq a b = decide (a = b) := by
  unfold constantTimeEq
  split_ifs with h
  · exact (decide_eq_false fun heq => h (congrArg List.length heq)).symm
  · rw [Bool.eq_iff_iff, beq_iff_eq, foldl_or_eq_zero, zipWith_xor_eq_zero (not_not.mp h),
      decide_eq_true_iff]
    exact and_iff_right rfl

/-- What a login derives from a password. -/
def deriveKey (salt : List UInt8) (c : ℕ) (password : String) : List UInt8 :=
  KeyDerivation.blockOf prf (asBytes password) salt c 1

theorem pbkdf2_deriveKey (salt : List UInt8) (c : ℕ) (password : String) :
    KeyDerivation.pbkdf2 prf 32 (asBytes password) salt c 32 =
      some (deriveKey salt c password) := by
  have hlen := length_blockOf (asBytes password) salt c 1
  rw [KeyDerivation.pbkdf2, if_neg (by decide)]
  change some (((KeyDerivation.blockOf prf (asBytes password) salt c 1) ++ []).take 32) = _
  rw [List.append_nil, List.take_of_length_le hlen.le]
  rfl

theorem derive_eq (salt : List UInt8) {c : ℕ} (hc : 1 ≤ c) (password : String) :
    pbkdf2HmacSha256 (asBytes password) salt c 32 = some (deriveKey salt c password) :=
  (pbkdf2_eq_iff hc).mpr (by decide) |>.trans (pbkdf2_deriveKey salt c password)

/-- The bounds of what is stored. -/
structure StoredPw.InBounds (stored : StoredPw) : Prop where
  iterations : 1 ≤ stored.iterations ∧ stored.iterations ≤ maxPbkdf2Iterations
  salt_length : stored.salt.length ≤ maxSaltLen
  salt_ne : stored.salt ≠ []

theorem StoredPw.InBounds.verify {stored : StoredPw} (h : stored.InBounds) (password : String) :
    stored.verify password =
      some (decide (deriveKey stored.salt stored.iterations password = stored.hash)) := by
  unfold StoredPw.verify
  rw [if_neg, derive_eq _ h.iterations.1, Option.map_some, constantTimeEq_eq]
  rintro (hiter | hlen | hnil)
  · exact hiter h.iterations
  · exact absurd h.salt_length (Nat.not_le.mpr hlen)
  · exact h.salt_ne hnil

theorem StoredPw.inBounds_of_parse {s : List Char} {stored : StoredPw}
    (h : StoredPw.parse s = some stored) : stored.InBounds := by
  unfold StoredPw.parse at h
  obtain ⟨rest, -, h⟩ := Option.bind_eq_some_iff.mp h
  split at h
  case h_2 => cases h
  obtain ⟨iterations, -, h⟩ := Option.bind_eq_some_iff.mp h
  split_ifs at h with hiter
  obtain ⟨salt, -, h⟩ := Option.bind_eq_some_iff.mp h
  split_ifs at h with hsalt
  obtain ⟨hash, -, h⟩ := Option.bind_eq_some_iff.mp h
  unfold toStored at h
  split_ifs at h with hlen
  cases h
  obtain ⟨hle, hne⟩ := not_or.mp hsalt
  exact ⟨hiter, Nat.not_lt.mp hle, hne⟩

theorem StoredPw.parse_text {n : ℕ} {salt hash : List UInt8}
    (hn : 1 ≤ n ∧ n ≤ maxPbkdf2Iterations) (hle : salt.length ≤ maxSaltLen) (hne : salt ≠ [])
    (hhash : hash.length = 32) :
    StoredPw.parse
        (hashPrefix ++ '$' :: (Nat.toDigits 10 n ++ '$' :: (hex salt ++ '$' :: hex hash))) =
      some ⟨n, salt, hash, hhash⟩ := by
  have hparts : (Nat.toDigits 10 n ++ '$' :: (hex salt ++ '$' :: hex hash)).splitOn '$' =
      [Nat.toDigits 10 n, hex salt, hex hash] := by
    have hjoin : ['$'].intercalate [Nat.toDigits 10 n, hex salt, hex hash] =
        Nat.toDigits 10 n ++ '$' :: (hex salt ++ '$' :: hex hash) := by
      simp [List.intercalate]
    rw [← hjoin]
    refine List.splitOn_intercalate '$' (fun l hl => ?_) (List.cons_ne_nil _ _)
    simp only [List.mem_cons, List.not_mem_nil, or_false] at hl
    rcases hl with rfl | rfl | rfl
    · exact fun hd => absurd (Json.toDigits_digits n _ hd) (by decide)
    · exact fun hd => absurd (mem_hex hd) (by decide)
    · exact fun hd => absurd (mem_hex hd) (by decide)
  have hmax : maxPbkdf2Iterations < 2 ^ 32 := by decide
  have happ := isPrefixOf?_append (hashPrefix ++ ['$'])
    (Nat.toDigits 10 n ++ '$' :: (hex salt ++ '$' :: hex hash))
  rw [← List.append_cons] at happ
  unfold StoredPw.parse
  rw [happ]
  simp only [Option.bind_eq_bind, Option.bind_some, hparts]
  rw [parseU32_toDigits (by omega), Option.bind_some, if_neg (not_not.mpr hn), unhex_hex,
    Option.bind_some, if_neg (not_or.mpr ⟨Nat.not_lt.mpr hle, hne⟩), unhex_hex, Option.bind_some,
    toStored, dif_pos hhash]

/-- Every accepted text is checked against the derivation of the standard, and a text made of a
password is accepted. -/
theorem stored_password :
    (∀ text stored, StoredPw.parse text = some stored → ∀ password,
        stored.verify password = some (decide (KeyDerivation.pbkdf2 prf 32 (asBytes password)
          stored.salt stored.iterations 32 = some stored.hash))) ∧
      ∀ env password salt, salt ≠ [] → salt.length ≤ maxSaltLen →
        ∃ text stored, hashPassword env password salt = some text ∧
          StoredPw.parse text = some stored ∧ stored.salt = salt ∧
          KeyDerivation.pbkdf2 prf 32 (asBytes password) salt stored.iterations 32 =
            some stored.hash := by
  constructor
  · intro text stored h password
    rw [(StoredPw.inBounds_of_parse h).verify, pbkdf2_deriveKey]
    simp only [Option.some.injEq]
  · intro env password salt hne hle
    have hn := effectiveIterations_bounds env
    have hlen := length_blockOf (asBytes password) salt (effectiveIterations env) 1
    refine ⟨_, _, ?_, StoredPw.parse_text hn hle hne hlen, rfl, pbkdf2_deriveKey _ _ _⟩
    rw [hashPassword, derive_eq salt hn.1]
    rfl

theorem stored_password_own :
    ∃ text stored, hashPassword (some "1") "pw" [7] = some text ∧
      StoredPw.parse text = some stored ∧ stored.verify "pw" = some true := by
  obtain ⟨text, stored, htext, hparse, hsalt, hhash⟩ :=
    stored_password.2 (some "1") "pw" [7] (by decide) (by decide)
  refine ⟨text, stored, htext, hparse, ?_⟩
  rw [stored_password.1 text stored hparse, hsalt, hhash, decide_eq_true rfl]

end Docsql.Kdf
