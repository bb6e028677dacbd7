import Docsql.Lib.BlockStream
import Docsql.Lib.KeyDerivation
import Docsql.Lib.Utf8Slice
import Docsql.Json.Text
import Docsql.Value

/-!
# Password hashing

`kdf.rs`: the hash over a buffer of 64 bytes, the keyed hash with pads computed once, the
derivation and the stored form of a password.  `none` is a panic.
-/

namespace Docsql.Kdf

open Docsql.Lib
open Docsql.Lib.Sha2 (Word Vars toBE ofBE)

/-! ## SHA-256 -/

def kTable : List Word :=
  [0x428a2f98, 0x71374491, 0xb5c0fbcf, 0xe9b5dba5, 0x3956c25b, 0x59f111f1, 0x923f82a4, 0xab1c5ed5,
    0xd807aa98, 0x12835b01, 0x243185be, 0x550c7dc3, 0x72be5d74, 0x80deb1fe, 0x9bdc06a7, 0xc19bf174,
    0xe49b69c1, 0xefbe4786, 0x0fc19dc6, 0x240ca1cc, 0x2de92c6f, 0x4a7484aa, 0x5cb0a9dc, 0x76f988da,
    0x983e5152, 0xa831c66d, 0xb00327c8, 0xbf597fc7, 0xc6e00bf3, 0xd5a79147, 0x06ca6351, 0x14292967,
    0x27b70a85, 0x2e1b2138, 0x4d2c6dfc, 0x53380d13, 0x650a7354, 0x766a0abb, 0x81c2c92e, 0x92722c85,
    0xa2bfe8a1, 0xa81a664b, 0xc24b8b70, 0xc76c51a3, 0xd192e819, 0xd6990624, 0xf40e3585, 0x106aa070,
    0x19a4c116, 0x1e376c08, 0x2748774c, 0x34b0bcb5, 0x391c0cb3, 0x4ed8aa4a, 0x5b9cca4f, 0x682e6ff3,
    0x748f82ee, 0x78a5636f, 0x84c87814, 0x8cc70208, 0x90befffa, 0xa4506ceb, 0xbef9a3f7, 0xc67178f2]

/-- `u32::from_be_bytes` -/
def fromBeBytes (bytes : List UInt8) : Word := BitVec.ofNat 32 (ofBE bytes)

/-- One word of the schedule, from those before it. -/
def scheduleStep (w : List Word) (i : ℕ) : List Word :=
  let x := w.getD (i - 15) 0
  let y := w.getD (i - 2) 0
  let s0 := x.rotateRight 7 ^^^ x.rotateRight 18 ^^^ (x >>> 3)
  let s1 := y.rotateRight 17 ^^^ y.rotateRight 19 ^^^ (y >>> 10)
  w.set i (w.getD (i - 16) 0 + s0 + w.getD (i - 7) 0 + s1)

def scheduleWords (block : List UInt8) : List Word :=
  let first := (List.range 16).map fun i => fromBeBytes ((block.drop (i * 4)).take 4)
  (List.range' 16 48).foldl scheduleStep (first ++ List.replicate 48 0)

def roundStep (w : List Word) (v : Vars) (i : ℕ) : Vars :=
  let s1 := v.e.rotateRight 6 ^^^ v.e.rotateRight 11 ^^^ v.e.rotateRight 25
  let ch := (v.e &&& v.f) ^^^ (~~~v.e &&& v.g)
  let t1 := v.h + s1 + ch + kTable.getD i 0 + w.getD i 0
  let s0 := v.a.rotateRight 2 ^^^ v.a.rotateRight 13 ^^^ v.a.rotateRight 22
  let maj := (v.a &&& v.b) ^^^ (v.a &&& v.c) ^^^ (v.b &&& v.c)
  let t2 := s0 + maj
  { h := v.g, g := v.f, f := v.e, e := v.d + t1, d := v.c, c := v.b, b := v.a, a := t1 + t2 }

def compress (state : Vars) (block : List UInt8) : Vars :=
  let v := (List.range 64).foldl (roundStep (scheduleWords block)) state
  { a := state.a + v.a, b := state.b + v.b, c := state.c + v.c, d := state.d + v.d,
    e := state.e + v.e, f := state.f + v.f, g := state.g + v.g, h := state.h + v.h }

/-- A hash on its way: `buf` holds the bytes of the block that is not full yet. -/
structure Sha256 where
  state : Vars
  buf : List UInt8
  total : UInt64
  room : buf.length < 64

namespace Sha256

def new : Sha256 where
  state :=
    { a := 0x6a09e667, b := 0xbb67ae85, c := 0x3c6ef372, d := 0xa54ff53a, e := 0x510e527f,
      f := 0x9b05688c, g := 0x1f83d9ab, h := 0x5be0cd19 }
  buf := []
  total := 0
  room := by decide

/-- The loop of `update`. -/
def fill (h : Sha256) (data : List UInt8) : Sha256 :=
  if hdata : data = [] then h
  else
    let take := min (64 - h.buf.length) data.length
    let buf := h.buf ++ data.take take
    if hfull : buf.length = 64 then
      fill { h with state := compress h.state buf, buf := [], room := by decide } (data.drop take)
    else
      fill { h with
              buf
              room := by
                have hroom := h.room
                rw [List.length_append, List.length_take] at hfull ⊢
                omega } (data.drop take)
termination_by data.length
decreasing_by
  all_goals
    have hroom := h.room
    have hpos := List.length_pos_iff.mpr hdata
    rw [List.length_drop]
    omega

def update (h : Sha256) (data : List UInt8) : Sha256 :=
  fill { h with total := h.total + UInt64.ofNat data.length } data

/-- However the bytes are cut, they are taken in blocks of 64. -/
theorem fill_absorb (h : Sha256) (data : List UInt8) :
    ((h.fill data).state, (h.fill data).buf) =
      BlockStream.absorb 64 compress h.state (h.buf ++ data) := by
  fun_induction fill h data with
  | case1 h =>
    rw [List.append_nil, BlockStream.absorb_short h.room]
  | case2 h data hdata take buf hfull ih =>
    rw [ih, List.nil_append, ← List.take_append_drop take data, ← List.append_assoc,
      BlockStream.absorb_append (by decide) _ (h.buf ++ data.take take),
      BlockStream.absorb_block (by decide) hfull, List.nil_append, List.take_append_drop]
  | case3 h data hdata take buf hfull ih =>
    rw [ih]
    change BlockStream.absorb 64 compress h.state ((h.buf ++ data.take take) ++ data.drop take) = _
    rw [List.append_assoc, List.take_append_drop]

theorem length_fill_one (h : Sha256) (x : UInt8) :
    (h.fill [x]).buf.length = (h.buf.length + 1) % 64 := by
  have hroom := h.room
  have hbuf := congrArg (fun p => p.2.length) (fill_absorb h [x])
  dsimp only at hbuf
  rw [hbuf]
  have hlen : (h.buf ++ [x]).length = h.buf.length + 1 := List.length_append
  by_cases hlast : h.buf.length + 1 = 64
  · rw [BlockStream.absorb_block (by decide) (hlen.trans hlast), hlast]
    rfl
  · rw [BlockStream.absorb_short (by omega), hlen, Nat.mod_eq_of_lt (by omega)]

theorem fill_total (h : Sha256) (data : List UInt8) : (h.fill data).total = h.total := by
  fun_induction fill h data with
  | case1 h => rfl
  | case2 h data hdata take buf hfull ih => exact ih
  | case3 h data hdata take buf hfull ih => exact ih

/-- Zeros until eight bytes of the block are left. -/
def padZeros (h : Sha256) : Sha256 :=
  if h.buf.length = 56 then h else padZeros (h.update [0])
termination_by (120 - h.buf.length) % 64
decreasing_by
  have hroom := h.room
  have hone : (h.update [0]).buf.length = (h.buf.length + 1) % 64 := length_fill_one _ 0
  rw [hone]
  omega

def finish (h : Sha256) : List UInt8 :=
  let bitLen := h.total * 8
  let h := ((h.update [0x80]).padZeros).update (toBE 8 bitLen.toNat)
  h.state.words.flatMap fun w => toBE 4 w.toNat

end Sha256

def sha256 (data : List UInt8) : List UInt8 := (Sha256.new.update data).finish

def sha256Parts (parts : List (List UInt8)) : List UInt8 :=
  (parts.foldl Sha256.update Sha256.new).finish

/-! ## HMAC -/

def hmacKeyPads (key : List UInt8) : List UInt8 × List UInt8 :=
  let k := if 64 < key.length then sha256 key ++ List.replicate 32 0
    else key ++ List.replicate (64 - key.length) 0
  (List.zipWith (· ^^^ ·) (List.replicate 64 0x36) k,
    List.zipWith (· ^^^ ·) (List.replicate 64 0x5c) k)

def hmacWithPads (ipad opad data : List UInt8) : List UInt8 :=
  let ih := ((Sha256.new.update ipad).update data).finish
  ((Sha256.new.update opad).update ih).finish

def hmacSha256 (key data : List UInt8) : List UInt8 :=
  let (ipad, opad) := hmacKeyPads key
  hmacWithPads ipad opad data

/-! ## PBKDF2 -/

/-- One block of the output. -/
def pbkdf2Block (ipad opad salt : List UInt8) (iterations blockIndex : ℕ) : List UInt8 :=
  let u := hmacWithPads ipad opad (salt ++ toBE 4 blockIndex)
  ((List.range' 1 (iterations - 1)).foldl (fun (p : List UInt8 × List UInt8) _ =>
    let u := hmacWithPads ipad opad p.1
    (u, List.zipWith (· ^^^ ·) p.2 u)) (u, u)).2

/-- The loop over the blocks; the counter is checked after every one. -/
def pbkdf2Fill (block : ℕ → List UInt8) (len : ℕ) (out : List UInt8) (blockIndex : ℕ) :
    Option (List UInt8) :=
  if out.length < len then
    let take := min (len - out.length) 32
    let out := out ++ (block blockIndex).take take
    if blockIndex + 1 < 2 ^ 32 then pbkdf2Fill block len out (blockIndex + 1) else none
  else some out
termination_by 2 ^ 32 - blockIndex

/-- `pbkdf2_hmac_sha256` with an output of `len` bytes. -/
def pbkdf2HmacSha256 (password salt : List UInt8) (iterations len : ℕ) : Option (List UInt8) :=
  if 1 ≤ iterations then
    let (ipad, opad) := hmacKeyPads password
    pbkdf2Fill (pbkdf2Block ipad opad salt iterations) len [] 1
  else none

/-! ## The stored form -/

def pbkdf2Iterations : ℕ := 210000

def maxPbkdf2Iterations : ℕ := 2000000

def maxSaltLen : ℕ := 64

def hashPrefix : List Char := "$pbkdf2-sha256".toList

/-- A plus sign in front is no digit. -/
def skipPlus : List Char → List Char
  | '+' :: rest => rest
  | text => text

/-- `str::parse::<u32>` -/
def parseU32 (text : List Char) : Option ℕ :=
  let digits := skipPlus text
  if digits = [] ∨ digits.all Char.isDigit = false then none
  else
    let n := Nat.ofDigitChars 10 digits 0
    if n < 2 ^ 32 then some n else none

/-- The iterations of new passwords; `env` is `DOCSQL_PBKDF2_ITERATIONS`. -/
def effectiveIterations (env : Option String) : ℕ :=
  ((env.bind fun v => parseU32 v.toList).filter fun n =>
    decide (1 ≤ n ∧ n ≤ maxPbkdf2Iterations)).getD pbkdf2Iterations

def hex (bytes : List UInt8) : List Char :=
  bytes.flatMap fun b => [Json.hexChar (b.toNat / 16), Json.hexChar b.toNat]

/-- Pairs of hexadecimal digits. -/
def unhexPairs : List Char → Option (List UInt8)
  | hi :: lo :: rest => do
    let h ← Json.hexDigit hi
    let l ← Json.hexDigit lo
    return UInt8.ofNat (h * 16 + l) :: (← unhexPairs rest)
  | _ => some []

/-- The digits are looked up byte by byte. -/
def unhex (s : List Char) : Option (List UInt8) :=
  let b := Utf8.toBytes s
  if b.length % 2 ≠ 0 then none else unhexPairs (b.map fun x => Char.ofNat x.toNat)

def constantTimeEq (a b : List UInt8) : Bool :=
  if a.length ≠ b.length then false
  else (List.zipWith (· ^^^ ·) a b).foldl (· ||| ·) 0 == 0

def hashPassword (env : Option String) (password : String) (salt : List UInt8) :
    Option (List Char) := do
  let iterations := effectiveIterations env
  let hash ← pbkdf2HmacSha256 (asBytes password) salt iterations 32
  return hashPrefix ++ '$' :: (Nat.toDigits 10 iterations ++ '$' :: (hex salt ++ '$' :: hex hash))

structure StoredPw where
  iterations : ℕ
  salt : List UInt8
  hash : List UInt8
  hash_length : hash.length = 32

/-- `try_into` an array of 32 bytes. -/
def toStored (iterations : ℕ) (salt hash : List UInt8) : Option StoredPw :=
  if h : hash.length = 32 then some ⟨iterations, salt, hash, h⟩ else none

def StoredPw.parse (s : List Char) : Option StoredPw := do
  let rest ← (hashPrefix ++ ['$']).isPrefixOf? s
  match rest.splitOn '$' with
  | [iterationsText, saltText, hashText] => do
    let iterations ← parseU32 iterationsText
    if ¬(1 ≤ iterations ∧ iterations ≤ maxPbkdf2Iterations) then none
    else do
      let salt ← unhex saltText
      if maxSaltLen < salt.length ∨ salt = [] then none
      else toStored iterations salt (← unhex hashText)
  | _ => none

def StoredPw.verify (stored : StoredPw) (password : String) : Option Bool :=
  if ¬(1 ≤ stored.iterations ∧ stored.iterations ≤ maxPbkdf2Iterations) ∨
      maxSaltLen < stored.salt.length ∨ stored.salt = [] then
    some false
  else
    (pbkdf2HmacSha256 (asBytes password) stored.salt stored.iterations 32).map fun got =>
      constantTimeEq got stored.hash

end Docsql.Kdf

/-!
# The digest of a stream

The schedule loop and the round loop compute the words and the working variables of the
standard.  A hash that was fed a message, in whatever parts, holds the state after its whole
blocks and the bytes left over; `finish` feeds it the padding.
-/

namespace Docsql.Kdf

open Docsql.Lib
open Docsql.Lib.Sha2 (Word Vars toBE ofBE)

/-! ## One block -/

theorem rotateRight_eq {n : ℕ} (h : n < 32) (x : Word) : x.rotateRight n = Sha2.rotr n x := by
  rw [BitVec.rotateRight_def, Nat.mod_eq_of_lt h]
  rfl

theorem getD_set {w : List Word} {i : ℕ} (h : i < w.length) (t : ℕ) (x : Word) :
    (w.set i x).getD t 0 = if t = i then x else w.getD t 0 := by
  rw [List.getD_eq_getElem?_getD, List.getD_eq_getElem?_getD, List.getElem?_set]
  split_ifs with heq heq' heq'
  · rfl
  · exact absurd heq.symm heq'
  · exact absurd heq'.symm heq
  · rfl

section Block

variable {block : List UInt8}

/-- The words up to `i` are those of the schedule. -/
def Scheduled (block : List UInt8) (i : ℕ) (w : List Word) : Prop :=
  w.length = 64 ∧ ∀ t < i, w.getD t 0 = Sha2.schedule block t

theorem scheduleStep_scheduled {w : List Word} {i : ℕ} (h : Scheduled block i w) (hlo : 16 ≤ i)
    (hhi : i < 64) : Scheduled block (i + 1) (scheduleStep w i) := by
  obtain ⟨hlen, hw⟩ := h
  refine ⟨by rw [scheduleStep, List.length_set, hlen], fun t ht => ?_⟩
  rw [scheduleStep, getD_set (by omega)]
  split_ifs with heq
  · subst heq
    rw [Sha2.schedule_ge hlo, hw (t - 15) (by omega), hw (t - 2) (by omega),
      hw (t - 16) (by omega), hw (t - 7) (by omega)]
    unfold Sha2.smallSigma0 Sha2.smallSigma1
    rw [rotateRight_eq (by decide), rotateRight_eq (by decide), rotateRight_eq (by decide),
      rotateRight_eq (by decide)]
    ac_rfl
  · exact hw t (by omega)

theorem scheduleLoop_scheduled {w : List Word} (h : Scheduled block 16 w) {n : ℕ}
    (hn : n ≤ 48) : Scheduled block (16 + n) ((List.range' 16 n).foldl scheduleStep w) := by
  induction n with
  | zero => exact h
  | succ n ih =>
    rw [List.range'_concat, Nat.one_mul, List.foldl_append]
    exact scheduleStep_scheduled (i := 16 + n) (ih (by omega)) (Nat.le_add_right 16 n) (by omega)

theorem firstWords_scheduled (block : List UInt8) :
    Scheduled block 16 (((List.range 16).map fun i =>
      fromBeBytes ((block.drop (i * 4)).take 4)) ++ List.replicate 48 0) := by
  refine ⟨rfl, fun t ht => ?_⟩
  have hlen : ((List.range 16).map fun i =>
      fromBeBytes ((block.drop (i * 4)).take 4)).length = 16 := rfl
  rw [List.getD_eq_getElem?_getD, List.getElem?_append_left (hlen ▸ ht), List.getElem?_map,
    List.getElem?_range ht, Sha2.schedule_lt ht, Sha2.wordAt, Nat.mul_comm 4]
  rfl

theorem scheduleWords_eq (block : List UInt8) {t : ℕ} (ht : t < 64) :
    (scheduleWords block).getD t 0 = Sha2.schedule block t :=
  (scheduleLoop_scheduled (firstWords_scheduled block) le_rfl).2 t ht

theorem roundStep_eq (block : List UInt8) (v : Vars) {t : ℕ} (ht : t < 64) :
    roundStep (scheduleWords block) v t = Sha2.round block v t := by
  unfold roundStep
  rw [scheduleWords_eq block ht]
  simp only [rotateRight_eq, Nat.reduceLT]
  rfl

theorem compress_eq (state : Vars) (block : List UInt8) :
    compress state block = Sha2.compress state block := by
  have hrounds : (List.range 64).foldl (roundStep (scheduleWords block)) state =
      (List.range 64).foldl (Sha2.round block) state :=
    List.foldl_ext _ _ _ fun v t ht => roundStep_eq block v (List.mem_range.mp ht)
  unfold compress Sha2.compress
  rw [hrounds]
  simp only [BitVec.add_comm]

end Block

/-! ## Streams -/

theorem toBE_mod (w n : ℕ) : toBE w (n % 256 ^ w) = toBE w n := by
  have hword : Bytes.toLE w (n % 256 ^ w) = Bytes.toLE w n := by
    rw [← Bytes.ofLE_toLE_mod]
    have hlen := Bytes.toLE_ofLE (Bytes.toLE w n)
    rwa [Bytes.length_toLE] at hlen
  rw [toBE, hword, toBE]

theorem new_state : Sha256.new.state = Sha2.initialHash := rfl

namespace Sha256

variable {h : Sha256} {msg data : List UInt8}

/-- The hash has taken the message. -/
def Took (h : Sha256) (msg : List UInt8) : Prop :=
  (h.state, h.buf) = BlockStream.absorb 64 compress Sha2.initialHash msg

theorem took_new : Took new [] := (BlockStream.absorb_short (by decide)).symm

theorem Took.update (hm : Took h msg) (data : List UInt8) : Took (h.update data) (msg ++ data) := by
  unfold Took at hm ⊢
  rw [BlockStream.absorb_append (by decide), ← hm]
  exact fill_absorb _ data

theorem Took.length (hm : Took h msg) : h.buf.length = msg.length % 64 := by
  rw [← BlockStream.length_absorb (by decide) (f := compress) Sha2.initialHash msg, ← hm]

theorem Took.padZeros (hm : Took h msg) :
    Took h.padZeros (msg ++ List.replicate ((120 - h.buf.length) % 64) 0) := by
  fun_induction Sha256.padZeros h generalizing msg with
  | case1 h hfull =>
    rw [hfull, List.replicate_zero, List.append_nil]
    exact hm
  | case2 h hpart ih =>
    have hroom := h.room
    have hone : (h.update [0]).buf.length = (h.buf.length + 1) % 64 := length_fill_one _ 0
    have hzeros : (120 - h.buf.length) % 64 = (120 - (h.buf.length + 1) % 64) % 64 + 1 := by omega
    have hrest := ih (hm.update [0])
    rw [hone] at hrest
    rw [hzeros, List.replicate_succ, List.append_cons]
    exact hrest

theorem hashBlocks_eq (msg : List UInt8) (h : msg.length % 64 = 0) :
    (BlockStream.absorb 64 compress Sha2.initialHash msg).1 =
      Sha2.hashBlocks Sha2.initialHash msg := by
  rw [BlockStream.absorb_blocks (n := msg.length / 64) (by decide) _ _ (by omega), Sha2.hashBlocks]
  exact List.foldl_ext _ _ _ fun H i _ => compress_eq H _

/-- The padding makes the message of the standard whole. -/
theorem Took.finish (hm : Took h msg) (htotal : h.total = UInt64.ofNat msg.length) :
    h.finish = Sha2.digest msg := by
  have hmarked := hm.update [0x80]
  have hpadded := hmarked.padZeros.update (toBE 8 (h.total * 8).toNat)
  have hzeros : (120 - (h.update [0x80]).buf.length) % 64 = Sha2.zeros msg.length := by
    rw [hmarked.length, List.length_append, List.length_singleton, Sha2.zeros]
    omega
  have hbits : toBE 8 (h.total * 8).toNat = toBE 8 (8 * msg.length) := by
    rw [htotal, ← toBE_mod 8 (8 * msg.length), UInt64.toNat_mul, UInt64.toNat_ofNat']
    congr 1
    simp [Nat.mul_comm]
  have hmsg : msg ++ [0x80] ++ List.replicate ((120 - (h.update [0x80]).buf.length) % 64) 0 ++
      toBE 8 (h.total * 8).toNat = Sha2.pad msg := by
    rw [hzeros, hbits, Sha2.pad, List.append_assoc, List.append_assoc, List.singleton_append]
  rw [hmsg] at hpadded
  have hstate := congrArg Prod.fst hpadded
  dsimp only at hstate
  rw [hashBlocks_eq _ (Sha2.length_pad_mod msg)] at hstate
  rw [Sha256.finish, Sha2.digest, ← hstate]

end Sha256

/-- The message a hash is fed, however it is cut. -/
theorem foldl_update {h : Sha256} {msg : List UInt8} (hm : h.Took msg)
    (htotal : h.total = UInt64.ofNat msg.length) (parts : List (List UInt8)) :
    (parts.foldl Sha256.update h).finish = Sha2.digest (msg ++ parts.flatten) := by
  induction parts generalizing h msg with
  | nil =>
    rw [List.flatten_nil, List.append_nil]
    exact hm.finish htotal
  | cons part parts ih =>
    have hnext : (h.update part).total = UInt64.ofNat (msg ++ part).length := by
      rw [Sha256.update, Sha256.fill_total, htotal, List.length_append, UInt64.ofNat_add]
    rw [List.foldl_cons, List.flatten_cons, ← List.append_assoc]
    exact ih (hm.update part) hnext

theorem sha256_eq (data : List UInt8) : sha256 data = Sha2.digest data := by
  have h := foldl_update Sha256.took_new rfl [data]
  rwa [List.flatten_singleton, List.nil_append] at h

/-- The digest of the standard, however the message is cut into parts. -/
theorem sha256Parts_eq (parts : List (List UInt8)) :
    sha256Parts parts = Sha2.digest parts.flatten :=
  foldl_update Sha256.took_new rfl parts

end Docsql.Kdf
