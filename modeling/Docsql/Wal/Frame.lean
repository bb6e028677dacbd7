import Docsql.Lib.Bytes
import Docsql.Lib.StateExcept

/-!
# Frames of the write-ahead log

A frame is `lsn | kind | txid | len | payload | crc`, little-endian, with the
checksum over everything between the LSN and itself.  The reader takes one frame
at a time; a frame it cannot take is the torn end of the log unless bytes follow
its claimed extent.
-/

namespace Docsql.Wal

inductive WalError where
  | io (reason : String)
  | corrupt (lsn : UInt64) (reason : String)
deriving DecidableEq, Repr

def kindBegin : UInt8 := 1
def kindWrite : UInt8 := 2
def kindCommit : UInt8 := 3
def kindAbort : UInt8 := 4
def kindCommitDeferred : UInt8 := 5
def kindFence : UInt8 := 6

/-- `DOCSWAL1`. -/
def header : List UInt8 := [68, 79, 67, 83, 87, 65, 76, 49]

def maxFramePayload : ℕ := 2 ^ 20

/-! ## CRC-32 -/

def crcRound (c : UInt32) : UInt32 :=
  if c &&& 1 ≠ 0 then (0xEDB88320 : UInt32) ^^^ (c >>> 1) else c >>> 1

/-- One slot of the table: eight rounds on the index. -/
def crcSlot (i : UInt32) : UInt32 := crcRound^[8] i

def crc32 (data : List UInt8) : UInt32 :=
  ~~~ data.foldl (fun crc b => crcSlot ((crc ^^^ b.toUInt32) &&& 0xFF) ^^^ (crc >>> 8)) 0xFFFFFFFF

example : crc32 [49, 50, 51, 52, 53, 54, 55, 56, 57] = 0xCBF43926 := by
  decide +kernel

/-! ## Writing and parsing one frame -/

structure LogRecord where
  lsn : UInt64
  kind : UInt8
  txid : UInt64
  payload : List UInt8
deriving DecidableEq, Repr

namespace LogRecord

/-- The part of a frame the checksum covers.  The length is cut to 32 bits. -/
def body (r : LogRecord) : List UInt8 :=
  r.kind :: (Bytes.toLE 8 r.txid.toNat ++ (Bytes.toLE 4 r.payload.length ++ r.payload))

def frame (r : LogRecord) : List UInt8 :=
  Bytes.toLE 8 r.lsn.toNat ++ (r.body ++ Bytes.toLE 4 (crc32 r.body).toNat)

end LogRecord

def word64 (b : List UInt8) : UInt64 := UInt64.ofNat (Bytes.ofLE b)

/-- The length field of a frame head. -/
def claimedLen (buf : List UInt8) : ℕ := Bytes.ofLE ((buf.drop 17).take 4)

/-- Whether the checksum stored behind the claimed payload is right. -/
def crcMatches (buf : List UInt8) : Bool :=
  crc32 ((buf.drop 8).take (13 + claimedLen buf)) ==
    UInt32.ofNat (Bytes.ofLE ((buf.drop (21 + claimedLen buf)).take 4))

def parseFrame (buf : List UInt8) (expectLsn : Option UInt64) :
    Except WalError (Option (LogRecord × ℕ)) :=
  if buf.length < 25 then .ok none
  else
    let lsn := word64 (buf.take 8)
    match expectLsn.filter (· ≠ lsn) with
    | some expected => .error (.corrupt expected "lsn gap")
    | none =>
      let len := claimedLen buf
      if buf.length < 25 + len then .ok none
      else if crcMatches buf then
        .ok (some (⟨lsn, buf.getD 8 0, word64 ((buf.drop 9).take 8), (buf.drop 21).take len⟩,
          25 + len))
      else .ok none

/-! ## The streaming reader -/

/-- `rest` is what the buffered handle has not delivered yet. -/
structure FrameReader where
  rest : List UInt8
  next : Option UInt64
  pos : ℕ
  fileLen : ℕ

namespace FrameReader

def fromFile (file : List UInt8) : FrameReader :=
  { rest := file.drop header.length, next := none, pos := header.length, fileLen := file.length }

def readFrame (r : FrameReader) : Except WalError (Option (LogRecord × ℕ)) :=
  if r.rest.length < 21 then .ok none
  else
    let lsn := word64 (r.rest.take 8)
    let len := claimedLen r.rest
    let frameEnd := r.pos + 21 + len + 4
    if maxFramePayload < len then
      if frameEnd < r.fileLen then .error (.corrupt lsn "corrupt frame length mid-log")
      else .ok none
    else if r.rest.length < 25 + len then .ok none
    else
      match parseFrame (r.rest.take (25 + len)) r.next with
      | .ok (some found) => .ok (some found)
      | _ =>
        if frameEnd < r.fileLen then .error (.corrupt lsn "corrupt frame mid-log")
        else .ok none

def advance (r : FrameReader) (rec : LogRecord) (adv : ℕ) : FrameReader :=
  { r with rest := r.rest.drop adv, pos := r.pos + adv, next := some (rec.lsn + 1) }

/-- All frames up to the end of the log, and where they end. -/
def collect : ℕ → FrameReader → Except WalError (List LogRecord × ℕ)
  | 0, r => .ok ([], r.pos)
  | fuel + 1, r =>
    match r.readFrame with
    | .error e => .error e
    | .ok none => .ok ([], r.pos)
    | .ok (some (rec, adv)) => do
      let (recs, validEnd) ← collect fuel (r.advance rec adv)
      return (rec :: recs, validEnd)

end FrameReader

/-- Every frame takes at least one byte, so the length of the file is fuel
enough. -/
def frames (file : List UInt8) : Except WalError (List LogRecord × ℕ) :=
  (FrameReader.fromFile file).collect file.length

def scanFile (file : List UInt8) : Except WalError (List LogRecord) := do
  let (recs, _) ← frames file
  return recs

end Docsql.Wal

/-!
# What the frame reader delivers

A frame the writer wrote is taken back whatever follows it, a part of such a
frame ends the log, and a frame with a wrong checksum inside the log is an
error.  The reader is then followed over a whole log by induction on its
records.
-/

namespace Docsql.Wal

namespace LogRecord

variable (r : LogRecord) (tail : List UInt8)

theorem length_body : r.body.length = 13 + r.payload.length := by
  simp [body]
  omega

theorem length_frame : r.frame.length = 25 + r.payload.length := by
  simp [frame, length_body]
  omega

theorem frame_take_lsn : (r.frame ++ tail).take 8 = Bytes.toLE 8 r.lsn.toNat := by
  rw [frame, List.append_assoc, List.take_left' (Bytes.length_toLE 8 _)]

theorem frame_drop_lsn :
    (r.frame ++ tail).drop 8 = r.body ++ (Bytes.toLE 4 (crc32 r.body).toNat ++ tail) := by
  rw [frame, List.append_assoc, List.drop_left' (Bytes.length_toLE 8 _), List.append_assoc]

theorem frame_drop_txid :
    (r.frame ++ tail).drop 9 = Bytes.toLE 8 r.txid.toNat ++ (Bytes.toLE 4 r.payload.length ++
      (r.payload ++ (Bytes.toLE 4 (crc32 r.body).toNat ++ tail))) := by
  rw [show 9 = 8 + 1 from rfl, ← List.drop_drop, frame_drop_lsn, body]
  simp

theorem frame_drop_len :
    (r.frame ++ tail).drop 17 = Bytes.toLE 4 r.payload.length ++
      (r.payload ++ (Bytes.toLE 4 (crc32 r.body).toNat ++ tail)) := by
  rw [show 17 = 9 + 8 from rfl, ← List.drop_drop, frame_drop_txid,
    List.drop_left' (Bytes.length_toLE 8 _)]

theorem frame_drop_payload :
    (r.frame ++ tail).drop 21 = r.payload ++ (Bytes.toLE 4 (crc32 r.body).toNat ++ tail) := by
  rw [show 21 = 17 + 4 from rfl, ← List.drop_drop, frame_drop_len,
    List.drop_left' (Bytes.length_toLE 4 _)]

variable {r}

theorem claimedLen_frame (h : r.payload.length < 2 ^ 32) :
    claimedLen (r.frame ++ tail) = r.payload.length := by
  rw [claimedLen, frame_drop_len, List.take_left' (Bytes.length_toLE 4 _), Bytes.ofLE_toLE h]

theorem crcMatches_frame (h : r.payload.length < 2 ^ 32) : crcMatches (r.frame ++ tail) := by
  have hbody : ((r.frame ++ tail).drop 8).take (13 + r.payload.length) = r.body := by
    rw [frame_drop_lsn, List.take_left' r.length_body]
  have hcrc : ((r.frame ++ tail).drop (21 + r.payload.length)).take 4 =
      Bytes.toLE 4 (crc32 r.body).toNat := by
    rw [← List.drop_drop, frame_drop_payload, List.drop_left' rfl,
      List.take_left' (Bytes.length_toLE 4 _)]
  rw [crcMatches, claimedLen_frame tail h, hbody, hcrc, Bytes.ofLE_toLE (UInt32.toNat_lt _)]
  simp

theorem parseFrame_frame {expectLsn : Option UInt64} (h : r.payload.length < 2 ^ 32)
    (hlsn : ∀ l, expectLsn = some l → l = r.lsn) :
    parseFrame r.frame expectLsn = .ok (some (r, 25 + r.payload.length)) := by
  have hlen : ¬r.frame.length < 25 := by
    rw [length_frame]
    omega
  have hword : ∀ w : UInt64, word64 (Bytes.toLE 8 w.toNat) = w := by
    intro w
    rw [word64, Bytes.ofLE_toLE (UInt64.toNat_lt w), UInt64.ofNat_toNat]
  have hfilter : expectLsn.filter (· ≠ r.lsn) = none := by
    cases expectLsn with
    | none => rfl
    | some l => simp [hlsn l rfl]
  have hkind : r.frame.getD 8 0 = r.kind := by
    have h8 := frame_drop_lsn r []
    rw [List.append_nil] at h8
    rw [List.getD_eq_getElem?_getD, ← List.head?_drop, h8]
    rfl
  have htake := frame_take_lsn r []
  have htxid := frame_drop_txid r []
  have hpayload := frame_drop_payload r []
  have hclaimed := claimedLen_frame [] h
  have hcrc := crcMatches_frame [] h
  rw [List.append_nil] at htake htxid hpayload hclaimed hcrc
  rw [parseFrame, if_neg hlen]
  simp only [htake, hword, hfilter, hclaimed, hcrc, hkind]
  rw [if_neg (by rw [length_frame]; omega), htxid, List.take_left' (Bytes.length_toLE 8 _), hword,
    hpayload, List.take_left' rfl]
  rfl

end LogRecord

theorem parseFrame_ne_some {buf : List UInt8} {expectLsn : Option UInt64} {found : LogRecord × ℕ}
    (h : crcMatches buf = false) : parseFrame buf expectLsn ≠ .ok (some found) := by
  unfold parseFrame
  simp only [h, Bool.false_eq_true, if_false]
  cases expectLsn.filter (· ≠ word64 (buf.take 8)) <;> split_ifs <;> simp

/-! ## One frame -/

namespace FrameReader

variable {r : FrameReader} {rec : LogRecord} {tail : List UInt8}

/-- The log wants a record here: continuity is checked from the second frame on. -/
def Expects (r : FrameReader) (rec : LogRecord) : Prop := ∀ l, r.next = some l → l = rec.lsn

theorem readFrame_frame (hrest : r.rest = rec.frame ++ tail)
    (hlen : rec.payload.length ≤ maxFramePayload) (hnext : r.Expects rec) :
    r.readFrame = .ok (some (rec, rec.frame.length)) := by
  have hlt : rec.payload.length < 2 ^ 32 := by
    unfold maxFramePayload at hlen
    omega
  have hlong : r.rest.length = 25 + rec.payload.length + tail.length := by
    rw [hrest, List.length_append, LogRecord.length_frame]
  have htake : r.rest.take (25 + rec.payload.length) = rec.frame := by
    rw [hrest, List.take_left' rec.length_frame]
  have hclaimed : claimedLen r.rest = rec.payload.length := by
    rw [hrest, LogRecord.claimedLen_frame tail hlt]
  rw [readFrame, if_neg (by omega)]
  simp only [hclaimed]
  rw [if_neg (by omega), if_neg (by omega), htake, LogRecord.parseFrame_frame hlt hnext,
    LogRecord.length_frame]

/-- Part of a frame is the torn end of the log. -/
theorem readFrame_torn (hrest : r.rest <+: rec.frame) (hshort : r.rest.length < rec.frame.length)
    (hlen : rec.payload.length ≤ maxFramePayload) : r.readFrame = .ok none := by
  rcases Nat.lt_or_ge r.rest.length 21 with h21 | h21
  · rw [readFrame, if_pos h21]
  have hlt : rec.payload.length < 2 ^ 32 := by
    unfold maxFramePayload at hlen
    omega
  have hclaimed : claimedLen r.rest = rec.payload.length := by
    have hwhole := LogRecord.claimedLen_frame (r := rec) [] hlt
    obtain ⟨rest', hrest'⟩ := hrest
    rw [List.append_nil, ← hrest'] at hwhole
    rw [← hwhole, claimedLen, claimedLen, List.drop_append_of_le_length (by omega),
      List.take_append_of_le_length]
    rw [List.length_drop]
    omega
  rw [LogRecord.length_frame] at hshort
  rw [readFrame, if_neg (by omega)]
  simp only [hclaimed]
  rw [if_neg (by omega), if_pos hshort]

/-- A wrong checksum in front of the end of the file is reported. -/
theorem readFrame_corrupt (hfile : r.pos + r.rest.length = r.fileLen)
    (hmid : 25 + claimedLen r.rest < r.rest.length) (hcrc : crcMatches r.rest = false) :
    ∃ reason, r.readFrame = .error (.corrupt (word64 (r.rest.take 8)) reason) := by
  have hmid' : r.pos + 21 + claimedLen r.rest + 4 < r.fileLen := by omega
  have hclaimed : claimedLen (r.rest.take (25 + claimedLen r.rest)) = claimedLen r.rest := by
    conv_lhs => rw [claimedLen, List.drop_take, List.take_take]
    rw [claimedLen, Nat.min_eq_left (by omega)]
  have hbad : crcMatches (r.rest.take (25 + claimedLen r.rest)) = false := by
    rw [← hcrc, crcMatches, crcMatches, hclaimed, List.drop_take, List.take_take, List.drop_take,
      List.take_take, Nat.min_eq_left (by omega), Nat.min_eq_left (by omega)]
  rw [readFrame, if_neg (by omega)]
  simp only
  split_ifs with hmax hshort
  · exact ⟨_, rfl⟩
  · omega
  · refine ⟨"corrupt frame mid-log", ?_⟩
    split
    · exact absurd ‹_› (parseFrame_ne_some hbad)
    · rfl

end FrameReader

/-! ## A whole log -/

def logBytes (recs : List LogRecord) : List UInt8 := recs.flatMap LogRecord.frame

/-- Each record follows the one before it; `next` is what the first must be. -/
def Contiguous : Option UInt64 → List LogRecord → Prop
  | _, [] => True
  | next, rec :: recs => (∀ l, next = some l → l = rec.lsn) ∧ Contiguous (some (rec.lsn + 1)) recs

/-- What the reader expects behind the records. -/
def nextAfter : Option UInt64 → List LogRecord → Option UInt64
  | next, [] => next
  | _, rec :: recs => nextAfter (some (rec.lsn + 1)) recs

/-- The frames that lie completely inside the first `n` bytes. -/
def framesInside : ℕ → List LogRecord → List LogRecord
  | _, [] => []
  | n, rec :: recs =>
    if rec.frame.length ≤ n then rec :: framesInside (n - rec.frame.length) recs else []

/-- Every record fits a frame the reader accepts. -/
def Bounded (recs : List LogRecord) : Prop :=
  ∀ rec ∈ recs, rec.payload.length ≤ maxFramePayload

variable {next : Option UInt64} {recs recs' : List LogRecord} {rec : LogRecord} {n : ℕ}

@[simp] theorem logBytes_nil : logBytes [] = [] := rfl

@[simp] theorem logBytes_cons : logBytes (rec :: recs) = rec.frame ++ logBytes recs := rfl

@[simp] theorem logBytes_append : logBytes (recs ++ recs') = logBytes recs ++ logBytes recs' := by
  simp [logBytes]

theorem Contiguous.append (h : Contiguous next recs) (h' : Contiguous (nextAfter next recs) recs') :
    Contiguous next (recs ++ recs') := by
  induction recs generalizing next with
  | nil => exact h'
  | cons rec recs ih => exact ⟨h.1, ih h.2 h'⟩

theorem nextAfter_append :
    nextAfter next (recs ++ recs') = nextAfter (nextAfter next recs) recs' := by
  induction recs generalizing next with
  | nil => rfl
  | cons rec recs ih => exact ih

theorem Contiguous.left (h : Contiguous next (recs ++ recs')) : Contiguous next recs := by
  induction recs generalizing next with
  | nil => trivial
  | cons rec recs ih => exact ⟨h.1, ih h.2⟩

theorem framesInside_isPrefix (n : ℕ) (recs : List LogRecord) : framesInside n recs <+: recs := by
  induction recs generalizing n with
  | nil => exact List.nil_prefix
  | cons rec recs ih =>
      rw [framesInside]
      split_ifs
      · exact List.cons_prefix_cons.mpr ⟨rfl, ih _⟩
      · exact List.nil_prefix

/-- A cut log is its complete frames and part of the next one. -/
theorem take_logBytes (n : ℕ) (recs : List LogRecord) :
    ∃ torn, (logBytes recs).take n = logBytes (framesInside n recs) ++ torn ∧
      (torn = [] ∨ ∃ rec ∈ recs, torn <+: rec.frame ∧ torn.length < rec.frame.length) := by
  induction recs generalizing n with
  | nil => exact ⟨[], by simp [framesInside], Or.inl rfl⟩
  | cons rec recs ih =>
      rw [framesInside]
      split_ifs with h
      · obtain ⟨torn, heq, htorn⟩ := ih (n - rec.frame.length)
        refine ⟨torn, ?_, ?_⟩
        · rw [logBytes_cons, List.take_append, List.take_of_length_le h, heq, logBytes_cons,
            List.append_assoc]
        · refine htorn.imp_right ?_
          rintro ⟨rec', hmem, hpre⟩
          exact ⟨rec', List.mem_cons_of_mem _ hmem, hpre⟩
      · refine ⟨rec.frame.take n, ?_, Or.inr ⟨rec, List.mem_cons_self, ?_, ?_⟩⟩
        · rw [logBytes_cons, List.take_append_of_le_length (by omega)]
          rfl
        · exact List.take_prefix n _
        · rw [List.length_take]
          omega

theorem length_le_logBytes (recs : List LogRecord) : recs.length ≤ (logBytes recs).length := by
  induction recs with
  | nil => exact le_rfl
  | cons rec recs ih =>
      rw [List.length_cons, logBytes_cons, List.length_append, LogRecord.length_frame]
      omega

namespace FrameReader

/-- The reader behind `recs`, with `tail` still to come. -/
def skip (r : FrameReader) (recs : List LogRecord) (tail : List UInt8) : FrameReader :=
  { r with
    rest := tail
    pos := r.pos + (logBytes recs).length
    next := nextAfter r.next recs }

/-- The reader delivers the written records, then goes on behind them. -/
theorem collect_frames {r : FrameReader} {tail : List UInt8} (fuel : ℕ)
    (hrest : r.rest = logBytes recs ++ tail) (hlen : Bounded recs)
    (hcont : Contiguous r.next recs) :
    collect (recs.length + fuel) r = do
      let (more, validEnd) ← collect fuel (r.skip recs tail)
      return (recs ++ more, validEnd) := by
  induction recs generalizing r with
  | nil =>
      have hskip : r.skip [] tail = r := by
        rw [skip, nextAfter, ← show r.rest = tail from hrest]
        rfl
      rw [hskip, List.length_nil, Nat.zero_add]
      cases collect fuel r <;> rfl
  | cons rec recs ih =>
      rw [logBytes_cons, List.append_assoc] at hrest
      have hread := readFrame_frame hrest (hlen rec List.mem_cons_self) hcont.1
      have hdrop : (r.advance rec rec.frame.length).rest = logBytes recs ++ tail := by
        rw [advance, hrest, List.drop_left' rfl]
      have hskip : (r.advance rec rec.frame.length).skip recs tail = r.skip (rec :: recs) tail := by
        simp [skip, advance, nextAfter, Nat.add_assoc]
      rw [List.length_cons, Nat.succ_add, collect, hread]
      simp only
      rw [ih hdrop (fun rec' h => hlen rec' (List.mem_cons_of_mem _ h)) hcont.2, hskip]
      cases collect fuel (r.skip (rec :: recs) tail) <;> rfl

end FrameReader

/-- A log cut anywhere behind the header yields the frames before the cut. -/
theorem frames_take (hlen : Bounded recs) (hcont : Contiguous none recs) (n : ℕ) :
    frames (header ++ (logBytes recs).take n) =
      .ok (framesInside n recs, (header ++ logBytes (framesInside n recs)).length) := by
  obtain ⟨torn, heq, htorn⟩ := take_logBytes n recs
  obtain ⟨later, hlater⟩ := framesInside_isPrefix n recs
  set kept := framesInside n recs
  have hkept : Bounded kept := fun rec h => hlen rec (by rw [← hlater]; simp [h])
  have hcontKept : Contiguous none kept := by
    rw [← hlater] at hcont
    exact hcont.left
  have hrest : (FrameReader.fromFile (header ++ (logBytes recs).take n)).rest =
      logBytes kept ++ torn := by
    rw [FrameReader.fromFile, List.drop_left' rfl, heq]
  have hfuel : kept.length ≤ (header ++ (logBytes recs).take n).length := by
    have := length_le_logBytes kept
    rw [heq, List.length_append, List.length_append]
    omega
  obtain ⟨fuel, hfuel⟩ := Nat.exists_eq_add_of_le hfuel
  rw [frames, hfuel, FrameReader.collect_frames fuel hrest hkept hcontKept]
  have hend : ∀ r : FrameReader, r.readFrame = .ok none → r.collect fuel = .ok ([], r.pos) := by
    intro r hr
    cases fuel with
    | zero => rfl
    | succ fuel => rw [FrameReader.collect, hr]
  rw [hend]
  · simp [FrameReader.skip, FrameReader.fromFile, bind, Except.bind, pure, Except.pure]
  · rcases htorn with rfl | ⟨rec, hrec, hpre, hshort⟩
    · rfl
    · exact FrameReader.readFrame_torn hpre hshort (hlen rec hrec)

theorem frames_log (hlen : Bounded recs) (hcont : Contiguous none recs) :
    frames (header ++ logBytes recs) = .ok (recs, (header ++ logBytes recs).length) := by
  have hall : framesInside (logBytes recs).length recs = recs := by
    clear hlen hcont
    induction recs with
    | nil => rfl
    | cons rec recs ih =>
        rw [framesInside, logBytes_cons, List.length_append, if_pos (by omega),
          Nat.add_sub_cancel_left, ih]
  have h := frames_take hlen hcont (logBytes recs).length
  rwa [List.take_length, hall] at h

/-- A wrong checksum behind which bytes follow stops the scan with an error. -/
theorem frames_corrupt {bad : List UInt8} (hlen : Bounded recs) (hcont : Contiguous none recs)
    (hmid : 25 + claimedLen bad < bad.length) (hcrc : crcMatches bad = false) :
    ∃ reason, frames (header ++ (logBytes recs ++ bad)) =
      .error (.corrupt (word64 (bad.take 8)) reason) := by
  have hrest : (FrameReader.fromFile (header ++ (logBytes recs ++ bad))).rest =
      logBytes recs ++ bad := by
    rw [FrameReader.fromFile, List.drop_left' rfl]
  obtain ⟨fuel, hfuel⟩ : ∃ fuel, (header ++ (logBytes recs ++ bad)).length =
      recs.length + (fuel + 1) := by
    refine ⟨(header ++ (logBytes recs ++ bad)).length - recs.length - 1, ?_⟩
    have := length_le_logBytes recs
    rw [List.length_append, List.length_append]
    omega
  obtain ⟨reason, hread⟩ := FrameReader.readFrame_corrupt
    (r := (FrameReader.fromFile (header ++ (logBytes recs ++ bad))).skip recs bad)
    (by simp [FrameReader.skip, FrameReader.fromFile, Nat.add_assoc]) hmid hcrc
  refine ⟨reason, ?_⟩
  rw [frames, hfuel, FrameReader.collect_frames (fuel + 1) hrest hlen hcont, FrameReader.collect,
    hread]
  rfl

end Docsql.Wal
