import Docsql.Lib.StateExcept
import Docsql.Timestamp.Calendar

/-!
# The parser stays on character boundaries

Every byte the parser slices next to is below 128, so it is a character of its own.
-/

namespace Docsql.Timestamp

open Docsql.Json (timestampMinMs timestampMaxMs)
open Docsql.Lib.Utf8 Docsql.Lib.Digits

variable {α β : Type} {s : List Char}

/-- The step does not stop the program. -/
def Safe (x : Parse α) : Prop := x ≠ .error .panic

theorem Safe.ok (a : α) : Safe (.ok a : Parse α) := fun h => nomatch h

theorem Safe.pure (a : α) : Safe (Pure.pure a : Parse α) := Safe.ok a

theorem Safe.malformed : Safe (.error .malformed : Parse α) := fun h => nomatch h

theorem Safe.bind {x : Parse α} {f : α → Parse β} (hx : Safe x)
    (hf : ∀ a, x = .ok a → Safe (f a)) : Safe (x >>= f) := by
  intro h
  rcases Except.bind_eq_error_iff.mp h with h | ⟨a, ha, h⟩
  · exact hx h
  · exact hf a ha h

theorem Safe.ite {c : Prop} [Decidable c] {x y : Parse α} (hx : c → Safe x)
    (hy : ¬c → Safe y) : Safe (if c then x else y) := by
  by_cases h : c
  · rw [if_pos h]
    exact hx h
  · rw [if_neg h]
    exact hy h

theorem byteAt_safe {b : List UInt8} {i : ℕ} (h : i < b.length) : Safe (byteAt b i) := by
  rw [byteAt, List.getElem?_eq_getElem h]
  exact .ok _

theorem byteAt_eq_ok {b : List UInt8} {i : ℕ} {x : UInt8} (h : byteAt b i = .ok x) :
    b[i]? = some x := by
  unfold byteAt at h
  cases hb : b[i]? with
  | none =>
    rw [hb] at h
    cases h
  | some y =>
    rw [hb] at h
    cases h
    rfl

theorem sliceFrom_eq {n : ℕ} {rest : List Char} (h : dropBytes n s = some rest) :
    sliceFrom n s = .ok rest := by
  rw [sliceFrom, h]

theorem sliceTo_eq {n : ℕ} {front : List Char} (h : takeBytes n s = some front) :
    sliceTo n s = .ok front := by
  rw [sliceTo, h]

theorem parseI64_safe (s : List Char) : Safe (parseI64 s) :=
  .ite (fun _ => .ok _) fun _ => .malformed

theorem num_safe (s : List Char) (start stop : ℕ) : Safe (num s start stop) := by
  unfold num
  cases (dropBytes start s).bind (takeBytes (stop - start)) with
  | none => exact .malformed
  | some sub => exact .ite (fun _ => .malformed) fun _ => parseI64_safe sub

theorem ascii_of_allDigits (h : allDigits s = true) : Ascii s :=
  ascii_of_isDigit fun c hc => List.all_eq_true.mp h c hc

/-- A sign ends one slice and starts the other. -/
theorem rfindSign_eq_some {pos : ℕ} (h : rfindSign s = some pos) :
    ∃ pre c post, s = pre ++ c :: post ∧ byteLen pre = pos ∧ c.utf8Size = 1 := by
  induction s generalizing pos with
  | nil => cases h
  | cons c s ih =>
    rw [rfindSign] at h
    cases hrest : rfindSign s with
    | some later =>
      rw [hrest] at h
      cases h
      obtain ⟨pre, c', post, rfl, rfl, hone⟩ := ih hrest
      exact ⟨c :: pre, c', post, rfl, byteLen_cons c pre, hone⟩
    | none =>
      rw [hrest] at h
      by_cases hsign : c = '+' ∨ c = '-'
      · rw [if_pos hsign] at h
        cases h
        refine ⟨[], c, s, rfl, rfl, ?_⟩
        rcases hsign with rfl | rfl
        · rfl
        · rfl
      · rw [if_neg hsign] at h
        cases h

theorem dropBytes_cons_one {c : Char} (h : c.utf8Size = 1) (s : List Char) :
    dropBytes 1 (c :: s) = some s := by
  have := dropBytes_append [c] s
  rwa [show byteLen [c] = 1 by rw [byteLen_cons, h, byteLen_nil]] at this

theorem parseOffset_safe {c : Char} (h : c.utf8Size = 1) (post : List Char) :
    Safe (parseOffset (c :: post)) := by
  unfold parseOffset
  rw [sliceFrom_eq (dropBytes_cons_one h post)]
  refine Safe.bind (.ok _) fun rest hrest => ?_
  generalize List.filter (fun c => decide (c ≠ ':')) rest = digits
  refine .ite (fun _ => .malformed) fun hfour => ?_
  obtain ⟨hlen, hall⟩ : byteLen digits = 4 ∧ allDigits digits = true := by simpa using hfour
  have hascii := ascii_of_allDigits hall
  rw [hascii.byteLen_eq] at hlen
  rw [sliceTo_eq (hascii.takeBytes_eq (n := 2) (by omega)),
    sliceFrom_eq (hascii.dropBytes_eq (n := 2) (by omega))]
  exact Safe.bind (.ok _) fun _ _ => Safe.bind (parseI64_safe _) fun _ _ =>
    Safe.bind (.ok _) fun _ _ => Safe.bind (parseI64_safe _) fun _ _ =>
    .ite (fun _ => .malformed) fun _ => .pure _

theorem splitOffset_safe (time : List Char) : Safe (splitOffset time) := by
  unfold splitOffset
  cases hlast : (toBytes time).getLast? with
  | none => exact .pure _
  | some last =>
    refine .ite (fun hz => ?_) fun _ => ?_
    · obtain ⟨pre, c, rfl, hone, -⟩ := exists_char_of_last hlast (by
        rcases hz with rfl | rfl
        · decide
        · decide)
      have hlen : byteLen (pre ++ [c]) - 1 = byteLen pre := by
        rw [byteLen_append, byteLen_cons, hone, byteLen_nil, Nat.add_sub_cancel]
      rw [hlen, sliceTo_eq (takeBytes_append pre [c])]
      exact Safe.bind (.ok _) fun _ _ => .pure _
    · cases hsign : rfindSign time with
      | none => exact .pure _
      | some pos =>
        obtain ⟨pre, c, post, rfl, rfl, hone⟩ := rfindSign_eq_some hsign
        refine .ite (fun _ => ?_) fun _ => .pure _
        rw [sliceFrom_eq (dropBytes_append pre (c :: post)),
          sliceTo_eq (takeBytes_append pre (c :: post))]
        refine Safe.bind (.ok _) fun off hoff => ?_
        cases hoff
        exact Safe.bind (parseOffset_safe hone post) fun _ _ => Safe.bind (.ok _) fun _ _ =>
          .pure _

theorem splitTime_safe (s : List Char) : Safe (splitTime s) := by
  unfold splitTime
  cases dropBytes 10 s with
  | none => exact .malformed
  | some rest =>
    refine .ite (fun hsep => ?_) fun _ => .ite (fun _ => .pure _) fun _ => .malformed
    cases rest with
    | nil => simp at hsep
    | cons c rest =>
      have hone : c.utf8Size = 1 := by
        rcases hsep with h | h | h
        · rw [Option.some.inj h]
          rfl
        · rw [Option.some.inj h]
          rfl
        · rw [Option.some.inj h]
          rfl
      rw [sliceFrom_eq (dropBytes_cons_one hone rest)]
      exact Safe.bind (.ok _) fun _ _ => splitOffset_safe _

theorem parseMillis_safe (frac : List Char) : Safe (parseMillis frac) := by
  unfold parseMillis
  refine .ite (fun _ => .malformed) fun hdigits => ?_
  have hascii : Ascii frac := ascii_of_allDigits (by simp_all)
  have hpad : Ascii (frac ++ List.replicate (3 - byteLen frac) '0') :=
    hascii.append fun c hc => by
      rw [List.eq_of_mem_replicate hc]
      rfl
  rw [sliceTo_eq (hpad.takeBytes_eq (n := 3) (by
    rw [List.length_append, List.length_replicate, hascii.byteLen_eq]
    omega))]
  exact Safe.bind (.ok _) fun _ _ => parseI64_safe _

/-- A point in the byte position 8 is a character, so the fraction can be cut off. -/
theorem dropBytes_fraction (h : byteAt (toBytes s) 8 = .ok '.'.val.toUInt8) :
    ∃ frac, dropBytes 9 s = some frac := by
  obtain ⟨pre, c, post, rfl, hpre, hone, -⟩ :=
    exists_char_of_byte (byteAt_eq_ok h) (by decide)
  refine ⟨post, ?_⟩
  have := dropBytes_append (pre ++ [c]) post
  rwa [List.append_assoc, byteLen_append, byteLen_cons, hpre, hone] at this

theorem parseClock_safe (s rest : List Char) : Safe (parseClock s rest) := by
  unfold parseClock
  dsimp only
  refine .ite (fun _ => .pure _) fun _ => .ite (fun hlen => ?_) fun _ => .ite (fun hlen => ?_)
    fun _ => .ite (fun hlen => ?_) fun _ => .malformed
  · exact Safe.bind (byteAt_safe (by omega)) fun _ _ => .ite (fun _ => .malformed) fun _ =>
      Safe.bind (num_safe _ _ _) fun _ _ => Safe.bind (num_safe _ _ _) fun _ _ => .pure _
  · exact Safe.bind (byteAt_safe (by omega)) fun _ _ =>
      Safe.bind (byteAt_safe (by omega)) fun _ _ => .ite (fun _ => .malformed) fun _ =>
      Safe.bind (num_safe _ _ _) fun _ _ => Safe.bind (num_safe _ _ _) fun _ _ =>
      Safe.bind (num_safe _ _ _) fun _ _ => .pure _
  · refine Safe.bind (byteAt_safe (by omega)) fun _ _ =>
      Safe.bind (byteAt_safe (by omega)) fun _ _ =>
      Safe.bind (byteAt_safe (by omega)) fun point hpoint =>
      .ite (fun _ => .malformed) fun hmarks => Safe.bind (num_safe _ _ _) fun _ _ =>
      Safe.bind (num_safe _ _ _) fun _ _ => Safe.bind (num_safe _ _ _) fun _ _ => ?_
    obtain rfl : point = '.'.val.toUInt8 := by
      by_contra hne
      exact hmarks (.inr (.inr hne))
    obtain ⟨frac, hfrac⟩ := dropBytes_fraction hpoint
    rw [sliceFrom_eq hfrac]
    exact Safe.bind (.ok _) fun _ _ => Safe.bind (parseMillis_safe _) fun _ _ => .pure _

theorem parseDate_safe (s : List Char) : Safe (parseDate s) := by
  unfold parseDate
  dsimp only
  refine .ite (fun _ => .malformed) fun hlen => Safe.bind (byteAt_safe (by omega)) fun _ _ =>
    Safe.bind (byteAt_safe (by omega)) fun _ _ => .ite (fun _ => .malformed) fun _ =>
    Safe.bind (num_safe _ _ _) fun y _ => Safe.bind (num_safe _ _ _) fun mo _ =>
    Safe.bind (num_safe _ _ _) fun d _ => .ite (fun _ => .malformed) fun hrange => ?_
  generalize (if (y % 4 = 0 ∧ y % 100 ≠ 0) ∨ y % 400 = 0 then 29 else 28) = feb
  have hmo : mo - 1 < [31, feb, 31, 30, 31, 30, 31, 31, 30, 31, 30, 31].length := by
    rw [show [31, feb, 31, 30, 31, 30, 31, 31, 30, 31, 30, 31].length = 12 from rfl]
    omega
  rw [List.getElem?_eq_getElem hmo]
  exact .ite (fun _ => .malformed) fun _ => .pure _

theorem parseTimestampMs_safe (text : String) : Safe (parseTimestampMs text) :=
  Safe.bind (parseDate_safe _) fun _ _ => Safe.bind (splitTime_safe _) fun _ _ =>
    Safe.bind (parseClock_safe _ _) fun _ _ => .ite (fun _ => .malformed) fun _ =>
    .ite (fun _ => .pure _) fun _ => .malformed

/-- What is parsed has a canonical text. -/
theorem parseTimestampMs_range {text : String} {ms : ℤ} (h : parseTimestampMs text = .ok ms) :
    timestampMinMs ≤ ms ∧ ms ≤ timestampMaxMs := by
  obtain ⟨⟨y, mo, d⟩, -, h⟩ := Except.bind_eq_ok_iff.mp h
  obtain ⟨⟨rest, offset⟩, -, h⟩ := Except.bind_eq_ok_iff.mp h
  obtain ⟨clock, -, h⟩ := Except.bind_eq_ok_iff.mp h
  dsimp only at h
  by_cases hclock : 23 < clock.hh ∨ 59 < clock.mm ∨ 59 < clock.ss
  · rw [if_pos hclock] at h
    cases h
  · rw [if_neg hclock] at h
    split_ifs at h with hrange
    cases h
    exact hrange

end Docsql.Timestamp
