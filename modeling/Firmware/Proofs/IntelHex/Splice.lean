import Firmware.Proofs.IntelHex.Data
import Mathlib.Algebra.Group.Int.Defs

/-!
# Data that is written over lines

Writing goes over the lines as reading does, so what was written is read back from where it went, and the data of the
lines changes there only. The lines in between that are data records are written anew, with the heads that they had and
with checksums that are right; all others stay as they are (`writeData_splice`). Writers and readers come to the same
lines because both leave a line when its data ends, whatever the offset was that they came with.
-/

open List

namespace Firmware
namespace IntelHex

variable {off n i : Nat} {patch : Bytes} {line : String} {lines lines' : List String}

/-- What is written is read back. -/
theorem Writes.collect_eq (h : Writes off patch lines lines') {out : Bytes} (hn : n ≤ out.length + patch.length) :
    ∃ res, collect n off out lines' = .ok res ∧ res.take n = (out ++ patch).take n := by
  -- on the lines that were written; what was read so far takes the part of what was written before
  induction h generalizing out with
  | done off lines =>
    refine ⟨out, ?_, by rw [append_nil]⟩
    cases lines with
    | nil => rfl
    | cons line rest => rw [collect, if_pos (by simpa using hn)]
  | skip hne hbytes hdata _ ih =>
    by_cases hfull : n ≤ out.length
    · exact ⟨out, by rw [collect, if_pos hfull], (take_append_of_le_length hfull).symm⟩
    · rw [collect_cons fun c hc hb => ?_, if_neg hfull, hbytes, lineData_eq_nil hbytes hdata, drop_nil, append_nil]
      · exact ih hn
      · rw [← Except.ok.inj (hbytes.symm.trans hc), hdata] at hb
        exact absurd hb Bool.false_ne_true
  | @fill off patch line rest rest' b hne hbytes hdata hoff _ ih =>
    by_cases hfull : n ≤ out.length
    · exact ⟨out, by rw [collect, if_pos hfull], (take_append_of_le_length hfull).symm⟩
    · have hread : ((lineData line).overwrite off patch).drop off =
          patch.take ((lineData line).length - off) ++ (lineData line).drop (off + patch.length) := by
        unfold Bytes.overwrite
        rw [append_assoc]
        by_cases hin : off ≤ (lineData line).length
        · rw [drop_left' (by rw [length_take, Nat.min_eq_left hin])]
        · rw [take_of_length_le (by omega : (lineData line).length ≤ off), drop_append,
            drop_eq_nil_of_le (by omega : (lineData line).length ≤ off),
            drop_eq_nil_of_le (by omega : (lineData line).length ≤ off + patch.length),
            Nat.sub_eq_zero_of_le (by omega : (lineData line).length ≤ off)]
          simp
      rw [collect_cons fun _ _ _ => hoff, if_neg hfull, bytes_render, lineData_render hbytes hdata, hread]
      obtain ⟨res, hres, htake⟩ := @ih (out ++ (patch.take ((lineData line).length - off) ++
        (lineData line).drop (off + patch.length))) (by simp only [length_append, length_take, length_drop]; omega)
      refine ⟨res, hres, htake.trans ?_⟩
      -- the line takes all of the bytes, or nothing of its data is left behind them
      by_cases hfits : patch.length ≤ (lineData line).length - off
      · rw [drop_eq_nil_of_le hfits, append_nil, take_of_length_le hfits, ← append_assoc,
          take_append_of_le_length (by rw [length_append]; exact hn)]
      · rw [drop_eq_nil_of_le (by omega : (lineData line).length ≤ off + patch.length), append_nil, append_assoc,
          take_append_drop]

/-- Whether `line'` is the line of a data record with the head of `line`, as many bytes and the right checksum. -/
def Resealed (line line' : String) : Prop :=
  ∃ b b', bytes line = .ok b ∧ holdsData b = true ∧ bytes line' = .ok b' ∧ b'.length = b.length ∧
    b'.take 4 = b.take 4 ∧ Bytes.sum b' = 0

theorem resealed_render {b : Bytes} (hbytes : bytes line = .ok b) (hdata : holdsData b = true) (off : Nat)
    (patch : Bytes) : Resealed line (render (Bytes.overwrite b.dropLast (4 + off) patch)) := by
  have hlong := length_of_holdsData hdata
  refine ⟨b, _, hbytes, hdata, bytes_render _, ?_, ?_, sum_concat_eq_zero.2 rfl⟩
  · rw [length_append, length_overwrite_any, length_dropLast]
    simp only [length_cons, length_nil]
    omega
  · unfold Bytes.overwrite
    rw [append_assoc, append_assoc, take_append_of_le_length (by rw [length_take, length_dropLast]; omega), take_take,
      dropLast_eq_take, take_take]
    congr 1
    omega

/-- A line that bytes come to is written anew if it has data; all others stay. -/
theorem Writes.line_eq (h : Writes off patch lines lines') (hi : lines[i]? = some line) :
    (lines'[i]? = some line ∧ ((dataOf (lines.take i)).length - placeOf off lines < patch.length →
      ∃ b, bytes line = .ok b ∧ holdsData b = false)) ∨
    ((dataOf (lines.take i)).length - placeOf off lines < patch.length ∧
      ∃ line', lines'[i]? = some line' ∧ Resealed line line') := by
  induction h generalizing i with
  | done off lines => exact .inl ⟨hi, fun hlt => absurd hlt (Nat.not_lt_zero _)⟩
  | skip hne hbytes hdata _ ih =>
    cases i with
    | zero =>
      obtain rfl := Option.some.inj hi
      exact .inl ⟨rfl, fun _ => ⟨_, hbytes, hdata⟩⟩
    | succ j =>
      rw [placeOf_zero] at ih
      rw [take_succ_cons, dataOf_cons, placeOf, lineData_eq_nil hbytes hdata, nil_append, length_nil, Nat.min_zero]
      exact ih hi
  | @fill off patch line rest rest' b hne hbytes hdata hoff _ ih =>
    cases i with
    | zero =>
      obtain rfl := Option.some.inj hi
      refine .inr ⟨?_, _, rfl, resealed_render hbytes hdata off patch⟩
      rw [take_zero, dataOf_nil, length_nil, Nat.zero_sub]
      exact length_pos_iff.2 hne
    | succ j =>
      have hcome : (dataOf ((line :: rest).take (j + 1))).length - placeOf off (line :: rest) < patch.length ↔
          (dataOf (rest.take j)).length - placeOf 0 rest < (patch.drop ((lineData line).length - off)).length := by
        rw [take_succ_cons, dataOf_cons, placeOf, placeOf_zero, length_append, length_drop]
        omega
      rw [hcome]
      exact ih hi

/-- The place in the data of lines of an offset in the data of line `n`. -/
def placeAt (lines : List String) (n off : Nat) : Nat := (dataOf (lines.take n)).length + placeOf off (lines.drop n)

/-- Whether the bytes that are written come to line `i`: what was written in front of it is not all. -/
def Reaches (lines : List String) (n off : Nat) (patch : Bytes) (i : Nat) : Prop :=
  n ≤ i ∧ (dataOf (lines.take i)).length - placeAt lines n off < patch.length

/-- How lines change when bytes are written over their data from offset `off` of the data of line `n` on. -/
structure Spliced (lines lines' : List String) (n off : Nat) (patch : Bytes) : Prop where
  fits : placeAt lines n off + patch.length ≤ (dataOf lines).length
  data : dataOf lines' = (dataOf lines).take (placeAt lines n off) ++ patch ++
    (dataOf lines).drop (placeAt lines n off + patch.length)
  length_eq : lines'.length = lines.length
  /-- A line stays if it holds no data, or if the bytes do not come to it. -/
  same (i : Nat) (line : String) (hi : lines[i]? = some line)
    (h : ¬ Reaches lines n off patch i ∨ ∀ b, bytes line = .ok b → holdsData b = false) : lines'[i]? = some line
  resealed (i : Nat) (line : String) (b : Bytes) (hi : lines[i]? = some line) (h : Reaches lines n off patch i)
    (hbytes : bytes line = .ok b) (hdata : holdsData b = true) : ∃ line', lines'[i]? = some line' ∧ Resealed line line'

theorem Writes.length_eq (h : Writes off patch lines lines') : lines'.length = lines.length := by
  induction h with
  | done => rfl
  | skip _ _ _ _ ih => rw [length_cons, length_cons, ih]
  | fill _ _ _ _ _ ih => rw [length_cons, length_cons, ih]

theorem Writes.spliced {rest : List String} (h : Writes off patch (lines.drop n) rest) :
    Spliced lines (lines.take n ++ rest) n off patch := by
  have hdata : dataOf lines = dataOf (lines.take n) ++ dataOf (lines.drop n) := by
    rw [← dataOf_append, take_append_drop]
  obtain ⟨hrest, hfits⟩ := h.dataOf_eq
  -- a line behind the first `n` ones is one of those that are written
  have hline : ∀ i line, lines[i]? = some line → n ≤ i →
      (lines.drop n)[i - n]? = some line ∧ (lines.take n ++ rest)[i]? = rest[i - n]? ∧
        (dataOf (lines.take i)).length - placeAt lines n off =
          (dataOf ((lines.drop n).take (i - n))).length - placeOf off (lines.drop n) := by
    intro i line hi hle
    have hlong := (List.getElem?_eq_some_iff.1 hi).1
    obtain ⟨k, rfl⟩ := Nat.exists_eq_add_of_le hle
    have htake : (lines.take n).length = n := by rw [length_take, Nat.min_eq_left (by omega)]
    rw [Nat.add_sub_cancel_left, getElem?_drop]
    refine ⟨hi, by rw [getElem?_append_right (by omega), htake, Nat.add_sub_cancel_left], ?_⟩
    rw [take_add, dataOf_append, length_append, placeAt]
    exact Nat.add_sub_add_left ..
  refine ⟨?_, ?_, ?_, fun i line hi hsame => ?_, fun i line b hi hreach hbytes hholds => ?_⟩
  · rw [hdata, length_append, placeAt]
    omega
  · rw [dataOf_append, hrest, hdata, placeAt, Nat.add_assoc, take_length_add_append,
      drop_length_add_append, Bytes.overwrite, take_of_length_le (by omega : patch.length ≤ _)]
    simp only [append_assoc]
  · rw [length_append, h.length_eq, ← length_append, take_append_drop]
  · by_cases hle : n ≤ i
    · obtain ⟨hi', hrest', hcome⟩ := hline i line hi hle
      rw [hrest']
      obtain ⟨hkept, -⟩ | ⟨hlt, line', -, b, b', hbytes, hholds, -⟩ := h.line_eq hi'
      · exact hkept
      · refine absurd hsame (not_or.2 ⟨fun hreach => hreach ⟨hle, ?_⟩, fun hnone => ?_⟩)
        · rwa [hcome]
        · exact absurd ((hnone b hbytes).symm.trans hholds) Bool.false_ne_true
    · have hlong := (List.getElem?_eq_some_iff.1 hi).1
      rw [getElem?_append_left (by rw [length_take]; omega), getElem?_take_of_lt (by omega)]
      exact hi
  · obtain ⟨hi', hrest', hcome⟩ := hline i line hi hreach.1
    rw [hrest']
    obtain ⟨-, hnone⟩ | ⟨-, hresealed⟩ := h.line_eq hi'
    · obtain ⟨c, hc, hnone⟩ := hnone (hcome ▸ hreach.2)
      rw [Except.ok.inj (hbytes.symm.trans hc)] at hholds
      exact absurd (hnone.symm.trans hholds) Bool.false_ne_true
    · exact hresealed

/-- **Data that is written over lines.** Where bytes are written without a failure, they are read back from the same
line and offset. They replace as many bytes of the data of all lines, from the place of the offset on, and no more lines
change than the data records that they come to, which keep their heads and have the right checksums. -/
theorem writeData_splice {lineNo off : Int} (hline : 0 ≤ lineNo) (hoff : 0 ≤ off) (hmax : off < 2 ^ 63)
    (h : writeData lines lineNo off patch = (lines', none)) :
    readData lines' lineNo off patch.length = .ok patch ∧ Spliced lines lines' lineNo.toNat off.toNat patch := by
  obtain ⟨n, rfl⟩ := Int.eq_ofNat_of_zero_le hline
  obtain ⟨off, rfl⟩ := Int.eq_ofNat_of_zero_le hoff
  rw [Int.toNat_natCast, Int.toNat_natCast]
  unfold writeData at h
  by_cases hne : patch = []
  · rw [if_pos (by rw [hne]; rfl)] at h
    obtain rfl := (Prod.mk.inj h).1
    have hspliced := (Writes.done off (lines.drop n)).spliced
    rw [take_append_drop] at hspliced
    rw [hne]
    exact ⟨rfl, hspliced⟩
  · rw [if_neg (by simpa using hne), if_neg (by omega), Int.toNat_natCast] at h
    obtain ⟨rfl, hnone⟩ := Prod.mk.inj h
    have hwrites := writes_of_overwrite (by omega) (Prod.ext rfl hnone)
    refine ⟨?_, hwrites.spliced⟩
    have hpos := length_pos_iff.2 hne
    have hdrop : (lines.take n ++ (overwrite off patch (lines.drop n)).1).drop n =
        (overwrite off patch (lines.drop n)).1 := by
      by_cases hn : n ≤ lines.length
      · exact drop_left' (by rw [length_take, Nat.min_eq_left hn])
      · have hempty : (overwrite off patch (lines.drop n)).1 = [] :=
          eq_nil_of_length_eq_zero (by rw [hwrites.length_eq, length_drop]; omega)
        rw [hempty, append_nil, drop_eq_nil_of_le (by rw [length_take]; omega)]
    obtain ⟨res, hres, htake⟩ := @Writes.collect_eq _ patch.length _ _ _ hwrites [] (by simp)
    unfold readData
    rw [if_neg (by omega), if_neg (by simpa using hne), if_neg (by omega), Int.toNat_natCast, Int.toNat_natCast, hdrop,
      hres]
    show Except.ok (res.take patch.length) = _
    rw [htake, nil_append, take_length]

/-- Two data records, the first with a wrong checksum, and a line between them that has no data. -/
def acrossLines : List String := [":020000040001F9", ":0400000001020304ff", ":00000001FF", ":020004000506EF"]

theorem writeData_splice_across : ∃ lines', writeData acrossLines 1 2 [7, 8, 9] = (lines', none) ∧
    readData lines' 1 2 3 = .ok [7, 8, 9] ∧ Spliced acrossLines lines' 1 2 [7, 8, 9] := by
  have h : (writeData acrossLines 1 2 [7, 8, 9]).2 = none := by decide +kernel
  exact ⟨_, Prod.ext rfl h, writeData_splice (by decide) (by decide) (by decide) (Prod.ext rfl h)⟩

end IntelHex
end Firmware
