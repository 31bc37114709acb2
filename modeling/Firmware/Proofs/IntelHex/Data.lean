import Firmware.Proofs.Image.LostPlaces

/-!
# Lines as one row of bytes

The data of lines is one row of bytes to those who read and write across lines: what is read is a part of that row
(`readData_eq`), and what is written goes over a part of it (`dataOf_writeData`). Lines that are no data records have no
part in it, and an offset that lies behind the data of the first line counts as the end of that data (`placeOf`).
-/

open List

namespace Firmware
namespace Bytes

/-- Bytes that go over the end of a first part are written in two pieces. -/
theorem overwrite_append_rest (first rest : Bytes) (off : Nat) (src : Bytes) :
    overwrite (first ++ rest) (min off first.length) src =
      overwrite first off src ++ overwrite rest 0 (src.drop (first.length - off)) := by
  unfold overwrite
  rw [length_append, length_drop, take_zero, nil_append, Nat.zero_add, Nat.sub_zero]
  by_cases hoff : off ≤ first.length
  · rw [Nat.min_eq_left hoff, take_append_of_le_length hoff,
      show first.length + rest.length - off = first.length - off + rest.length by omega, take_add,
      drop_append,
      show off + src.length - first.length = src.length - (first.length - off) by omega]
    -- the bytes end in the first part, or nothing is left of that part behind them
    by_cases hfits : src.length ≤ first.length - off
    · rw [drop_eq_nil_of_le hfits]
      simp
    · rw [drop_eq_nil_of_le (by omega : first.length ≤ off + src.length)]
      simp
  · rw [Nat.min_eq_right (by omega), take_left, show first.length - off = 0 by omega,
      Nat.add_sub_cancel_left, drop_append, drop_eq_nil_of_le (Nat.le_add_right ..), Nat.add_sub_cancel_left,
      take_of_length_le (by omega : first.length ≤ off),
      drop_eq_nil_of_le (by omega : first.length ≤ off + src.length)]
    simp

end Bytes

namespace IntelHex

/-- The data of lines. -/
def dataOf (lines : List String) : Bytes := lines.flatMap lineData

/-- The place in the data of lines of an offset in the data of the first one. -/
def placeOf (off : Nat) : List String → Nat
  | [] => 0
  | line :: _ => min off (lineData line).length

variable {off : Nat} {line : String} {rest lines lines' : List String}

@[simp] theorem dataOf_nil : dataOf [] = [] := rfl

theorem dataOf_cons (line : String) (rest : List String) : dataOf (line :: rest) = lineData line ++ dataOf rest :=
  flatMap_cons

theorem dataOf_append (lines rest : List String) : dataOf (lines ++ rest) = dataOf lines ++ dataOf rest := flatMap_append

theorem placeOf_zero (lines : List String) : placeOf 0 lines = 0 := by
  cases lines with
  | nil => rfl
  | cons line rest => exact Nat.zero_min _

theorem drop_placeOf (off : Nat) (line : String) (rest : List String) :
    (dataOf (line :: rest)).drop (placeOf off (line :: rest)) = (lineData line).drop off ++ dataOf rest := by
  rw [dataOf_cons, placeOf]
  by_cases hoff : off ≤ (lineData line).length
  · rw [Nat.min_eq_left hoff, drop_append_of_le_length hoff]
  · rw [Nat.min_eq_right (by omega), drop_left, drop_eq_nil_of_le (by omega), nil_append]

/-! ## Reading -/

theorem take_of_collect (hoff : off < 2 ^ 63 - 4) {n : Nat} {out res : Bytes} (h : collect n off out lines = .ok res) :
    res.take n = (out ++ (dataOf lines).drop (placeOf off lines)).take n := by
  induction lines generalizing off out with
  | nil =>
    obtain rfl := Except.ok.inj h
    rw [dataOf_nil, drop_nil, append_nil]
  | cons line rest ih =>
    by_cases hfull : n ≤ out.length
    · rw [collect, if_pos hfull] at h
      obtain rfl := Except.ok.inj h
      rw [take_append_of_le_length hfull]
    · rw [collect_cons fun _ _ _ => hoff, if_neg hfull] at h
      obtain ⟨b, -, h⟩ := exists_of_bind_eq_ok h
      rw [ih (by decide : 0 < 2 ^ 63 - 4) h, placeOf_zero, drop_zero, drop_placeOf, append_assoc]

/-- What is read is a part of the data of the lines. -/
theorem readData_eq (hoff : off < 2 ^ 63 - 4) {n : Nat} (hn : 0 < n) {b : Bytes} (h : readData lines 0 off n = .ok b) :
    b = ((dataOf lines).drop (placeOf off lines)).take n := by
  unfold readData at h
  rw [if_neg (by omega), if_neg (by simp; omega), if_neg (by decide)] at h
  obtain ⟨out, hcollect, h⟩ := exists_of_bind_eq_ok h
  obtain rfl := Except.ok.inj h
  exact take_of_collect hoff hcollect

theorem exists_collect (hoff : off < 2 ^ 63 - 4) (hread : ∀ line ∈ lines, ∃ b, bytes line = .ok b) (n : Nat) (out : Bytes) :
    ∃ res, collect n off out lines = .ok res := by
  induction lines generalizing off out with
  | nil => exact ⟨out, rfl⟩
  | cons line rest ih =>
    rw [collect_cons fun _ _ _ => hoff]
    split
    · exact ⟨out, rfl⟩
    · obtain ⟨b, hbytes⟩ := hread line (mem_cons_self ..)
      rw [hbytes]
      exact ih (by decide : 0 < 2 ^ 63 - 4) (fun l hl => hread l (mem_cons_of_mem line hl)) _

/-! ## Writing -/

/-- What is written to a line goes over its data, as far as that reaches. -/
theorem lineData_render {b : Bytes} (hbytes : bytes line = .ok b) (hdata : holdsData b = true) (off : Nat)
    (patch : Bytes) :
    lineData (render (Bytes.overwrite b.dropLast (4 + off) patch)) = (lineData line).overwrite off patch := by
  have hlong := length_of_holdsData hdata
  have hlength : (Bytes.overwrite b.dropLast (4 + off) patch).length + 1 = b.length := by
    rw [length_overwrite_any, length_dropLast]
    omega
  have hsplit : Bytes.overwrite b.dropLast (4 + off) patch =
      b.dropLast.take 4 ++ Bytes.overwrite (b.dropLast.drop 4) off patch := by
    unfold Bytes.overwrite
    rw [take_add, length_drop, drop_drop, Nat.add_assoc, Nat.sub_add_eq]
    simp only [append_assoc]
  have hfour : (b.dropLast.take 4).length = 4 := by
    rw [length_take, length_dropLast]
    omega
  have hhead : (Bytes.overwrite b.dropLast (4 + off) patch).take 4 = b.take 4 := by
    rw [hsplit, take_append_of_le_length (by omega), take_take, dropLast_eq_take, take_take]
    congr 1
    omega
  rw [lineData_of_bytes (bytes_render _), if_pos (Rewritten.holdsData_append hdata hlength hhead _),
    dropLast_concat, lineData_of_bytes hbytes, if_pos hdata, hsplit, drop_left' hfour]

/-- How bytes are written over the data of lines from an offset of the first one on. -/
inductive Writes : Nat → Bytes → List String → List String → Prop
  | done (off : Nat) (lines : List String) : Writes off [] lines lines
  /-- A line without data is passed over. -/
  | skip {off : Nat} {patch : Bytes} {line : String} {rest rest' : List String} {b : Bytes} (hne : patch ≠ [])
      (hbytes : bytes line = .ok b) (hdata : holdsData b = false) (h : Writes 0 patch rest rest') :
      Writes off patch (line :: rest) (line :: rest')
  /-- A data record takes what fits, and the lines that follow take the rest. -/
  | fill {off : Nat} {patch : Bytes} {line : String} {rest rest' : List String} {b : Bytes} (hne : patch ≠ [])
      (hbytes : bytes line = .ok b) (hdata : holdsData b = true) (hoff : off < 2 ^ 63 - 4)
      (h : Writes 0 (patch.drop ((lineData line).length - off)) rest rest') :
      Writes off patch (line :: rest) (render (Bytes.overwrite b.dropLast (4 + off) patch) :: rest')

theorem writes_of_overwrite (hoff : off < 2 ^ 63) {patch : Bytes} (h : overwrite off patch lines = (lines', none)) :
    Writes off patch lines lines' := by
  -- on the lines; only the first of them is entered at an offset, the others from their start on
  induction lines generalizing off patch lines' with
  | nil =>
    cases patch with
    | nil =>
      obtain rfl := (Prod.mk.inj h).1
      exact .done off []
    | cons x patch => cases (Prod.mk.inj h).2
  | cons line rest ih =>
    by_cases hne : patch = []
    · rw [hne, overwrite_nil] at h
      obtain rfl := (Prod.mk.inj h).1
      rw [hne]
      exact .done off _
    obtain ⟨f, -, heq⟩ | ⟨b, hbytes, hdata, heq⟩ | ⟨b, hbytes, hdata, hsmall, heq⟩ := overwrite_cons hoff hne line rest
    · cases (Prod.mk.inj (heq.symm.trans h)).2
    · obtain ⟨rfl, hnone⟩ := Prod.mk.inj (heq.symm.trans h)
      exact .skip hne hbytes hdata (ih (by decide : 0 < 2 ^ 63) (Prod.ext rfl hnone))
    · obtain ⟨rfl, hnone⟩ := Prod.mk.inj (heq.symm.trans h)
      refine .fill hne hbytes hdata hsmall (ih (by decide : 0 < 2 ^ 63) ?_)
      rw [length_lineData hbytes hdata, Nat.sub_sub _ 4]
      exact Prod.ext rfl hnone

/-- What is written goes over a part of the data of the lines. -/
theorem Writes.dataOf_eq {patch : Bytes} (h : Writes off patch lines lines') :
    dataOf lines' = (dataOf lines).overwrite (placeOf off lines) patch ∧
      placeOf off lines + patch.length ≤ (dataOf lines).length := by
  induction h with
  | done off lines =>
    refine ⟨by unfold Bytes.overwrite; simp, ?_⟩
    cases lines with
    | nil => exact Nat.le_refl _
    | cons line rest =>
      rw [dataOf_cons, length_append]
      exact Nat.le_trans (Nat.min_le_right ..) (Nat.le_add_right ..)
  | skip hne hbytes hdata _ ih =>
    rw [placeOf_zero] at ih
    rw [dataOf_cons, dataOf_cons, placeOf, lineData_eq_nil hbytes hdata, nil_append, nil_append, length_nil, Nat.min_zero]
    exact ih
  | @fill off patch line rest rest' b hne hbytes hdata hoff _ ih =>
    rw [placeOf_zero, length_drop] at ih
    rw [dataOf_cons, dataOf_cons, placeOf, Bytes.overwrite_append_rest, lineData_render hbytes hdata, length_append]
    exact ⟨congrArg (Bytes.overwrite (lineData line) off patch ++ ·) ih.1, by omega⟩

theorem dataOf_writeData (hoff : off < 2 ^ 63 - 4) {patch : Bytes} (hpatch : patch ≠ [])
    (h : writeData lines 0 off patch = (lines', none)) :
    dataOf lines' = (dataOf lines).overwrite (placeOf off lines) patch ∧
      placeOf off lines + patch.length ≤ (dataOf lines).length := by
  rw [writeData_zero lines off hpatch] at h
  exact (writes_of_overwrite (by omega) h).dataOf_eq

end IntelHex
end Firmware
