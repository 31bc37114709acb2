import Firmware.Proofs.Image.ProgramRows
import Firmware.Proofs.Template.Preservation

/-!
# The bytes of a program and their place

A program starts at the first row behind the template. Zeros lead up to the page that it is linked at, and its words
follow, with its size and the size of the comm section in their slots (`byteAt?_programRows`). Where it ends is
counted from the end of what the template writes in front of it, without wrapping around.
-/

open List

namespace Firmware

namespace Template

open IntelHex

/-- What a template writes in front of the program. -/
def headJournal (x : Template) : Journal := contents (x.lines.take x.codeStartLine.toNat)

/-- What a template writes behind the program. -/
def tailJournal (x : Template) : Journal := (contents x.lines).drop x.headJournal.length

end Template

namespace Image

open IntelHex IntelHex.Entry Template

/-! ## The bytes -/

/-- A word of a program, with its size and the size of the comm section in their slots. -/
def programWord (commSize : UInt32) (words : Words) (i : Nat) : UInt16 :=
  if i = sizeSlot then (sizeEntry words).toUInt16
  else if i = commSlot then commSize.toUInt16
  else words.getD i 0

/-- A byte of a program, whose words are stored low byte first. -/
def programByte (commSize : UInt32) (words : Words) (i : Nat) : UInt8 :=
  if i % 2 = 0 then (programWord commSize words (i / 2)).toUInt8
  else (programWord commSize words (i / 2) >>> 8).toUInt8

/-- The size of a program in flash: its words with the slots, in whole rows. -/
def programSize (words : Words) : Nat := (max words.length (commSlot + 1) * 2 + 15) / 16 * 16

/-- The words of a program with its slots filled. -/
theorem getElem?_slots (commSize : UInt32) (words : Words) (i : Nat) :
    (((words ++ List.replicate (commSlot + 1 - words.length) 0).set sizeSlot
      (sizeEntry words).toUInt16).set commSlot commSize.toUInt16)[i]? =
      if i < max words.length (commSlot + 1) then some (programWord commSize words i) else none := by
  have hlen : (words ++ List.replicate (commSlot + 1 - words.length) 0).length = max words.length (commSlot + 1) := by
    rw [length_append, length_replicate]
    omega
  have hslots : sizeSlot < commSlot := by decide
  unfold programWord
  rw [getElem?_set, getElem?_set, length_set, hlen]
  -- the slot that is filled last comes first
  by_cases hcomm : commSlot = i
  · subst hcomm
    rw [if_pos rfl, if_pos (by omega), if_pos (by omega), if_neg (by omega), if_pos rfl]
  by_cases hsize : sizeSlot = i
  · subst hsize
    rw [if_neg hcomm, if_pos rfl, if_pos (by omega), if_pos (by omega), if_pos rfl]
  rw [if_neg hcomm, if_neg hsize, if_neg (Ne.symm hsize), if_neg (Ne.symm hcomm), getD_eq_getElem?_getD]
  by_cases hi : i < words.length
  · rw [getElem?_append_left hi, if_pos (by omega), getElem?_eq_getElem hi, Option.getD_some]
  · rw [getElem?_append_right (by omega), getElem?_replicate,
      getElem?_eq_none (by omega : words.length ≤ i), Option.getD_none]
    by_cases hin : i < max words.length (commSlot + 1)
    · rw [if_pos (by omega), if_pos hin]
    · rw [if_neg (by omega), if_neg hin]

theorem length_payload (x : Template) (commSize : UInt32) (words : Words) :
    (payload x commSize words).length = x.codePadding.toNat / 2 + max words.length (commSlot + 1) := by
  unfold payload
  dsimp only
  rw [length_append, length_replicate, length_set, length_set, length_append, length_replicate]
  omega

theorem programRows_ne_nil (x : Template) (commSize : UInt32) (words : Words) :
    programRows x.codeStart (payload x commSize words) ≠ [] := by
  rw [← length_pos_iff, programRows_eq, length_byteRows, Words.length_toBytes, length_payload]
  omega

/-- The padding of a template and the words of a program, in whole rows. -/
theorem getElem?_payload {x : Template} (hpadding : x.codePadding.toNat % 16 = 0) (commSize : UInt32)
    (words : Words) (i : Nat) :
    (wholeRows (payload x commSize words).toBytes)[i]? = if i < x.codePadding.toNat then some 0
      else if i < x.codePadding.toNat + programSize words then
        some (programByte commSize words (i - x.codePadding.toNat))
      else none := by
  have hlen : (payload x commSize words).toBytes.length =
      x.codePadding.toNat + 2 * max words.length (commSlot + 1) := by
    rw [Words.length_toBytes, length_payload]
    omega
  have hsize : programSize words = (2 * max words.length (commSlot + 1) + 15) / 16 * 16 := by
    unfold programSize
    rw [Nat.mul_comm (max _ _)]
  unfold wholeRows
  rw [hlen]
  by_cases hin : i < x.codePadding.toNat + 2 * max words.length (commSlot + 1)
  · -- padding and program are whole words, so a byte belongs to one of them
    rw [getElem?_append_left (by omega), Words.getElem?_toBytes]
    unfold payload
    dsimp only
    by_cases hpad : i < x.codePadding.toNat
    · rw [if_pos hpad, getElem?_append_left (by rw [length_replicate]; omega), getElem?_replicate, if_pos (by omega)]
      simp
    · rw [if_neg hpad, if_pos (by omega), getElem?_append_right (by rw [length_replicate]; omega),
        length_replicate, getElem?_slots, if_pos (by omega), Option.map_some]
      unfold programByte
      rw [show (i - x.codePadding.toNat) / 2 = i / 2 - x.codePadding.toNat / 2 by omega,
        show (i - x.codePadding.toNat) % 2 = i % 2 by omega]
  · -- behind the words there are zeros, as the program has no words there
    have hnoslot : programWord commSize words ((i - x.codePadding.toNat) / 2) = 0 := by
      have hslot : commSlot = 20 := rfl
      have hslot' : sizeSlot = 17 := rfl
      unfold programWord
      rw [if_neg (by omega), if_neg (by omega), getD_eq_getElem?_getD, getElem?_eq_none (by omega)]
      rfl
    have hnopad : ¬ i < x.codePadding.toNat := by omega
    rw [getElem?_append_right (by omega), getElem?_replicate, hlen, if_neg hnopad]
    unfold programByte
    rw [hnoslot, hsize]
    by_cases hrow : i < x.codePadding.toNat + (2 * max words.length (commSlot + 1) + 15) / 16 * 16
    · rw [if_pos hrow, if_pos (by omega)]
      split <;> rfl
    · rw [if_neg hrow, if_neg (by omega)]

/-! ## The place -/

/-- Where the rows of a program start: the first row behind what the template writes in front of it, counted without
wrapping around. -/
def programStart (x : Template) : Nat := (x.headJournal.stop + 15) / 16 * 16

/-- Where the rows of a program end, counted without wrapping around. -/
def programStop (x : Template) (words : Words) : Nat :=
  programStart x + x.codePadding.toNat + programSize words

/-- The rows of a program as one write. -/
def programWrite (x : Template) (commSize : UInt32) (words : Words) : Write :=
  ⟨x.codeStart, wholeRows (payload x commSize words).toBytes⟩

variable {t : Target} {e : Extension} {pre : List Entry} {d : Entry} {post : List Entry} {x : Template}

theorem headJournal_eq (h : Reads t e pre d post x) : x.headJournal = journal 0 (headOf pre d) := by
  unfold headJournal
  rw [h.take_lines, contents_map_line]

theorem tailJournal_eq (h : Reads t e pre d post x) : x.tailJournal = journal (baseAfter 0 pre) post := by
  unfold tailJournal
  rw [headJournal_eq h, h.contents_lines, drop_left]

/-- What stands in front of the program ends in the row in which the last record of the template ends. -/
theorem programStart_eq (h : Reads t e pre d post x) (hordered : (contents e.hex).Ordered) :
    programStart x = ((lastWrite pre d).stop + 15) / 16 * 16 := by
  have hle : x.headJournal.stop ≤ ((lastWrite pre d).stop + 15) / 16 * 16 := by
    rw [Journal.stop_le_iff, headJournal_eq h]
    exact fun w hw => h.stop_le_of_mem_head hordered hw
  have hge : (lastWrite pre d).stop ≤ x.headJournal.stop := by
    obtain ⟨w, hw, hstop⟩ := exists_stop_lastRow (stopOf pre d) h.ends.data h.base_mod
    rw [h.stop_lastWrite]
    refine Nat.le_trans hstop (Journal.stop_le_iff.1 (Nat.le_refl _) w ?_)
    rw [headJournal_eq h, h.journal_headOf]
    exact mem_append_right _ hw
  unfold programStart
  omega

theorem programSize_pos (words : Words) : 0 < programSize words := by
  unfold programSize commSlot
  omega

section

variable (h : Reads t e pre d post x)
include h

theorem toNat_codeStart_mod (hordered : (contents e.hex).Ordered) : x.codeStart.toNat = programStart x % 2 ^ 32 := by
  rw [h.toNat_codeStart, programStart_eq h hordered]

/-- A program that does not wrap around starts where the template ends, and the page that it is linked at lies
behind its padding. -/
theorem toNat_codeStart (hordered : (contents e.hex).Ordered) {words : Words} (hstop : programStop x words ≤ 2 ^ 32) :
    x.codeStart.toNat = programStart x ∧ x.codeStartPadded.toNat = x.codeStart.toNat + x.codePadding.toNat := by
  have hpos := programSize_pos words
  have hlimit : (2 : Nat) ^ 32 = 4294967296 := rfl
  unfold programStop at hstop
  have hstart : x.codeStart.toNat = programStart x := by
    rw [toNat_codeStart_mod h hordered]
    omega
  refine ⟨hstart, ?_⟩
  -- the padding is the distance of the two addresses, which does not wrap here
  have hpadded : x.codeStart + x.codePadding = x.codeStartPadded := by
    rw [h.codePadding, UInt32.add_comm, UInt32.sub_add_cancel]
  rw [← hpadded, UInt32.toNat_add]
  omega

/-- What stands in front of a program ends where it starts. -/
theorem stop_le_codeStart (hordered : (contents e.hex).Ordered) {words : Words}
    (hstop : programStop x words ≤ 2 ^ 32) {w : Write} (hw : w ∈ journal 0 (headOf pre d)) :
    w.stop ≤ x.codeStart.toNat := by
  rw [(toNat_codeStart h hordered hstop).1, programStart_eq h hordered]
  exact h.stop_le_of_mem_head hordered hw

theorem length_programWrite (commSize : UInt32) (words : Words) :
    (programWrite x commSize words).data.length = x.codePadding.toNat + programSize words := by
  have hmod := h.codePadding_mod
  unfold programWrite
  rw [length_wholeRows, Words.length_toBytes, length_payload]
  unfold programSize
  omega

/-- The rows of a program lie one behind the other. -/
theorem byteAt?_programWrite (commSize : UInt32) {words : Words}
    (hlen : x.codePadding.toNat + programSize words ≤ 2 ^ 32) (a : UInt32) :
    (rowJournal (programRows x.codeStart (payload x commSize words))).byteAt? a =
      (programWrite x commSize words).byteAt? a := by
  rw [programRows_eq]
  apply byteAt?_rowJournal
  rw [← length_programWrite h commSize words] at hlen
  unfold programWrite at hlen
  rw [length_wholeRows] at hlen
  omega

/-- **The program in flash.** -/
theorem byteAt?_programRows (hordered : (contents e.hex).Ordered) {words : Words}
    (hstop : programStop x words ≤ 2 ^ 32) (commSize : UInt32) (a : UInt32) :
    (rowJournal (programRows x.codeStart (payload x commSize words))).byteAt? a =
      if x.codeStart.toNat ≤ a.toNat ∧ a.toNat < x.codeStartPadded.toNat then some 0
      else if x.codeStartPadded.toNat ≤ a.toNat ∧ a.toNat < programStop x words then
        some (programByte commSize words (a.toNat - x.codeStartPadded.toNat)) else none := by
  obtain ⟨hstart, hpadded⟩ := toNat_codeStart h hordered hstop
  have hend : programStop x words = x.codeStart.toNat + x.codePadding.toNat + programSize words := by
    rw [hstart]
    rfl
  have hlen := length_programWrite h commSize words
  have hwrite : (programWrite x commSize words).stop ≤ 2 ^ 32 := by
    show x.codeStart.toNat + (programWrite x commSize words).data.length ≤ 2 ^ 32
    rw [hlen]
    omega
  rw [byteAt?_programWrite h commSize (by omega), Write.byteAt?_eq hwrite]
  unfold programWrite
  dsimp only
  by_cases hle : x.codeStart.toNat ≤ a.toNat
  · rw [if_pos hle, getElem?_payload h.codePadding_mod]
    by_cases hpad : a.toNat < x.codeStartPadded.toNat
    · rw [if_pos (by omega), if_pos ⟨hle, hpad⟩]
    · have houtside : ¬ (x.codeStart.toNat ≤ a.toNat ∧ a.toNat < x.codeStartPadded.toNat) := fun hand => hpad hand.2
      rw [if_neg (by omega), if_neg houtside]
      by_cases hin : a.toNat < programStop x words
      · rw [if_pos (by omega), if_pos (by omega), hpadded, Nat.sub_sub]
      · rw [if_neg (by omega), if_neg (fun hand => hin hand.2)]
  · rw [if_neg hle, if_neg (fun hand => hle hand.1), if_neg (by omega)]

end

end Image
end Firmware
