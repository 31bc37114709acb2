import Firmware.Proofs.Image.Linking
import Firmware.Proofs.Image.ProgramBytes

/-!
# Programs and the rest of a template

Linking checks the size of a program and nothing about its place. The rows of a program start behind what the
template writes in front of it and meet that only around the end of flash. What the template writes behind it is met
by a program that is large enough, and linking succeeds all the same (`overlaps_of_link`).
-/

namespace Firmware
namespace Image

open IntelHex IntelHex.Entry Template

variable {words : Words} {k : Nat} {w : Write}

/-- Whether a row of a program goes to an address of a write. -/
def Overlaps (x : Template) (commSize : UInt32) (words : Words) (w : Write) : Prop :=
  ∃ a, ((rowJournal (programRows x.codeStart (payload x commSize words))).byteAt? a).isSome ∧
    (w.byteAt? a).isSome

variable {t : Target} {e : Extension} {pre : List Entry} {d : Entry} {post : List Entry} {x : Template}

/-! ## Sizes -/

/-- The padding of a template fills at most half of flash. -/
theorem toNat_codePadding_le (h : Reads t e pre d post x) (hpage : t.pageSize.toNat = 2 ^ k) :
    x.codePadding.toNat ≤ 2 ^ 31 := by
  have hlt := t.pageSize.toNat_lt
  have hle : t.pageSize.toNat ≤ 2 ^ 31 := by
    rw [hpage] at hlt ⊢
    exact Nat.pow_le_pow_right (by decide) (Nat.le_of_lt_succ ((Nat.pow_lt_pow_iff_right (by decide)).1 hlt))
  rw [h.toNat_codePadding hpage]
  exact Nat.le_trans (Nat.sub_le ..) hle

theorem programSize_le (h : sizeEntry words < sizeLimit) : programSize words ≤ 2 ^ 20 := by
  have hlimit : (2 : Nat) ^ 20 = 1048576 := rfl
  unfold sizeEntry sizeLimit at h
  unfold programSize commSlot
  omega

/-! ## Meeting the template -/

theorem overlaps_iff (h : Reads t e pre d post x) {commSize : UInt32}
    (hlen : x.codePadding.toNat + programSize words ≤ 2 ^ 32) (hw : w.data.length < 256) :
    Overlaps x commSize words w ↔ w.data ≠ [] ∧ (x.codeStart.toNat < w.stop ∧
          w.address.toNat < x.codeStart.toNat + (x.codePadding.toNat + programSize words) ∨
        x.codeStart.toNat + 2 ^ 32 < w.stop ∨
        w.address.toNat + 2 ^ 32 < x.codeStart.toNat + (x.codePadding.toNat + programSize words)) := by
  have hsize := length_programWrite h commSize words
  have hpos := programSize_pos words
  have hdata : (programWrite x commSize words).data ≠ [] := by
    rw [← List.length_pos_iff, hsize]
    omega
  have hmeets : Overlaps x commSize words w ↔ (programWrite x commSize words).Meets w := by
    unfold Overlaps Write.Meets
    simp only [byteAt?_programWrite h commSize hlen]
  have hstop : (programWrite x commSize words).stop =
      x.codeStart.toNat + (x.codePadding.toNat + programSize words) := by
    unfold Write.stop
    rw [hsize]
    rfl
  rw [hmeets, Write.meets_iff (by rw [hsize]; exact hlen) (Nat.le_of_lt (Nat.lt_trans hw (by decide))), hstop]
  exact and_iff_right hdata

section

variable (h : Reads t e pre d post x) (hordered : (contents e.hex).Ordered) (hpage : t.pageSize.toNat = 2 ^ k)
  (hsize : sizeEntry words < sizeLimit) (commSize : UInt32)
include h hordered hpage hsize

/-- A program meets what stands in front of it only where it reaches around the end of flash. -/
theorem overlaps_head (hw : w ∈ x.headJournal) : Overlaps x commSize words w ↔
      w.data ≠ [] ∧ w.address.toNat + 2 ^ 32 < programStop x words ∧ programStart x < w.stop + 2 ^ 32 := by
  have hpadding := toNat_codePadding_le h hpage
  have hprogram := programSize_le hsize
  have hhalf : (2 : Nat) ^ 31 = 2147483648 := rfl
  have hlimit : (2 : Nat) ^ 32 = 4294967296 := rfl
  rw [headJournal_eq h] at hw
  have hstart := toNat_codeStart_mod h hordered
  have hle := h.stop_le_of_mem_head hordered hw
  rw [← programStart_eq h hordered] at hle
  -- a program is too short to reach around flash and come back to its own start
  have hlast : programStart x ≤ 2 ^ 32 + 256 + 16 := by
    have hbase := (baseAfter 0 pre + d.address.toUInt32).toNat_lt
    have hdata := d.length_lt
    rw [programStart_eq h hordered, lastWrite, Write.stop]
    dsimp only
    omega
  rw [overlaps_iff h (by omega) (length_of_mem_journal hw), ← List.length_pos_iff]
  unfold programStop
  unfold Write.stop at hle ⊢
  have hbound := w.address.toNat_lt
  have hpos := programSize_pos words
  omega

/-- A program meets what stands behind it where it reaches that far. -/
theorem overlaps_tail (hw : w ∈ x.tailJournal) : Overlaps x commSize words w ↔ w.data ≠ [] ∧
      (w.address.toNat < programStop x words ∧ programStart x < w.stop ∨ programStart x + 2 ^ 32 < w.stop) := by
  have hpadding := toNat_codePadding_le h hpage
  have hprogram := programSize_le hsize
  have hhalf : (2 : Nat) ^ 31 = 2147483648 := rfl
  have hlimit : (2 : Nat) ^ 32 = 4294967296 := rfl
  rw [tailJournal_eq h] at hw
  have hstart := toNat_codeStart_mod h hordered
  have hshort := length_of_mem_journal hw
  have hle := (h.between hordered).2 w hw
  have hrow := programStart_eq h hordered
  rw [overlaps_iff h (by omega) hshort, ← List.length_pos_iff]
  unfold programStop
  unfold Write.stop at hle hrow ⊢
  have hbound := w.address.toNat_lt
  have hpos := programSize_pos words
  omega

end

/-! ## What linking checks -/

/-- Whether record lines can be written does not depend on what has been written before. -/
theorem failure_writeLines (f g : Uf2.BlockFile) (index : Nat) (upper : List Char) (lines : List String) :
    (f.writeLines index upper lines).2 = (g.writeLines index upper lines).2 := by
  induction lines generalizing f g index upper with
  | nil => rfl
  | cons l rest ih =>
    unfold Uf2.BlockFile.writeLines
    dsimp only
    split
    · exact ih ..
    · split
      · rfl
      · split
        · rfl
        · exact ih ..

theorem isOk_writeRecords (f g : Uf2.BlockFile) (lines : List String) :
    (writeRecords f lines).isOk = (writeRecords g lines).isOk := by
  have hsame := failure_writeLines f g 0 ['0', '0', '0', '0'] lines
  unfold writeRecords Uf2.BlockFile.writeHex
  generalize f.writeLines 0 ['0', '0', '0', '0'] lines = r at hsame ⊢
  generalize g.writeLines 0 ['0', '0', '0', '0'] lines = r' at hsame ⊢
  obtain ⟨f', failure⟩ := r
  obtain ⟨g', failure'⟩ := r'
  obtain rfl : failure = failure' := hsame
  cases failure <;> rfl

/-- Where one program links, every other one that is small enough does. -/
theorem exists_link (h : Reads t e pre d post x) (hnative : t.isNative = true) {name : String} {s : BuildState}
    {uf2 : Bool} {image : Image} (hlink : link x name s words false uf2 = .ok image) {other : Words}
    (hother : sizeEntry other < sizeLimit) : ∃ image, link x name s other false uf2 = .ok image := by
  -- the header and the lines of the template are the same for all programs
  obtain ⟨hsize, header, hheader⟩ := of_link hlink
  rw [link_eq h hnative hsize hheader] at hlink
  rw [link_eq h hnative hother hheader]
  cases uf2 with
  | false =>
    obtain ⟨leading, hleading, -⟩ := exists_of_bind_eq_ok hlink
    rw [if_neg Bool.false_ne_true]
    unfold linkRecords
    rw [hleading]
    exact ⟨_, rfl⟩
  | true =>
    obtain ⟨f, hf, hlink⟩ := exists_of_bind_eq_ok hlink
    obtain ⟨g, hg, hlink⟩ := exists_of_bind_eq_ok hlink
    obtain ⟨r, hr, -⟩ := exists_of_bind_eq_ok hlink
    rw [if_pos rfl]
    unfold linkBlocks
    rw [hf]
    show ∃ image, (ObjectHeader.replaceInPages x f >>= _) = _
    rw [hg]
    show ∃ image, (writeRecords _ _ >>= _) = _
    -- the lines behind the program are the same
    obtain ⟨r', hr'⟩ := exists_of_isOk
      ((isOk_writeRecords _ _ (x.lines.drop x.codeStartLine.toNat)).trans (congrArg Except.isOk hr))
    rw [hr']
    exact ⟨_, rfl⟩

/-- **Programs and the rest of a template.** Where linking succeeds, in record lines or in a block file, the rows of
the program start in the row behind the template and meet what the template writes in front of it only where they
reach around the end of flash. They meet what the template writes behind it exactly where they reach it. That is not
checked: linking succeeds for every other program that is small enough. -/
theorem overlaps_of_link {es : List Entry} (hregular : Regular t e es) (hparse : parse t e = .ok x) {name : String}
    {s : BuildState} {words : Words} {uf2 : Bool} {image : Image}
    (hlink : link x name s words false uf2 = .ok image) :
    x.codeStart.toNat = programStart x % 2 ^ 32 ∧ (∀ w ∈ x.headJournal, w.stop ≤ programStart x) ∧
      (∀ w ∈ x.headJournal, Overlaps x s.commSize words w ↔
        w.data ≠ [] ∧ w.address.toNat + 2 ^ 32 < programStop x words ∧ programStart x < w.stop + 2 ^ 32) ∧
      (∀ w ∈ x.tailJournal, Overlaps x s.commSize words w ↔ w.data ≠ [] ∧
        (w.address.toNat < programStop x words ∧ programStart x < w.stop ∨ programStart x + 2 ^ 32 < w.stop)) ∧
      ∀ other : Words, sizeEntry other < sizeLimit → ∃ image, link x name s other false uf2 = .ok image := by
  obtain ⟨pre, d, post, rfl, h⟩ := reads_of_parse hregular.native hregular.hex hparse
  obtain ⟨k, hk⟩ := hregular.page
  have hordered := hregular.ordered
  have hsize := (of_link hlink).1
  refine ⟨toNat_codeStart_mod h hordered, ?_, ?_, ?_, ?_⟩
  · intro w hw
    rw [headJournal_eq h] at hw
    rw [programStart_eq h hordered]
    exact h.stop_le_of_mem_head hordered hw
  · intro w hw
    exact overlaps_head h hordered hk hsize s.commSize hw
  · intro w hw
    exact overlaps_tail h hordered hk hsize s.commSize hw
  · intro other hother
    exact exists_link h hregular.native hlink hother

/-- A file with a record three rows behind the end of its template. -/
def closeFile : List Entry :=
  [ofRow 0x0100 blobMarker, ofRow 0x0140 (List.replicate 16 1), fileEnd]

/-- The smallest program reaches it. -/
theorem exists_link_closeFile : Regular (rowTarget 0x140) (bareExtension closeFile) closeFile ∧
      ∃ (x : Template) (image : Image), parse (rowTarget 0x140) (bareExtension closeFile) = .ok x ∧
        link x "" {} [1] false false = .ok image ∧ x.tailJournal = [⟨0x140, List.replicate 16 1⟩] ∧
        programStart x = 0x110 ∧ programStop x [1] = 0x150 := by
  have hfile : (parse (rowTarget 0x140) (bareExtension closeFile)).toOption.map (fun x =>
        ((link x "" {} [1] false false).isOk, x.tailJournal, programStart x, programStop x [1])) =
        some (true, [⟨0x140, List.replicate 16 1⟩], 0x110, 0x150) ∧
      (journal 0 closeFile).Ordered := by decide +kernel
  obtain ⟨hread, hordered⟩ := hfile
  rw [← contents_map_line] at hordered
  obtain ⟨x, hparse, hread⟩ := exists_of_map_toOption hread
  simp only [Prod.mk.injEq] at hread
  obtain ⟨hok, htail, hstart, hstop⟩ := hread
  obtain ⟨image, himage⟩ := exists_of_isOk hok
  exact ⟨⟨by decide, ⟨4, rfl⟩, by decide, rfl, hordered⟩, x, image, hparse, himage, htail, hstart, hstop⟩

theorem overlaps_of_link_closeFile :
    ∃ (x : Template) (image : Image), parse (rowTarget 0x140) (bareExtension closeFile) = .ok x ∧
      link x "" {} [1] false false = .ok image ∧
      (∀ w ∈ x.headJournal, ¬ Overlaps x 0 [1] w) ∧ ∀ w ∈ x.tailJournal, Overlaps x 0 [1] w := by
  obtain ⟨hregular, x, image, hparse, hlink, htail, hstart, hstop⟩ := exists_link_closeFile
  obtain ⟨-, -, hhead, hrest, -⟩ := overlaps_of_link hregular hparse hlink
  refine ⟨x, image, hparse, hlink, ?_, ?_⟩
  · intro w hw hover
    have haround := ((hhead w hw).1 hover).2.1
    rw [hstop] at haround
    omega
  · intro w hw
    apply (hrest w hw).2
    rw [htail] at hw
    rw [List.mem_singleton.1 hw, hstart, hstop]
    decide

/-- Linking succeeds where the program is written over a part of the template. -/
theorem link_overlapping :
    ∃ (x : Template) (image : Image) (w : Write), Regular (rowTarget 0x140) (bareExtension closeFile) closeFile ∧
      parse (rowTarget 0x140) (bareExtension closeFile) = .ok x ∧
      link x "" {} [1] false false = .ok image ∧ w ∈ x.tailJournal ∧ Overlaps x 0 [1] w := by
  obtain ⟨hregular, x, image, hparse, hlink, htail, hstart, hstop⟩ := exists_link_closeFile
  obtain ⟨pre, d, post, -, h⟩ := reads_of_parse hregular.native hregular.hex hparse
  have hmem : ⟨0x140, List.replicate 16 1⟩ ∈ x.tailJournal := by
    rw [htail]
    exact List.mem_singleton.2 rfl
  refine ⟨x, image, _, hregular, hparse, hlink, hmem, ?_⟩
  rw [overlaps_tail h hregular.ordered (rfl : _ = 2 ^ 4) (by decide) 0 hmem, hstart, hstop]
  decide

end Image
end Firmware
