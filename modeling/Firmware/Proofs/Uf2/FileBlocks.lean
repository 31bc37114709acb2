import Firmware.Proofs.Uf2.Gaps

/-!
# Blocks that hold part of a file

Every block of a file with a name carries the name and the size of the file (`mem_parse_named`). The area for the name
adjoins the magic word at the end of the block, and a name is read up to the first zero byte. So a name that fills the
area runs on into the magic word: it reads back exactly if it is shorter than the area (`takeWhile_nameArea`).
-/

open List

namespace Firmware

open Uf2 BlockFile

namespace Uf2

/-- The number of bytes for the name of a file in a block. -/
def nameRoom : Nat := blockSize - 4 - (payloadOffset + payloadSize)

namespace BlockFile

variable {f : BlockFile} {fileName : Bytes}

/-! ## The size of a file -/

theorem toNat_fileSize_writePage (f : BlockFile) {w : Write} (h : w.stop < 2 ^ 32) (flags : UInt32) :
    (f.writePage w.address w.data flags).fileSize.toNat = max f.fileSize.toNat w.stop := by
  have hstop : (w.data.length.toUInt32 + w.address).toNat = w.stop := by
    unfold Write.stop at h ⊢
    rw [UInt32.toNat_add, UInt32.toNat_ofNat_of_lt' (by show _ < 4294967296; omega)]
    omega
  show (if f.fileSize ≤ w.data.length.toUInt32 + w.address then w.data.length.toUInt32 + w.address
    else f.fileSize).toNat = _
  simp only [apply_ite UInt32.toNat, UInt32.le_iff_toNat_le, hstop]
  rfl

/-- The largest end of a write is the size of the file. -/
theorem toNat_fileSize_write (f : BlockFile) (w : Write) (h : w.stop < 2 ^ 32) (flags : UInt32) :
    (f.write w.address w.data flags).fileSize.toNat = max f.fileSize.toNat w.stop := by
  have hoff := pageOffset_lt w.address
  rw [write_eq, pieces_eq]
  split
  next => exact toNat_fileSize_writePage f h flags
  next hcut =>
    -- the first piece ends in front of the others, and these end where the write does
    let n := payloadSize - pageOffset w.address
    have hrest := w.stop_drop (n := n) (by omega) (Nat.le_of_lt h)
    have hle : Write.stop ⟨w.address, w.data.take n⟩ ≤ w.stop := Nat.add_le_add_left (length_take_le' ..) _
    have hfirst := f.toNat_fileSize_writePage (w := ⟨w.address, w.data.take n⟩) (by omega) flags
    have ih := toNat_fileSize_write (f.writePage w.address (w.data.take n) flags)
      ⟨w.address + n.toUInt32, w.data.drop n⟩ (by rw [hrest]; exact h) flags
    rw [foldl_cons, ← write_eq, ih, hfirst, hrest]
    omega
termination_by w.data.length
decreasing_by simp only [length_drop]; omega

theorem toNat_fileSize_writeFlagged (f : BlockFile) {ws : List FlaggedWrite} (hfit : ∀ w ∈ ws, w.stop < 2 ^ 32) :
    (f.writeFlagged ws).fileSize.toNat = max f.fileSize.toNat (journalOf ws).stop := by
  induction ws generalizing f with
  | nil => exact (Nat.max_zero _).symm
  | cons w rest ih =>
    obtain ⟨hw, hrest⟩ := forall_mem_cons.1 hfit
    have hstep := ih (f.write w.address w.data w.flags) hrest
    rw [toNat_fileSize_write f w.toWrite hw, Nat.max_assoc] at hstep
    exact hstep

/-! ## The name of a file -/

/-- Whether a file has a name and all its pages are marked with it. -/
structure Carries (f : BlockFile) (fileName : Bytes) : Prop where
  fileName_eq : f.fileName = fileName
  page : ∀ p ∈ f.pages, p.flags &&& flagFile ≠ 0 ∧ p.fileName = fileName.take nameRoom

theorem Carries.writePages (h : f.Carries fileName) (hname : fileName ≠ []) (cs : List FlaggedWrite) :
    (f.writePages cs).Carries fileName := by
  induction cs generalizing f with
  | nil => exact h
  | cons c rest ih =>
    refine ih ⟨h.fileName_eq, ?_⟩
    rw [pages_writePage f c.toWrite]
    refine forall_updatePage (forall_withPage h.page fun _ => ?_) fun p hp => hp
    have hnew : (!f.fileName.isEmpty) = true := by simpa [h.fileName_eq] using hname
    unfold newPage
    rw [if_pos hnew, h.fileName_eq]
    exact ⟨or_flag_ne_zero (by decide) c.flags, rfl⟩

theorem carries_named (family : UInt32) (hname : fileName ≠ []) (ws : List FlaggedWrite) :
    ((named family fileName).writeFlagged ws).Carries fileName := by
  rw [writeFlagged_eq]
  exact Carries.writePages ⟨rfl, fun _ hp => absurd hp not_mem_nil⟩ hname _

end BlockFile

/-- What is read from the area for the name and the magic word behind it. -/
theorem takeWhile_nameArea {fileName : Bytes} (hzero : 0 ∉ fileName) :
    (Bytes.resize (fileName.take nameRoom) nameRoom 0 ++ Bytes.ofWord32 magicEnd).takeWhile (· != 0) =
      fileName.take nameRoom ++ if fileName.length < nameRoom then [] else Bytes.ofWord32 magicEnd := by
  have hall : ∀ x ∈ fileName.take nameRoom, (x != 0) = true := by
    intro x hx
    rw [bne_iff_ne]
    rintro rfl
    exact hzero (mem_of_mem_take hx)
  unfold Bytes.resize
  rw [take_take, Nat.min_self, append_assoc, takeWhile_append_of_pos hall, length_take]
  by_cases hshort : fileName.length < nameRoom
  · obtain ⟨k, hk⟩ : ∃ k, nameRoom - min nameRoom fileName.length = k + 1 := ⟨nameRoom - fileName.length - 1, by omega⟩
    rw [hk, if_pos hshort]
    rfl
  · -- no byte of the magic word is zero
    rw [if_neg hshort, Nat.min_eq_left (by omega), Nat.sub_self]
    rfl

section Named

variable {fileName : Bytes} (hname : fileName ≠ []) (hzero : 0 ∉ fileName) {ws : List FlaggedWrite}
  (hfit : ∀ w ∈ ws, w.stop < 2 ^ 32)

include hname hzero hfit

theorem of_mem_parse_named (family : UInt32) {b : Block}
    (hb : b ∈ parse ((named family fileName).writeFlagged ws).serialize) :
    b.flags &&& flagFile ≠ 0 ∧ b.fileSize.toNat = (journalOf ws).stop ∧
      b.fileName = fileName.take nameRoom ++ if fileName.length < nameRoom then [] else Bytes.ofWord32 magicEnd := by
  have hsound := ((records_named family fileName).writeFlagged fun w hw => Nat.le_of_lt (hfit w hw)).sound
  have hsize := ((named family fileName).toNat_fileSize_writeFlagged hfit).trans (Nat.zero_max _)
  obtain ⟨hfileName, hpage⟩ := carries_named family hname ws
  rw [parse_serialize hsound] at hb
  generalize (named family fileName).writeFlagged ws = f at hb hsize hfileName hpage
  have hfinal : f.finalPages = f.pages.map fun p => { p with word := f.fileSize } := by
    unfold finalPages
    rw [if_neg (by simpa [hfileName] using hname)]
  obtain ⟨i, hi, rfl⟩ := mem_mapIdx.1 hb
  have hmem := getElem_mem hi
  generalize f.finalPages[i] = q at hmem
  rw [hfinal] at hmem
  obtain ⟨p, hp, rfl⟩ := mem_map.1 hmem
  obtain ⟨hflags, hpname⟩ := hpage p hp
  refine ⟨hflags, ?_, ?_⟩
  · simpa [blockOf, hflags] using hsize
  · rw [← takeWhile_nameArea hzero, ← hpname]
    simp [blockOf, hflags, nameRoom]

/-- **File blocks.** After writes that end below the end of flash, every block of a file with a name has the file flag
and the largest end of a write for the size of the file. The name in it is that of the file up to the size of its area,
and the end of the block follows where the name fills the area. So the name is right exactly if it is shorter. -/
theorem mem_parse_named (family : UInt32) {b : Block}
    (hb : b ∈ parse ((named family fileName).writeFlagged ws).serialize) :
    b.flags &&& flagFile ≠ 0 ∧ b.fileSize.toNat = (journalOf ws).stop ∧
      b.fileName = fileName.take 220 ++ (if fileName.length < 220 then [] else Bytes.ofWord32 magicEnd) ∧
      (b.fileName = fileName.take 220 ↔ fileName.length < 220) := by
  obtain ⟨hflags, hsize, hread⟩ := of_mem_parse_named hname hzero hfit family hb
  refine ⟨hflags, hsize, hread, ?_⟩
  show b.fileName = fileName.take nameRoom ↔ fileName.length < nameRoom
  rw [hread, List.append_right_eq_self]
  simp [Bytes.ofWord32]

end Named

/-- Every page that writes need has a block. -/
theorem exists_mem_parse_named {ws : List FlaggedWrite} (hfit : ∀ w ∈ ws, w.stop ≤ 2 ^ 32) (family : UInt32)
    (fileName : Bytes) {a : UInt32} (ha : pageOf a ∈ touchedPages ws) :
    ∃ b, b ∈ parse ((named family fileName).writeFlagged ws).serialize := by
  have hsound := ((records_named family fileName).writeFlagged hfit).sound
  obtain ⟨p, hp, -⟩ := mem_map.1 ((mem_pageNumbers_named hfit family fileName a).2 ha)
  obtain ⟨b, hb, -⟩ := exists_mem_parse_of_page hsound hp
  exact ⟨b, hb⟩

/-- A name of three bytes. -/
theorem mem_parse_named_short :
    ∃ b ∈ parse ((named 0 [0x61, 0x2E, 0x62]).writeFlagged spacedWrites).serialize,
      b.flags &&& flagFile ≠ 0 ∧ b.fileSize.toNat = 0x401 ∧ b.fileName = [0x61, 0x2E, 0x62] := by
  obtain ⟨b, hb⟩ := exists_mem_parse_named (by decide : ∀ w ∈ spacedWrites, w.stop ≤ 2 ^ 32) 0 [0x61, 0x2E, 0x62]
    (by decide : pageOf 0x400 ∈ touchedPages spacedWrites)
  obtain ⟨hflags, hsize, hname, -⟩ := mem_parse_named (by decide) (by decide)
    (by decide : ∀ w ∈ spacedWrites, w.stop < 2 ^ 32) 0 hb
  exact ⟨b, hb, hflags, hsize, hname⟩

/-- A name that fills its area. -/
def fullName : Bytes := List.replicate 220 0x61

/-- It is read with four bytes too many. -/
theorem fileName_full :
    ∃ b ∈ parse ((named 0 fullName).writeFlagged spacedWrites).serialize, b.fileName ≠ fullName.take 220 := by
  obtain ⟨b, hb⟩ := exists_mem_parse_named (by decide : ∀ w ∈ spacedWrites, w.stop ≤ 2 ^ 32) 0 fullName
    (by decide : pageOf 0x400 ∈ touchedPages spacedWrites)
  obtain ⟨-, -, hname⟩ := of_mem_parse_named (by decide) (by decide)
    (by decide : ∀ w ∈ spacedWrites, w.stop < 2 ^ 32) 0 hb
  refine ⟨b, hb, ?_⟩
  show b.fileName ≠ fullName.take nameRoom
  rw [hname, Ne, List.append_right_eq_self, fullName, List.length_replicate]
  decide

end Uf2
end Firmware
