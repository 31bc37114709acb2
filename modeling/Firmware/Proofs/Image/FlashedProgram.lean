import Firmware.Proofs.Image.FrontLines
import Firmware.Proofs.Image.Linking
import Firmware.Proofs.ObjectHeader.Runs
import Firmware.Proofs.Uf2.LineWrites
import Firmware.Proofs.Uf2.Serialized

/-!
# The program in an image

A program that is linked into record lines or a block file is not the one that the assembler made: the size of the
program and that of the comm section are in their slots (`flashed`). For templates whose lines are of any form, this
module says when an image holds it at the page that it was linked at (`holds_of_link`). In record lines no line in front
of the program may end the file, as the checksum block would then come between, and the lines in front have to leave the
base of the program in force where it does not set it itself. In both containers nothing that comes behind the program
may go over it (`InPlace`). One byte of it is held as soon as nothing goes over that byte (`holdsAt_of_link`).
-/

namespace Firmware
namespace Image

open IntelHex IntelHex.Entry Template Uf2 Uf2.BlockFile List

variable {x : Template} {s : BuildState} {words : Words} {commSize : UInt32}
variable {i : Nat} {v : UInt8} {image : Image} {t : Target}

/-! ## The program -/

/-- The words of a program as they go to flash: those of the assembler, but for the slots that lie within it. -/
def flashed (commSize : UInt32) (words : Words) : Words := (List.range words.length).map (programWord commSize words)

theorem length_flashed (commSize : UInt32) (words : Words) : (flashed commSize words).length = words.length := by
  rw [flashed, length_map, length_range]

theorem length_toBytes_flashed (commSize : UInt32) (words : Words) :
    (flashed commSize words).toBytes.length = words.toBytes.length := by
  rw [Words.length_toBytes, Words.length_toBytes, length_flashed]

/-- A program that ends in front of its slots is flashed as it is. -/
theorem flashed_of_le (commSize : UInt32) (h : words.length ≤ sizeSlot) : flashed commSize words = words := by
  have hslots : sizeSlot < commSlot := by decide
  refine ext_getElem (length_flashed ..) fun i hi hi' => ?_
  simp only [flashed, getElem_map, getElem_range]
  rw [programWord, if_neg (by omega), if_neg (by omega), getD_eq_getElem?_getD, getElem?_eq_getElem hi']
  rfl

/-- A program that can be linked does not reach around flash. -/
theorem length_toBytes_flashed_le (commSize : UInt32) (hsize : sizeEntry words < sizeLimit) :
    (flashed commSize words).toBytes.length ≤ 2 ^ 32 := by
  unfold sizeEntry sizeLimit at hsize
  rw [length_toBytes_flashed, Words.length_toBytes]
  omega

/-- The words of a program with its slots, which may lie behind it. -/
def slotWords (commSize : UInt32) (words : Words) : Words :=
  ((words ++ List.replicate (commSlot + 1 - words.length) 0).set sizeSlot (sizeEntry words).toUInt16).set commSlot
    commSize.toUInt16

theorem payload_eq (x : Template) (commSize : UInt32) (words : Words) :
    payload x commSize words = List.replicate (x.codePadding.toNat / 2) 0 ++ slotWords commSize words := rfl

theorem length_slotWords (commSize : UInt32) (words : Words) :
    (slotWords commSize words).length = max words.length (commSlot + 1) := by
  rw [slotWords, length_set, length_set, length_append, length_replicate]
  omega

theorem getElem?_slotWords (hi : i < words.length) : (slotWords commSize words)[i]? = (flashed commSize words)[i]? := by
  rw [slotWords, getElem?_slots, if_pos (by omega), flashed, getElem?_map, getElem?_range hi]
  rfl

theorem getElem?_toBytes_slotWords (hi : i < (flashed commSize words).toBytes.length) :
    (slotWords commSize words).toBytes[i]? = (flashed commSize words).toBytes[i]? := by
  rw [Words.length_toBytes, length_flashed] at hi
  rw [Words.getElem?_toBytes, Words.getElem?_toBytes, getElem?_slotWords (by omega)]

/-- Rows behind whole rows. -/
theorem byteRows_append (address : UInt32) {front : Bytes} (h : front.length % 16 = 0) (back : Bytes) :
    byteRows address (front ++ back) = byteRows address front ++ byteRows (address + front.length.toUInt32) back := by
  by_cases hfront : front = []
  · subst hfront
    rw [byteRows_nil]
    show _ = byteRows (address + 0) back
    rw [UInt32.add_zero]
    rfl
  · have hpos := length_pos_iff.2 hfront
    have hnext : address + 16 + (front.drop 16).length.toUInt32 = address + front.length.toUInt32 := by
      rw [length_drop, UInt32.add_assoc]
      refine congrArg (address + ·) ((UInt32.ofNat_add 16 _).symm.trans (congrArg UInt32.ofNat ?_))
      omega
    rw [byteRows_of_ne_nil address hfront, byteRows_of_ne_nil address (append_ne_nil_of_left_ne_nil hfront back),
      take_append_of_le_length (by omega), drop_append_of_le_length (by omega),
      byteRows_append (address + 16) (by rw [length_drop]; omega) back, hnext]
    rfl
termination_by front.length
decreasing_by rw [length_drop]; omega

/-- What a template has of its place. -/
structure Padded (x : Template) : Prop where
  rows : x.codePadding.toNat % 16 = 0
  start : x.codeStart + x.codePadding = x.codeStartPadded

theorem programRows_payload (h : Padded x) (commSize : UInt32) (words : Words) :
    programRows x.codeStart (payload x commSize words) =
      byteRows x.codeStart (Words.toBytes (List.replicate (x.codePadding.toNat / 2) 0)) ++
        byteRows x.codeStartPadded (slotWords commSize words).toBytes := by
  have hrows := h.rows
  have hlength : (Words.toBytes (List.replicate (x.codePadding.toNat / 2) 0)).length = x.codePadding.toNat := by
    rw [Words.length_toBytes, length_replicate]
    omega
  have hbytes : (payload x commSize words).toBytes =
      Words.toBytes (List.replicate (x.codePadding.toNat / 2) 0) ++ (slotWords commSize words).toBytes := by
    rw [payload_eq]
    exact flatMap_append ..
  rw [programRows_eq, hbytes, byteRows_append _ (by rw [hlength, hrows]), hlength]
  congr 2
  rw [← h.start]
  exact congrArg (x.codeStart + ·) UInt32.ofNat_toNat

/-- A program that can be linked does not reach around flash, with its slots. -/
theorem length_toBytes_slotWords_le (commSize : UInt32) (hsize : sizeEntry words < sizeLimit) :
    (slotWords commSize words).toBytes.length ≤ 2 ^ 20 := by
  unfold sizeEntry sizeLimit at hsize
  rw [Words.length_toBytes, length_slotWords]
  unfold commSlot
  omega

/-- **The rows of a program** write it at the page that it is linked at. -/
theorem byteAt?_slotWords (h : Padded x) (hsize : sizeEntry words < sizeLimit)
    (hv : (slotWords commSize words).toBytes[i]? = some v) :
    (rowJournal (programRows x.codeStart (payload x commSize words))).byteAt? (x.codeStartPadded + i.toUInt32) =
      some v := by
  have hin := (List.getElem?_eq_some_iff.1 hv).1
  have hshort := length_toBytes_slotWords_le commSize hsize
  have hdistance : (x.codeStartPadded + i.toUInt32 - x.codeStartPadded).toNat = i := by
    rw [UInt32.add_comm, UInt32.add_sub_cancel]
    exact UInt32.toNat_ofNat_of_lt' (by show _ < 4294967296; omega)
  have hwritten : (rowJournal (byteRows x.codeStartPadded (slotWords commSize words).toBytes)).byteAt?
      (x.codeStartPadded + i.toUInt32) = some v := by
    rw [byteAt?_rowJournal _ (by omega), Write.byteAt?, hdistance, wholeRows, getElem?_append_left hin, hv]
  rw [programRows_payload h, rowJournal, map_append, Journal.byteAt?_append]
  exact congrArg (Option.or · _) hwritten

/-! ## What comes behind it -/

/-- The rows of a program in flash, with its padding. -/
def rowsOf (x : Template) (commSize : UInt32) (words : Words) : Journal :=
  rowJournal (programRows x.codeStart (payload x commSize words))

/-- What the lines behind a program write, where its last row leaves its base in force. -/
def linesBehind (x : Template) (s : BuildState) (words : Words) : Journal :=
  Record.journal
    (((programRows x.codeStart (payload x s.commSize words)).getLast?.map fun row => baseOf row.1).getD 0)
    (recordsOf (wrapRecords x s (x.lines.drop x.codeStartLine.toNat)))

/-- The pages of packed source, behind the page written last. -/
def sourcePages (last : Option Nat) (source : Bytes) : Journal :=
  let start := ((last.getD 0) + 0x1000).toUInt32 &&& 0xffffff00
  rowJournal ((Bytes.rows payloadSize source).mapIdx fun i row =>
    (start + (payloadSize * i).toUInt32, Bytes.resize row payloadSize 0))

/-- What goes into a block file behind a program: the rest of the template, and packed source. -/
def blocksBehind (x : Template) (s : BuildState) (words : Words) : Journal :=
  let rest := linesJournal (x.lines.drop x.codeStartLine.toNat)
  let last := ((new 0).writeAll (rowsOf x s.commSize words ++ rest)).lastAddress
  rest ++ (s.packedSource.map (sourcePages last)).getD []

/-- Whether a program gets to the page that it is linked at, and stays there. -/
structure InPlace (x : Template) (s : BuildState) (words : Words) : Prop where
  /-- No line in front of the program ends the file. -/
  ends : x.target.useUf2 = false → ∀ line ∈ x.lines.take x.codeStartLine.toNat, isEnd line = false
  /-- The lines in front of the program leave its base in force, if it does not set that itself. -/
  base : x.target.useUf2 = false → x.codeStart >>> 16 = (x.codeStart - 16) >>> 16 →
    Record.baseAfter 0 (recordsOf (x.lines.take x.codeStartLine.toNat)) = baseOf x.codeStart
  /-- Nothing goes over it. -/
  behind : ∀ w ∈ if x.target.useUf2 then blocksBehind x s words else linesBehind x s words,
    ¬ w.Meets ⟨x.codeStartPadded, (flashed s.commSize words).toBytes⟩

instance (x : Template) (s : BuildState) (words : Words) : Decidable (InPlace x s words) :=
  decidable_of_iff (_ ∧ _ ∧ _)
    ⟨fun h => InPlace.mk h.1 h.2.1 h.2.2, fun h => ⟨h.ends, h.base, h.behind⟩⟩

/-- Whether one byte of a program with its slots gets to its place, and stays there. -/
structure ByteInPlace (x : Template) (s : BuildState) (words : Words) (i : Nat) : Prop where
  ends : x.target.useUf2 = false → ∀ line ∈ x.lines.take x.codeStartLine.toNat, isEnd line = false
  base : x.target.useUf2 = false → x.codeStart >>> 16 = (x.codeStart - 16) >>> 16 →
    Record.baseAfter 0 (recordsOf (x.lines.take x.codeStartLine.toNat)) = baseOf x.codeStart
  behind : ∀ w ∈ if x.target.useUf2 then blocksBehind x s words else linesBehind x s words,
    w.byteAt? (x.codeStartPadded + i.toUInt32) = none

instance (x : Template) (s : BuildState) (words : Words) (i : Nat) : Decidable (ByteInPlace x s words i) :=
  decidable_of_iff (_ ∧ _ ∧ _)
    ⟨fun h => ByteInPlace.mk h.1 h.2.1 h.2.2, fun h => ⟨h.ends, h.base, h.behind⟩⟩

/-- Where nothing goes over a program, no later write has a byte at its place. -/
theorem InPlace.byteInPlace (h : InPlace x s words) (hsize : sizeEntry words < sizeLimit)
    (hv : (flashed s.commSize words).toBytes[i]? = some v) : ByteInPlace x s words i := by
  refine ⟨h.ends, h.base, fun w hw => ?_⟩
  rw [← Option.not_isSome_iff_eq_none]
  intro hsome
  refine h.behind w hw ⟨x.codeStartPadded + i.toUInt32, hsome, ?_⟩
  have hi := (List.getElem?_eq_some_iff.1 hv).1
  have hlen := length_toBytes_flashed_le s.commSize hsize
  have hdistance : (x.codeStartPadded + i.toUInt32 - x.codeStartPadded).toNat = i := by
    rw [UInt32.add_comm, UInt32.add_sub_cancel]
    exact UInt32.toNat_ofNat_of_lt' (by show _ < 4294967296; omega)
  rw [Write.byteAt?, hdistance, hv]
  rfl

/-! ## Images -/

/-- Whether an image has a byte at an address: its lines write it there last, or its blocks that span the address have
it. -/
def HoldsAt : Image → UInt32 → UInt8 → Prop
  | .records lines, a, v => (contents lines).byteAt? a = some v
  | .binary data, a, v => (∃ b ∈ Uf2.parse data, b.Spans a) ∧ ∀ b ∈ Uf2.parse data, b.Spans a → b.byteAt? a = some v

/-- Whether an image has bytes from an address on. -/
def Holds (image : Image) (a : UInt32) (b : Bytes) : Prop :=
  ∀ (i : Nat) (v : UInt8), b[i]? = some v → image.HoldsAt (a + i.toUInt32) v

theorem HoldsAt.unique {a : UInt32} {v' : UInt8} (h : image.HoldsAt a v) (h' : image.HoldsAt a v') : v = v' := by
  cases image with
  | records lines => exact Option.some.inj (Eq.trans (Eq.symm h) h')
  | binary data =>
    obtain ⟨⟨b, hb, hspans⟩, hall⟩ := h
    exact Option.some.inj ((hall b hb hspans).symm.trans (h'.2 b hb hspans))

/-- An image has only one row of bytes of a length at an address. -/
theorem Holds.unique {a : UInt32} {b b' : Bytes} (h : image.Holds a b) (h' : image.Holds a b')
    (hlength : b.length = b'.length) : b = b' := by
  refine ext_getElem hlength fun i hi hi' => ?_
  exact (h i _ (getElem?_eq_getElem hi)).unique (h' i _ (getElem?_eq_getElem hi'))

section Lines

variable {front : List String}

/-- Lines in front that do not end the file stay where they are. -/
theorem wrapRecords_of_none (h : ∀ line ∈ front, isEnd line = false) (t : Template) (s : BuildState)
    (back : List String) : wrapRecords t s (front ++ back) = front ++ wrapRecords t s back := by
  have hmove : ∀ lines : List String, (if t.target.moveHexEnd then moveEnd (front ++ lines) else front ++ lines) =
      front ++ if t.target.moveHexEnd then moveEnd lines else lines := by
    intro lines
    split
    · exact moveEnd_of_none h lines
    · rfl
  unfold wrapRecords
  cases s.checksumBlock with
  | none =>
    dsimp only
    rw [append_assoc, hmove]
  | some block =>
    dsimp only
    rw [insertBeforeEnd_of_none h, append_assoc, hmove]

/-- The lines of a program write its rows if they find its base, and leave that of the last row. -/
theorem programRecords_spec {base : UInt32} (commSize : UInt32) (words : Words)
    (hbase : x.codeStart >>> 16 = (x.codeStart - 16) >>> 16 → base = baseOf x.codeStart) :
    Record.journal base (recordsOf (programRecords x.codeStart (payload x commSize words))) = rowsOf x commSize words ∧
      Record.baseAfter base (recordsOf (programRecords x.codeStart (payload x commSize words))) =
        ((programRows x.codeStart (payload x commSize words)).getLast?.map fun row => baseOf row.1).getD 0 := by
  have hne := programRows_ne_nil x commSize words
  have hshort : ∀ row ∈ programRows x.codeStart (payload x commSize words), row.2.length < 256 := by
    intro row hrow
    rw [length_of_mem_byteRows hrow]
    decide
  have hfirst : ∀ row, (programRows x.codeStart (payload x commSize words)).head? = some row → row.1 = x.codeStart := by
    intro row hrow
    have hbytes : (payload x commSize words).toBytes ≠ [] :=
      fun hnil => hne (by rw [programRows_eq, hnil, byteRows_nil])
    rw [programRows_eq, byteRows_of_ne_nil _ hbytes] at hrow
    rw [← Option.some.inj hrow]
  obtain ⟨es, hlines, hjournal, hafter, -⟩ := rowRecordsOnto_line hshort ((x.codeStart - 16) >>> 16) base []
    fun row hrow hsame => by
      rw [hfirst row hrow] at hsame ⊢
      exact hbase hsame
  have hrecords : recordsOf (programRecords x.codeStart (payload x commSize words)) = es.map record := by
    rw [recordsOf, programRecords, hlines]
    exact records_map_line es
  rw [hrecords]
  refine ⟨hjournal, hafter.trans ?_⟩
  rw [getLast?_eq_some_getLast hne]
  rfl

/-- **Record lines** hold what is in its place of a program with its slots filled. -/
theorem holdsAt_of_link_lines (hlines : HasLines x) (hpadded : Padded x) (hshort : Short x.lines)
    (htable : ∀ line, x.lines[x.jumpTableLine.toNat]? = some line → ¬ SetsBase line) (huf2 : x.target.useUf2 = false)
    {i : Nat} {v : UInt8} (hplace : ByteInPlace x s words i) (hv : (slotWords s.commSize words).toBytes[i]? = some v)
    {name : String} {image : Image} (hlink : link x name s words false false = .ok image) :
    image.HoldsAt (x.codeStartPadded + i.toUInt32) v := by
  obtain ⟨hsize, -⟩ := of_link hlink
  obtain ⟨header, leading, -, hleading, hall⟩ := link_leading hlines hlink
  obtain rfl := Except.ok.inj ((hall s).symm.trans hlink)
  have hroles := leadingRecords_spec (fun line hline => hshort line (mem_of_mem_take hline))
    (fun line hline => htable line (by
      rw [getElem?_take] at hline
      split at hline
      · exact hline
      · exact nomatch hline)) hleading
  have hfront := isEnd_of_sameRole hroles (hplace.ends huf2)
  have hbase := baseAfter_of_sameRole hroles 0
  obtain ⟨hrows, hafter⟩ := programRecords_spec s.commSize words
    (fun hsame => hbase.trans (hplace.base huf2 hsame))
  have hbehind := hplace.behind
  rw [huf2, if_neg Bool.false_ne_true] at hbehind
  -- what is behind the program has no byte there, so the last one is that of its rows
  have hnone : (linesBehind x s words).byteAt? (x.codeStartPadded + i.toUInt32) = none :=
    Journal.byteAt?_eq_none hbehind
  have hcontents : contents (stateLines x words leading (x.lines.drop x.codeStartLine.toNat) s) =
      Record.journal 0 (recordsOf leading) ++ (rowsOf x s.commSize words ++ linesBehind x s words) := by
    unfold stateLines
    rw [wrapRecords_of_none (forall_isEnd_append hfront isEnd_of_mem_programRecords), contents]
    show Record.journal 0 (recordsOf _) = _
    rw [append_assoc, recordsOf_append, recordsOf_append, Record.journal_append, Record.journal_append, hrows, hafter]
    rfl
  show (contents _).byteAt? _ = some v
  rw [hcontents, Journal.byteAt?_append, Journal.byteAt?_append, hnone, Option.none_or, rowsOf,
    byteAt?_slotWords hpadded hsize hv]
  rfl

end Lines

section Blocks

variable {image : Image}

/-- A template of record lines that is linked into a block file has a header, and the program is small enough. -/
theorem exists_linkBlocks (hlines : HasLines x) {name : String} (hlink : link x name s words false true = .ok image) :
    ∃ header, linkBlocks x s header (payload x s.commSize words) false x.codeStartLine.toNat = .ok image := by
  obtain ⟨hboot, hvm, hblob⟩ := hlines
  unfold link at hlink
  split at hlink
  next => exact nomatch hlink
  next =>
    obtain ⟨header, -, hlink⟩ := exists_of_bind_eq_ok hlink
    simp only [hboot, hvm, hblob] at hlink
    split at hlink
    next => exact nomatch hlink
    next => exact ⟨header, hlink⟩

theorem writeAll_of_writeRecords {f f' : BlockFile} {lines : List String} (h : writeRecords f lines = .ok f') :
    f' = f.writeAll (linesJournal lines) := by
  unfold writeRecords at h
  have heq := writeLines_eq f 0 ['0', '0', '0', '0'] lines
  split at h
  next f'' hwrite =>
    rw [← Except.ok.inj h, linesJournal, ← heq]
    exact (congrArg Prod.fst hwrite).symm
  next => exact nomatch h

theorem addPackedSource_eq (f : BlockFile) (source : Bytes) :
    addPackedSource f source = (sourcePages f.lastAddress source).foldl
      (fun f w => f.write w.address w.data flagNoFlash) f := by
  rw [sourcePages, rowJournal, foldl_map]
  rfl

/-- The steps of linking into a block file. -/
theorem exists_of_linkBlocks {header : Bytes} {payload : Words} {start : Nat}
    (hlink : linkBlocks x s header payload false start = .ok image) :
    ∃ f₁ f₂ f₃ f₄, writeRecords (new x.target.family) (x.lines.take start) = .ok f₁ ∧
      ObjectHeader.replaceInPages x f₁ = .ok f₂ ∧
      f₃ = f₂.writeAll (⟨x.jumpTable, header⟩ ::
        (s.checksumBlock.map fun block => ⟨x.target.flashChecksumAddress, block.toBytes⟩).toList) ∧
      writeRecords (f₃.writeAll (rowJournal (programRows x.codeStart payload))) (x.lines.drop start) = .ok f₄ ∧
      image = .binary ((s.packedSource.map (addPackedSource f₄)).getD f₄).serialize := by
  obtain ⟨f₁, hlead, hlink⟩ := exists_of_bind_eq_ok hlink
  obtain ⟨f₂, hreplaced, hlink⟩ := exists_of_bind_eq_ok hlink
  obtain ⟨f₄, hrest, hlink⟩ := exists_of_bind_eq_ok hlink
  obtain rfl := Except.ok.inj hlink
  have hrows : ∀ f : BlockFile, f.writeAll (rowJournal (programRows x.codeStart payload)) =
      (programRows x.codeStart payload).foldl (fun f row => f.write row.1 row.2 0) f := by
    intro f
    rw [writeAll, rowJournal, foldl_map]
  refine ⟨f₁, f₂, _, f₄, hlead, hreplaced, rfl, ?_, ?_⟩
  · rw [hrows, ← hrest]
    cases s.checksumBlock <;> rfl
  · cases s.packedSource <;> rfl

/-- The page written last does not depend on what was in the file in front of the rows of the program. -/
theorem lastAddress_rows (f : BlockFile) (x : Template) (commSize : UInt32) (words : Words) (behind : Journal) :
    ((f.writeAll (rowsOf x commSize words)).writeAll behind).lastAddress =
      ((new 0).writeAll (rowsOf x commSize words ++ behind)).lastAddress := by
  have hne : rowsOf x commSize words ++ behind ≠ [] := append_ne_nil_of_left_ne_nil
      (fun hnil => programRows_ne_nil x commSize words (map_eq_nil_iff.1 hnil)) _
  rw [← writeAll_append]
  exact congrArg (Option.map _) (last_foldl_write f (new 0) hne 0 0)

/-- **Block files** hold what is in its place of a program with its slots filled. -/
theorem holdsAt_of_link_blocks (hlines : HasLines x) (hpadded : Padded x) (huf2 : x.target.useUf2 = true) {i : Nat}
    {v : UInt8} (hplace : ByteInPlace x s words i) (hv : (slotWords s.commSize words).toBytes[i]? = some v)
    {name : String} (hlink : link x name s words false true = .ok image) :
    image.HoldsAt (x.codeStartPadded + i.toUInt32) v := by
  obtain ⟨hsize, -⟩ := of_link hlink
  obtain ⟨header, hlink⟩ := exists_linkBlocks hlines hlink
  obtain ⟨f₁, f₂, f₃, f₄, hlead, hreplaced, hf₃, hrest, rfl⟩ := exists_of_linkBlocks hlink
  -- the file is sound when the rows of the program are written
  have hsound₁ : f₁.Sound := by
    rw [writeAll_of_writeRecords hlead]
    exact (sound_new x.target.family).foldl_write _ 0
  have hsound₂ := (ObjectHeader.run_replaceInPages hsound₁ hreplaced).1
  have hsound₃ : f₃.Sound := hf₃ ▸ hsound₂.foldl_write _ 0
  have hf₄ := writeAll_of_writeRecords hrest
  have hsound₄ : f₄.Sound := hf₄ ▸ (hsound₃.foldl_write _ 0).foldl_write _ 0
  have hlast : f₄.lastAddress = ((new 0).writeAll (rowsOf x s.commSize words ++
      linesJournal (x.lines.drop x.codeStartLine.toNat))).lastAddress := by
    rw [hf₄]
    exact lastAddress_rows f₃ x s.commSize words _
  have hbehind := hplace.behind
  rw [huf2, if_pos rfl, blocksBehind] at hbehind
  rw [← hlast] at hbehind
  have hwritten : (f₃.writeAll (rowsOf x s.commSize words)).byteAt? (x.codeStartPadded + i.toUInt32) = some v := by
    refine hsound₃.byteAt?_foldl_write (fun w hw => ?_) 0 ?_
    · obtain ⟨row, hrow, rfl⟩ := mem_map.1 hw
      show row.2.length ≤ _
      rw [length_of_mem_byteRows hrow]
      decide
    · rw [rowsOf, byteAt?_slotWords hpadded hsize hv]
      rfl
  -- the lines that follow do not go over it, and neither do the pages of packed source
  have hkept : f₄.byteAt? (x.codeStartPadded + i.toUInt32) = some v := by
    rw [hf₄]
    exact (hsound₃.foldl_write _ 0).byteAt?_foldl_write_of_none
      (fun w hw => hbehind w (mem_append_left _ hw)) 0 hwritten
  show (∃ b ∈ Uf2.parse _, b.Spans _) ∧ _
  cases hpacked : s.packedSource with
  | none => exact byteAt?_parse_serialize hsound₄ hkept
  | some source =>
    rw [Option.map_some, Option.getD_some, addPackedSource_eq]
    refine byteAt?_parse_serialize (hsound₄.foldl_write _ _) ?_
    refine hsound₄.byteAt?_foldl_write_of_none (fun w hw => hbehind w (mem_append_right _ ?_)) _ hkept
    rw [hpacked, Option.map_some, Option.getD_some]
    exact hw

end Blocks

/-- The padding of a template that was read is made of whole rows, and leads up to the page of programs. -/
theorem padded_of_endsAt {read : List String} {m marker : Mark} {ending : Ending} (h : EndsAt t x read m marker ending)
    : Padded x where
  rows := by
    have hrows := UInt32.toNat_inj.2 h.rows
    rw [UInt32.toNat_and] at hrows
    exact (Nat.and_two_pow_sub_one_eq_mod _ 4).symm.trans hrows
  start := by rw [h.padding, UInt32.add_comm, UInt32.sub_add_cancel]

/-- A byte of a program that gets to its place and stays there is in the image, with the slots of the program filled. -/
theorem holdsAt_of_link {e : Extension} (hshort : Short e.hex) (hparse : parse t e = .ok x) (hlines : HasLines x)
    (hplace : ByteInPlace x s words i) (hv : (slotWords s.commSize words).toBytes[i]? = some v) {name : String}
    (hlink : link x name s words false x.target.useUf2 = .ok image) :
    image.HoldsAt (x.codeStartPadded + i.toUInt32) v := by
  have hread := parseLines_of_hasLines hlines hparse
  obtain ⟨read, m, marker, ending, hends⟩ := exists_endsAt hread
  have hpadded := padded_of_endsAt hends
  cases huf2 : x.target.useUf2 with
  | true =>
    rw [huf2] at hlink
    exact holdsAt_of_link_blocks hlines hpadded huf2 hplace hv hlink
  | false =>
    rw [huf2] at hlink
    exact holdsAt_of_link_lines hlines hpadded (holdsLines_of_parseLines hshort hread).1.short
      (fun line hline => hends.not_setsBase hline) huf2 hplace hv hlink

/-- **The program in an image.** A program that gets to its place and stays there is in the image, with its slots
filled. -/
theorem holds_of_link {e : Extension} (hshort : Short e.hex) (hparse : parse t e = .ok x) (hlines : HasLines x)
    (hplace : InPlace x s words) {name : String} (hlink : link x name s words false x.target.useUf2 = .ok image) :
    image.Holds x.codeStartPadded (flashed s.commSize words).toBytes := by
  intro i v hv
  have hslots := (getElem?_toBytes_slotWords (List.getElem?_eq_some_iff.1 hv).1).trans hv
  exact holdsAt_of_link hshort hparse hlines (hplace.byteInPlace (of_link hlink).1 hv) hslots hlink

end Image
end Firmware
