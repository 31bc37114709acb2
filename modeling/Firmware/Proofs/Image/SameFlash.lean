import Firmware.Proofs.Image.Linking
import Firmware.Proofs.Image.ProgramBytes
import Firmware.Proofs.Uf2.RecordLines
import Firmware.Proofs.Uf2.Serialized

/-!
# Record lines and block files

A program can be linked into record lines or into a block file. Record lines get the header in the place of the
marker, and what follows the program finds the base that the program leaves. Into a block file the template is
written first and the header over it, and what follows the program starts with no base in force
(`linkBlocks_eq`). Both leave the same bytes in flash where these differences do not matter (`flash_of_link`).
-/

open List

namespace Firmware

namespace Template

open IntelHex

/-- What a template writes between the marker and the program. -/
def behindMarker (x : Template) : Journal :=
  x.headJournal.drop ((contents (x.lines.take x.jumpTableLine.toNat)).length + 1)

end Template

namespace Image

open IntelHex IntelHex.Entry Template Uf2 Uf2.BlockFile

variable {t : Target} {e : Extension} {pre : List Entry} {d : Entry} {post : List Entry} {x : Template}

/-! ## The block file -/

theorem type_ne_of_mem_headOf (h : Reads t e pre d post x) {f : Entry} (hf : f ∈ headOf pre d) :
    f.type ≠ segmentType := by
  obtain hf | hf := mem_append.1 hf
  · obtain ⟨g, -, rfl⟩ := mem_map.1 hf
    exact type_linear_ne_segment g
  · rw [type_of_mem_lastRow h.ends.data hf]
    decide

/-- The writes of a program that is linked into a block file. -/
def blockJournal (x : Template) (header : Bytes) (words : Words) (post : List Entry) : Journal :=
  x.headJournal ++ ⟨x.jumpTable, header⟩ :: (rowJournal (programRows x.codeStart words) ++ journal 0 post)

theorem length_le_of_mem_blockJournal (h : Reads t e pre d post x) {header : Bytes} (hheader : header.length = 16)
    {words : Words} {w : Write} (hw : w ∈ blockJournal x header words post) : w.data.length ≤ 2 ^ 32 := by
  have hlimit : (2 : Nat) ^ 32 = 4294967296 := rfl
  rw [blockJournal, headJournal_eq h] at hw
  obtain hw | hw := mem_append.1 hw
  · have hlen := length_of_mem_journal hw
    omega
  · obtain rfl | hw := mem_cons.1 hw
    · dsimp only
      omega
    · obtain hw | hw := mem_append.1 hw
      · obtain ⟨row, hrow, rfl⟩ := mem_map.1 hw
        have hlen : row.2.length = 16 := length_of_mem_byteRows hrow
        dsimp only
        omega
      · have hlen := length_of_mem_journal hw
        omega

theorem writeRecords_line {es : List Entry} (h : ∀ g ∈ es, g.type ≠ segmentType) (f : BlockFile) :
    writeRecords f (es.map line) = .ok (f.writeAll (journal 0 es)) := by
  unfold writeRecords
  rw [writeHex_line h]

/-- **The image in a block file.** -/
theorem linkBlocks_eq (h : Reads t e pre d post x) (hmemory : ¬ ObjectHeader.HoldsMarker x.headJournal)
    {s : BuildState} (hchecksum : s.checksumBlock = none) (hsource : s.packedSource = none) (header : Bytes)
    (words : Words) :
    linkBlocks x s header words false x.codeStartLine.toNat =
      .ok (.binary ((new x.target.family).writeAll (blockJournal x header words post)).serialize) := by
  have haligned : ∀ f ∈ post, f.Aligned := fun f hf =>
    h.aligned f (mem_append_right _ (mem_cons_of_mem d hf))
  have hrest : ∀ g ∈ post.map linear, g.type ≠ segmentType := by
    intro g hg
    obtain ⟨f, -, rfl⟩ := mem_map.1 hg
    exact type_linear_ne_segment f
  have hhead : ((new x.target.family).writeAll x.headJournal).Records x.headJournal := by
    refine records_writeAll _ fun w hw => ?_
    rw [headJournal_eq h] at hw
    exact Nat.le_of_lt (Nat.lt_trans (length_of_mem_journal hw) (by decide))
  have hrows : ∀ f : BlockFile, f.writeAll (rowJournal (programRows x.codeStart words)) =
      (programRows x.codeStart words).foldl (fun f row => f.write row.1 row.2 0) f := by
    intro f
    unfold writeAll rowJournal
    rw [foldl_map]
  unfold linkBlocks
  rw [h.take_lines, h.drop_lines, writeRecords_line fun f hf => type_ne_of_mem_headOf h hf, ← headJournal_eq h]
  show (ObjectHeader.replaceInPages x _ >>= _) = _
  rw [ObjectHeader.replaceInPages_eq x hhead hmemory, hchecksum, hsource]
  show (writeRecords _ _ >>= _) = _
  -- the lines behind the program are a run of their own, which starts without a base
  rw [writeRecords_line hrest, (journal_linear haligned 0).1]
  unfold blockJournal
  rw [writeAll_append]
  show _ = Except.ok (Image.binary (writeAll (write _ _ _ _) _).serialize)
  rw [writeAll_append, hrows]
  rfl

/-! ## The header -/

/-- Record lines get a header only where the marker stands in front of the program. -/
theorem jumpTableLine_lt (h : Reads t e pre d post x)
    (hmarkers : ∀ f ∈ pre ++ d :: post, ¬ ObjectHeader.HasMarker f) {header : Bytes} {leading : List String}
    (hleading : leadingRecords x header x.jumpTableLine.toNat (x.lines.take x.codeStartLine.toNat) = .ok leading) :
    x.jumpTableLine < x.codeStartLine := by
  unfold leadingRecords at hleading
  rw [h.take_lines, ObjectHeader.replaceInLines_line x (Reads.not_hasMarker_headOf hmarkers)] at hleading
  obtain ⟨-, -, -, -, -, -, -, hline⟩ := h.marker
  by_cases hlt : x.jumpTableLine.toNat < ((headOf pre d).map line).length
  · rw [length_map] at hlt
    rw [h.codeStartLine]
    omega
  · exact nomatch hleading.symm.trans (if_neg hlt)

/-! ## Both containers -/

/-- What follows the program needs no base that was set before. -/
theorem journal_post (h : Reads t e pre d post x) {commSize : UInt32} {words : Words}
    (htail : LinesRebase (x.lines.drop x.codeStartLine.toNat) ∨
      ∀ row, (programRows x.codeStart (payload x commSize words)).getLast? = some row → row.1.toNat < 65536) :
    journal (((programRows x.codeStart (payload x commSize words)).getLast?.map fun row => baseOf row.1).getD
      (baseAfter 0 pre)) post = journal 0 post := by
  obtain hrebase | hlow := htail
  · have haligned : ∀ f ∈ post, f.Aligned := fun f hf =>
      h.aligned f (mem_append_right _ (mem_cons_of_mem d hf))
    rw [h.drop_lines, linesRebase_map_line] at hrebase
    rw [← (journal_linear haligned _).1, ← (journal_linear haligned 0).1]
    exact journal_of_rebases hrebase ..
  · congr 1
    cases hrow : (programRows x.codeStart (payload x commSize words)).getLast? with
    | none => exact absurd (getLast?_eq_none_iff.1 hrow) (programRows_ne_nil x commSize words)
    | some row =>
      have hlt := hlow row hrow
      rw [Option.map_some, Option.getD_some]
      apply UInt32.toNat_inj.1
      rw [toNat_baseOf, Nat.div_eq_of_lt hlt]
      rfl

/-- **The same flash.** Every byte that an image in record lines writes is in the blocks of the block file for the
same program. For that, the last record of the template stays within its 64 KB; nothing between the marker and the
program is written over the marker; what follows the program sets a base first, or the program ends in the first
64 KB; and neither a record nor the flash in front of the program has the marker of a placeholder. -/
theorem flash_of_link {es : List Entry} (hnative : t.isNative = true) (hhex : e.hex = es.map line)
    (hparse : parse t e = .ok x) (hmarkers : ∀ f ∈ es, ¬ ObjectHeader.HasMarker f)
    (hmemory : ¬ ObjectHeader.HoldsMarker x.headJournal)
    (hlast : ∀ pre d post, es = pre ++ d :: post → Ends t 0 pre d post → (lastWrite pre d).InSegment)
    (hbehind : ∀ w ∈ x.behindMarker, ¬ w.Meets ⟨x.jumpTable, blobMarker⟩) {name : String} {s : BuildState}
    (hchecksum : s.checksumBlock = none) (hsource : s.packedSource = none) {words : Words}
    (htail : LinesRebase (x.lines.drop x.codeStartLine.toNat) ∨
      ∀ row, (programRows x.codeStart (payload x s.commSize words)).getLast? = some row → row.1.toNat < 65536)
    {lines : List String} (hlines : link x name s words false false = .ok (.records lines)) {data : Bytes}
    (hblocks : link x name s words false true = .ok (.binary data)) {a : UInt32} {v : UInt8}
    (ha : (contents lines).byteAt? a = some v) :
    (∃ b ∈ Uf2.parse data, b.Spans a) ∧ ∀ b ∈ Uf2.parse data, b.Spans a → b.byteAt? a = some v := by
  obtain ⟨pre, d, post, rfl, h⟩ := reads_of_parse hnative hhex hparse
  obtain ⟨hsize, header, hheader⟩ := of_link hlines
  have hlength := length_programHeader hheader
  rw [link_eq h hnative hsize hheader, if_neg Bool.false_ne_true] at hlines
  rw [link_eq h hnative hsize hheader, if_pos rfl, linkBlocks_eq h hmemory hchecksum hsource] at hblocks
  obtain ⟨leading, hleading, -⟩ := exists_of_bind_eq_ok hlines
  obtain ⟨front, back, fs, hfront, hhead, hlinked, hjournal⟩ :=
    linkRecords_line h (h.length_of_inSegment (hlast pre d post rfl h.ends)) hmarkers
      (jumpTableLine_lt h hmarkers hleading) hchecksum hsource hlength (payload x s.commSize words)
  rw [hlinked] at hlines
  obtain rfl := Image.records.inj (Except.ok.inj hlines)
  obtain rfl := Image.binary.inj (Except.ok.inj hblocks)
  have hback : back = x.behindMarker := by
    unfold behindMarker
    rw [headJournal_eq h, hhead, ← hfront, ← List.drop_drop, List.drop_left]
    rfl
  have hrest := journal_post h htail
  -- the header stands in the place of the marker in the lines, and over it in the block file
  have hsame : (contents (fs.map line)).byteAt? a =
      (blockJournal x header (payload x s.commSize words) post).byteAt? a := by
    have hover := Journal.byteAt?_overwrite front
      (hback ▸ hbehind : ∀ w ∈ back, ¬ w.Meets ⟨x.jumpTable, blobMarker⟩)
      (hlength : header.length = blobMarker.length) a
    have hrecords : contents (fs.map line) = (front ++ ⟨x.jumpTable, header⟩ :: back) ++
        (rowJournal (programRows x.codeStart (payload x s.commSize words)) ++ journal 0 post) := by
      rw [contents_map_line, hjournal, hrest]
      simp
    have hwritten : blockJournal x header (payload x s.commSize words) post =
        (front ++ ⟨x.jumpTable, blobMarker⟩ :: back ++ [⟨x.jumpTable, header⟩]) ++
        (rowJournal (programRows x.codeStart (payload x s.commSize words)) ++ journal 0 post) := by
      rw [blockJournal, headJournal_eq h, hhead]
      simp
    rw [hrecords, hwritten, Journal.byteAt?_append, hover, ← Journal.byteAt?_append]
  have hshort : ∀ w ∈ blockJournal x header (payload x s.commSize words) post, w.data.length ≤ 2 ^ 32 :=
    fun w hw => length_le_of_mem_blockJournal h hlength hw
  obtain ⟨hsound, hreflects⟩ := records_writeAll x.target.family hshort
  apply byteAt?_parse_serialize hsound
  apply (hreflects a v).2
  apply Journal.holds_of_byteAt?
  rw [← hsame]
  exact ha

/-- What linking a program into both containers gives, where it succeeds. -/
def linkBoth (x : Template) (name : String) (s : BuildState) (words : Words) : Option (List String × Bytes) :=
  match link x name s words false false, link x name s words false true with
  | .ok (.records lines), .ok (.binary data) => some (lines, data)
  | _, _ => none

theorem of_linkBoth {name : String} {s : BuildState} {words : Words} {lines : List String} {data : Bytes}
    (h : linkBoth x name s words = some (lines, data)) :
    link x name s words false false = .ok (.records lines) ∧ link x name s words false true = .ok (.binary data) := by
  unfold linkBoth at h
  split at h
  next hlines hblocks =>
    obtain ⟨rfl, rfl⟩ := Prod.mk.inj (Option.some.inj h)
    exact ⟨hlines, hblocks⟩
  next => exact nomatch h

/-- A file in the second 64 KB, of which a part in the third follows the template. -/
def farFile : List Entry :=
  [ofUpper 1, ofRow 0x0100 blobMarker, ofRow 0x0110 (List.replicate 12 0xAA),
   ofUpper 2, ofRow 0x0000 [1, 2, 3, 4], fileEnd]

theorem flash_of_link_farFile :
    ∃ (x : Template) (lines : List String) (data : Bytes),
      parse (rowTarget 0x20000) (bareExtension farFile) = .ok x ∧
      link x "" {} [7] false false = .ok (.records lines) ∧ link x "" {} [7] false true = .ok (.binary data) ∧
      ∀ (a : UInt32) (v : UInt8), (contents lines).byteAt? a = some v →
        (∃ b ∈ Uf2.parse data, b.Spans a) ∧ ∀ b ∈ Uf2.parse data, b.Spans a → b.byteAt? a = some v := by
  have hfile : (parse (rowTarget 0x20000) (bareExtension farFile)).toOption.map (fun x =>
        ((linkBoth x "" {} [7]).isSome, decide (LinesRebase (x.lines.drop x.codeStartLine.toNat)), x.jumpTable,
          x.headJournal, x.behindMarker)) =
        some (true, true, 0x10100, [⟨0x10100, blobMarker⟩, ⟨0x10110, List.replicate 12 0xAA ++ [0, 0, 0, 0]⟩],
          [⟨0x10110, List.replicate 12 0xAA ++ [0, 0, 0, 0]⟩]) ∧
      (∀ w ∈ journal 0 farFile, w.InSegment) ∧ ∀ f ∈ farFile, ¬ ObjectHeader.HasMarker f := by decide +kernel
  obtain ⟨hread, hsegments, hmarkers⟩ := hfile
  obtain ⟨x, hparse, hread⟩ := exists_of_map_toOption hread
  simp only [Prod.mk.injEq] at hread
  obtain ⟨hboth, htail, htable, hhead, hbehind⟩ := hread
  obtain ⟨⟨lines, data⟩, hsome⟩ := Option.isSome_iff_exists.1 hboth
  obtain ⟨hlines, hblocks⟩ := of_linkBoth hsome
  refine ⟨x, lines, data, hparse, hlines, hblocks, fun a v ha => ?_⟩
  refine flash_of_link (e := bareExtension farFile) (by decide) rfl hparse hmarkers ?_ ?_ ?_ rfl rfl
    (.inl (of_decide_eq_true htail)) hlines hblocks ha
  · apply ObjectHeader.not_holdsMarker
    rw [hhead]
    decide
  · intro pre d post hsplit hends
    apply hsegments
    rw [hsplit, Entry.journal_append, journal_data hends.data]
    exact List.mem_append_right _ (List.mem_cons_self ..)
  · intro w hw
    rw [hbehind] at hw
    rw [List.mem_singleton.1 hw, htable, Write.meets_iff (by decide) (by decide)]
    decide

/-- A file in the second 64 KB, of which a part follows the template without a base of its own. -/
def splitSegmentFile : List Entry :=
  [ofUpper 1, ofRow 0x0100 blobMarker, ofRow 0x0800 (List.replicate 16 1), fileEnd]

/-- Where what follows the program counts on the base of the template, the block file has it elsewhere. -/
theorem flash_differs :
    ∃ (x : Template) (lines : List String) (data : Bytes), (∀ f ∈ splitSegmentFile, ¬ ObjectHeader.HasMarker f) ∧
      ¬ ObjectHeader.HoldsMarker x.headJournal ∧
      parse (rowTarget 0x10800) (bareExtension splitSegmentFile) = .ok x ∧
      link x "" {} [7] false false = .ok (.records lines) ∧ link x "" {} [7] false true = .ok (.binary data) ∧
      (contents lines).byteAt? 0x10800 = some 1 ∧ ∀ b ∈ Uf2.parse data, ¬ b.Spans 0x10800 := by
  have hfile : (parse (rowTarget 0x10800) (bareExtension splitSegmentFile)).toOption.map (fun x =>
        ((linkBoth x "" {} [7]).map fun (lines, data) =>
          ((contents lines).byteAt? 0x10800, (Uf2.parse data).any fun b => decide (b.Spans 0x10800)),
        x.headJournal)) = some (some (some 1, false), [⟨0x10100, blobMarker⟩]) ∧
      ∀ f ∈ splitSegmentFile, ¬ ObjectHeader.HasMarker f := by decide +kernel
  obtain ⟨hread, hmarkers⟩ := hfile
  obtain ⟨x, hparse, hread⟩ := exists_of_map_toOption hread
  obtain ⟨hboth, hhead⟩ := Prod.mk.inj hread
  obtain ⟨⟨lines, data⟩, hsome, hvalues⟩ := Option.map_eq_some_iff.1 hboth
  obtain ⟨hbyte, hblocks⟩ := Prod.mk.inj hvalues
  obtain ⟨hlines, hdata⟩ := of_linkBoth hsome
  refine ⟨x, lines, data, hmarkers, ?_, hparse, hlines, hdata, hbyte, ?_⟩
  · apply ObjectHeader.not_holdsMarker
    rw [hhead]
    decide
  · intro b hb hspans
    rw [List.any_eq_false] at hblocks
    exact hblocks b hb (decide_eq_true hspans)

end Image
end Firmware
