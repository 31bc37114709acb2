import Firmware.Proofs.Image.Linking
import Firmware.Proofs.Image.ProgramBytes

/-!
# The contents of an image in record lines

An image in record lines holds the template, the header in the place of the marker, and the program
(`contents_of_link`). The program must fit in front of the rest of the template. Then its rows leave the base
behind that the rest of the template counts on, or the rest sets one of its own (`journal_tail`).
-/

namespace Firmware
namespace Image

open IntelHex IntelHex.Entry Template

variable {t : Target} {e : Extension} {pre : List Entry} {d : Entry} {post : List Entry} {x : Template}

/-! ## Behind the program -/

section

variable (h : Reads t e pre d post x) (hordered : (contents e.hex).Ordered)
include h hordered

/-- What follows a template's last record lies behind a program that ends before the first of it. -/
theorem programStop_le_of_mem_tail {words : Words} (htail : ∀ w, x.tailJournal.head? = some w → programStop x words ≤ w.address.toNat) {w : Write}
    (hw : w ∈ journal (baseAfter 0 pre) post) : programStop x words ≤ w.address.toNat := by
  rw [tailJournal_eq h] at htail
  rw [h.contents_hex] at hordered
  have hrest := (List.pairwise_cons.1 (List.pairwise_append.1 hordered).2.1).2
  cases hpost : journal (baseAfter 0 pre) post with
  | nil =>
    rw [hpost] at hw
    exact absurd hw List.not_mem_nil
  | cons first rest =>
    -- the first write is bounded by hypothesis, the others lie above it
    rw [hpost] at hw hrest htail
    have hfirst := htail first rfl
    obtain rfl | hw := List.mem_cons.1 hw
    · exact hfirst
    · have hlt : first.address.toNat < w.address.toNat :=
        UInt32.lt_iff_toNat_lt.1 ((List.pairwise_cons.1 hrest).1 w hw).1
      omega

theorem byteAt?_tail (hin : ∀ w ∈ contents e.hex, w.InSegment) {words : Words}
    (htail : ∀ w, x.tailJournal.head? = some w → programStop x words ≤ w.address.toNat) {a : UInt32}
    (ha : a.toNat < programStop x words) : (journal (baseAfter 0 pre) post).byteAt? a = none := by
  apply Journal.byteAt?_eq_none
  intro w hw
  have hmem : w ∈ contents e.hex := by
    rw [h.contents_hex]
    exact List.mem_append_right _ (List.mem_cons_of_mem _ hw)
  have hfrom := programStop_le_of_mem_tail h hordered htail hw
  exact Write.byteAt?_eq_none (hin w hmem).stop_le (.inl (by omega))

theorem bounds_of_mem_programRows {words : Words} (hstop : programStop x words ≤ 2 ^ 32) {commSize : UInt32} {row : UInt32 × Bytes}
    (hrow : row ∈ programRows x.codeStart (payload x commSize words)) :
    x.codeStart.toNat ≤ row.1.toNat ∧ row.1.toNat + 16 ≤ programStop x words := by
  obtain ⟨hstart, -⟩ := toNat_codeStart h hordered hstop
  have hend : x.codeStart.toNat + (programWrite x commSize words).data.length = programStop x words := by
    rw [length_programWrite h, hstart, ← Nat.add_assoc]
    rfl
  have hbounds := bounds_of_mem_byteRows (hend ▸ hstop) hrow
  exact ⟨hbounds.1, hend ▸ hbounds.2⟩

/-- **The rest of the template.** Behind a program that ends before it, it writes what it writes in the
template. -/
theorem journal_tail {words : Words} (hstop : programStop x words ≤ 2 ^ 32)
    (htail : ∀ w, x.tailJournal.head? = some w → programStop x words ≤ w.address.toNat) (commSize : UInt32) :
    journal (((programRows x.codeStart (payload x commSize words)).getLast?.map fun row => baseOf row.1).getD
      (baseAfter 0 pre)) post = journal (baseAfter 0 pre) post := by
  by_cases hrebases : Rebases post
  · exact journal_of_rebases hrebases ..
  · obtain ⟨f, hf⟩ := head?_of_not_rebases hrebases
    congr 1
    cases hlast : (programRows x.codeStart (payload x commSize words)).getLast? with
    | none => rfl
    | some row =>
      rw [Option.map_some, Option.getD_some]
      -- the program lies between two records that share a base
      have hnext := htail _ (by rw [tailJournal_eq h]; exact hf _)
      dsimp only at hnext
      rw [toNat_base_add h.base_mod] at hnext
      have hrow := bounds_of_mem_programRows h hordered hstop (List.mem_of_getLast? hlast)
      have hstart := (toNat_codeStart h hordered hstop).1
      rw [programStart_eq h hordered, h.stop_lastWrite] at hstart
      have hmod := h.base_mod
      have hlt := f.address.toNat_lt
      apply UInt32.toNat_inj.1
      rw [toNat_baseOf]
      omega

end

/-! ## The image -/

/-- **The image.** Linking a program into a template of record lines succeeds where the program fits in front of
the rest of the template. The lines are records. What they write is the header in the place of the marker, zeros up
to the page that the program is linked at, the program in whole rows, and the template elsewhere. -/
theorem contents_of_link {es : List Entry} (hregular : Regular t e es)
    (hin : ∀ w ∈ contents e.hex, w.InSegment) (hmarkers : ∀ f ∈ es, ¬ ObjectHeader.HasMarker f)
    (hsha : ∀ c ∈ e.sha.toList, Hexadecimal.isDigit c = true) (hparse : parse t e = .ok x)
    (hjump : x.jumpTableLine < x.codeStartLine) (name : String) {s : BuildState} (hchecksum : s.checksumBlock = none)
    (hsource : s.packedSource = none) {words : Words} (hsize : sizeEntry words < sizeLimit)
    (htail : ∀ w, x.tailJournal.head? = some w → programStop x words ≤ w.address.toNat)
    (hstop : programStop x words ≤ 2 ^ 32) :
    ∃ (lines : List String) (hash : Bytes), link x name s words false false = .ok (.records lines) ∧
      (∀ line ∈ lines, ∃ r, Record.parse line = .ok r) ∧
      x.hashText.toList = Hexadecimal.chars hash ∧ hash.length = 8 ∧
      ∀ a : UInt32, (contents lines).byteAt? a =
        if x.jumpTable.toNat ≤ a.toNat ∧ a.toNat < x.jumpTable.toNat + 16 then
          (Bytes.ofWord16 headerVersion ++ [0, 0] ++ Bytes.ofWord32 x.codeStartPadded ++
            hash)[a.toNat - x.jumpTable.toNat]?
        else if x.codeStart.toNat ≤ a.toNat ∧ a.toNat < x.codeStartPadded.toNat then some 0
        else if x.codeStartPadded.toNat ≤ a.toNat ∧
            a.toNat < x.codeStartPadded.toNat + programSize words then
          some (programByte s.commSize words (a.toNat - x.codeStartPadded.toNat))
        else (contents x.lines).byteAt? a := by
  obtain ⟨pre, d, post, rfl, h⟩ := reads_of_parse hregular.native hregular.hex hparse
  have hordered := hregular.ordered
  obtain ⟨hstart, hpadded⟩ := toNat_codeStart h hordered hstop
  have hend : x.codeStartPadded.toNat + programSize words = programStop x words := by
    rw [hpadded, hstart]
    rfl
  have hsegment : (lastWrite pre d).InSegment := hin _ (by
    rw [h.contents_hex]
    exact List.mem_append_right _ (List.mem_cons_self ..))
  obtain ⟨hash, hhash, hlen, hheader⟩ := programHeader_eq (t := x) (by rw [h.sha]; exact hsha)
  generalize hbytes : Bytes.ofWord16 headerVersion ++ [0, 0] ++ Bytes.ofWord32 x.codeStartPadded ++ hash =
    header at hheader
  have hlength : header.length = 16 := by
    rw [← hbytes, List.length_append, hlen]
    rfl
  obtain ⟨front, back, fs, -, hhead, hlinked, hjournal⟩ :=
    linkRecords_line h (h.length_of_inSegment hsegment) hmarkers hjump hchecksum hsource hlength
      (payload x s.commSize words)
  rw [journal_tail h hordered hstop htail] at hjournal
  refine ⟨fs.map line, hash, ?_, ?_, hhash, hlen, ?_⟩
  · -- linking succeeds
    rw [link_eq h hregular.native hsize hheader]
    exact hlinked
  · intro l hl
    obtain ⟨f, -, rfl⟩ := List.mem_map.1 hl
    exact ⟨f.record, parse_line f⟩
  · intro a
    have hlayers : contents (fs.map line) = (front ++ ⟨x.jumpTable, header⟩ :: back) ++
        (rowJournal (programRows x.codeStart (payload x s.commSize words)) ++ journal (baseAfter 0 pre) post) := by
      rw [contents_map_line, hjournal]
      simp
    have hmem : ∀ w ∈ ⟨x.jumpTable, blobMarker⟩ :: back, w.stop ≤ x.codeStart.toNat := by
      intro w hw
      apply stop_le_codeStart h hordered hstop
      rw [hhead]
      exact List.mem_append_right _ hw
    have hwindow : Write.stop ⟨x.jumpTable, blobMarker⟩ = x.jumpTable.toNat + 16 := rfl
    have hfront : x.jumpTable.toNat + 16 ≤ x.codeStart.toNat := by
      rw [← hwindow]
      exact hmem _ (List.mem_cons_self ..)
    -- in front of the program only the header is new
    have hleading := Journal.byteAt?_replace (hhead ▸ h.apart_head hordered hsegment)
      (fun w hw => Nat.le_of_lt (Nat.lt_of_le_of_lt (hmem w hw) x.codeStart.toNat_lt))
      (hlength : header.length = blobMarker.length) a
    rw [hwindow, ← hhead] at hleading
    have hrows := byteAt?_programRows h hordered hstop s.commSize a
    have hrest : a.toNat < programStop x words → (journal (baseAfter 0 pre) post).byteAt? a = none :=
      byteAt?_tail h hordered hin htail
    -- three layers: the rest of the template over the program over the head
    rw [hlayers, h.contents_lines, Journal.byteAt?_append, hleading, Journal.byteAt?_append,
      Journal.byteAt?_append, hend, hbytes]
    by_cases hinheader : x.jumpTable.toNat ≤ a.toNat ∧ a.toNat < x.jumpTable.toNat + 16
    · rw [if_neg (by omega), if_neg (by omega)] at hrows
      rw [if_pos hinheader, if_pos hinheader, hrest (by omega), hrows]
      rfl
    · rw [if_neg hinheader, if_neg hinheader]
      by_cases hpadding : x.codeStart.toNat ≤ a.toNat ∧ a.toNat < x.codeStartPadded.toNat
      · rw [if_pos hpadding] at hrows ⊢
        rw [hrest (by omega), hrows]
        rfl
      · rw [if_neg hpadding] at hrows ⊢
        by_cases hprogram : x.codeStartPadded.toNat ≤ a.toNat ∧ a.toNat < programStop x words
        · rw [if_pos hprogram] at hrows ⊢
          rw [hrest hprogram.2, hrows]
          rfl
        · rw [if_neg hprogram] at hrows ⊢
          rw [hrows, Option.or_none]

/-- A file whose template ends 32 bytes in front of a page that starts 64 KB. -/
def crossingFile : List Entry :=
  [ofUpper 1, ofRow 0xFFC0 blobMarker, ofRow 0xFFD0 (List.replicate 12 0xAA),
   ofUpper 3, ofRow 0x0000 [1, 2, 3, 4], fileEnd]

theorem contents_of_link_crossing :
    ∃ x, parse (pagedTarget 0x30000) (bareExtension crossingFile) = .ok x ∧
      ∃ (lines : List String) (hash : Bytes), link x "" {} [7] false false = .ok (.records lines) ∧
        hash.length = 8 ∧
        ∀ a : UInt32, (contents lines).byteAt? a =
          if 0x1FFC0 ≤ a.toNat ∧ a.toNat < 0x1FFC0 + 16 then
            (Bytes.ofWord16 headerVersion ++ [0, 0] ++ Bytes.ofWord32 0x20000 ++ hash)[a.toNat - 0x1FFC0]?
          else if 0x1FFE0 ≤ a.toNat ∧ a.toNat < 0x20000 then some 0
          else if 0x20000 ≤ a.toNat ∧ a.toNat < 0x20000 + 48 then
            some (programByte 0 [7] (a.toNat - 0x20000))
          else (contents x.lines).byteAt? a := by
  have hfile : (parse (pagedTarget 0x30000) (bareExtension crossingFile)).toOption.map (fun x =>
        ((x.jumpTableLine, x.codeStartLine), (x.jumpTable, x.codeStart, x.codeStartPadded),
          x.tailJournal.head?, programStop x [7])) =
        some ((1, 3), (0x1FFC0, 0x1FFE0, 0x20000), some ⟨0x30000, [1, 2, 3, 4]⟩, 0x20030) ∧
      (journal 0 crossingFile).Ordered ∧ (∀ w ∈ journal 0 crossingFile, w.InSegment) ∧
      (∀ f ∈ crossingFile, ¬ ObjectHeader.HasMarker f) ∧
      (bareExtension crossingFile).sha.toList.all Hexadecimal.isDigit = true := by decide +kernel
  obtain ⟨hread, hordered, hin, hmarkers, hsha⟩ := hfile
  rw [← contents_map_line] at hordered hin
  obtain ⟨x, hparse, hread⟩ := exists_of_map_toOption hread
  simp only [Prod.mk.injEq] at hread
  obtain ⟨⟨hjump, hcode⟩, ⟨htable, hstart, hpadded⟩, hnext, hstop⟩ := hread
  have hregular : Regular (pagedTarget 0x30000) (bareExtension crossingFile) crossingFile :=
    ⟨by decide, ⟨12, rfl⟩, by decide, rfl, hordered⟩
  have htail : ∀ w, x.tailJournal.head? = some w → programStop x [7] ≤ w.address.toNat := by
    intro w hw
    rw [hnext] at hw
    obtain rfl := Option.some.inj hw
    rw [hstop]
    decide
  obtain ⟨lines, hash, hlinked, -, -, hlen, hbytes⟩ := contents_of_link hregular hin hmarkers
    (List.all_eq_true.1 hsha) hparse (by rw [hjump, hcode]; decide) "" (s := {}) rfl rfl (by decide) htail
    (by rw [hstop]; decide)
  rw [htable, hstart, hpadded] at hbytes
  exact ⟨x, hparse, lines, hash, hlinked, hlen, hbytes⟩

end Image
end Firmware
