import Firmware.Proofs.IntelHex.Reading
import Firmware.Proofs.Uf2.RecordLines

/-!
# Block files and the record parser

Two readers take record lines: the parser of records, which minds length and checksum and takes digits of either case
with space behind them, and the writer of block files, which looks for what it knows and passes over the rest of the
lines without an error. Where the parser takes all lines, the writer agrees with it (`writeHex_parsed`), but for data
records whose lines do not end in two digits in upper case: those are lost (`writeHex_lower`).
-/

namespace Firmware
namespace Uf2.BlockFile

open IntelHex

/-- What record lines write where linear records alone set the base of addresses. -/
def linearContents (lines : List String) : Journal :=
  Record.journal 0 ((lines.filterMap fun line => (Record.parse line).toOption).filter fun r => r.type ≠ segmentType)

theorem exists_of_mem_journal {base : UInt32} {rs : List Record} {w : Write} (h : w ∈ Record.journal base rs) :
    ∃ r ∈ rs, w.data = r.data := by
  induction rs generalizing base with
  | nil => exact absurd h List.not_mem_nil
  | cons r rest ih =>
    rw [Record.journal, List.mem_append] at h
    obtain h | h := h
    · unfold Record.write? at h
      split at h
      next =>
        obtain rfl := List.mem_singleton.1 h
        exact ⟨r, List.mem_cons_self, rfl⟩
      next => exact absurd h List.not_mem_nil
    · obtain ⟨q, hq, hdata⟩ := ih h
      exact ⟨q, List.mem_cons_of_mem r hq, hdata⟩

/-- Where no data record is lost, the records that count are all but segment records. -/
theorem journal_noticed {lines : List String}
    (h : ∀ line ∈ lines, ∃ r, Record.parse line = .ok r ∧ (r.type = dataType → EndsUpper line)) :
    Record.journal 0 (noticed lines) = linearContents lines := by
  unfold linearContents
  congr 1
  induction lines with
  | nil => rfl
  | cons line rest ih =>
    obtain ⟨⟨r, hparse, hupper⟩, hrest⟩ := List.forall_mem_cons.1 h
    have hnoticed : Noticed line r ↔ r.type ≠ segmentType := ⟨And.left, fun hne => ⟨hne, hupper⟩⟩
    rw [noticed_cons hparse, ih hrest, List.filterMap_cons, hparse]
    simp only [hnoticed, Except.toOption, List.filter_cons, decide_eq_true_eq]

/-- **Parsed lines.** Where lines start with their colon and the parser takes them all, and no linear record has an
address of its own, writing them into a new file succeeds, and the file then has what the records that count write, and
erased bytes in the rest of their pages. If every data line ends in two digits in upper case, these are the data records
at the addresses that the linear records in front of them give. -/
theorem writeHex_parsed {lines : List String} (hcolon : ∀ line ∈ lines, line.toList.head? = some ':')
    (hparse : ∀ line ∈ lines, ∃ r, Record.parse line = .ok r ∧ (r.type = linearType → r.address = 0)) (family : UInt32) :
    ∃ f, (new family).writeHex lines = (f, none) ∧ f.Records (Record.journal 0 (noticed lines)) ∧
      ((∀ line ∈ lines, ∀ r, Record.parse line = .ok r → r.type = dataType → EndsUpper line) →
        f.Records (linearContents lines)) := by
  have hreadable : ∀ line ∈ lines, Readable line := by
    intro line hline
    obtain ⟨r, hr, hlinear⟩ := hparse line hline
    exact ⟨r, hr, exists_layout (hcolon line hline) hr, hlinear⟩
  have hshort : ∀ w ∈ Record.journal 0 (noticed lines), w.data.length ≤ 2 ^ 32 := by
    intro w hw
    obtain ⟨r, hr, hdata⟩ := exists_of_mem_journal hw
    obtain ⟨line, hline, hr⟩ := List.mem_filterMap.1 hr
    obtain ⟨q, hq, -⟩ := hparse line hline
    rw [hq] at hr
    obtain ⟨rfl, -⟩ : q = r ∧ _ := by simpa [Except.toOption] using hr
    obtain ⟨-, -, -, -, hlt, -⟩ := bytes_of_parse hq
    rw [hdata]
    omega
  have hrecords := records_writeAll family hshort
  refine ⟨_, writeLines_records hreadable _ 0 (Hexadecimal.spells_chars [0, 0]) rfl, hrecords, fun hupper => ?_⟩
  rw [← journal_noticed fun line hline => (hparse line hline).imp fun r hr => ⟨hr.1, hupper line hline r hr.1⟩]
  exact hrecords

/-- Lines with digits of either case, a linear record and a data record that ends in upper case. -/
def mixedLines : List String := [":020000041000ea", ":0400100001020aab34"]

theorem writeHex_parsed_mixed :
    ∃ f, (new 0).writeHex mixedLines = (f, none) ∧ f.Records [⟨0x10000010, [1, 2, 0x0a, 0xab]⟩] := by
  have hbase : Record.parse ":020000041000ea" = .ok ⟨2, 0, linearType, [0x10, 0]⟩ := rfl
  have hdata : Record.parse ":0400100001020aab34" = .ok ⟨4, 0x10, dataType, [1, 2, 0x0a, 0xab]⟩ := rfl
  have hparse : ∀ line ∈ mixedLines, ∃ r, Record.parse line = .ok r ∧ (r.type = linearType → r.address = 0) :=
    List.forall_mem_cons.2 ⟨⟨_, hbase, fun _ => rfl⟩, List.forall_mem_singleton.2 ⟨_, hdata, fun h => absurd h (by decide)⟩⟩
  obtain ⟨f, hf, -, hupper⟩ := @writeHex_parsed mixedLines (by decide +kernel) hparse 0
  refine ⟨f, hf, hupper ?_⟩
  refine List.forall_mem_cons.2 ⟨fun r hr htype => ?_, List.forall_mem_singleton.2 fun _ _ _ => by decide +kernel⟩
  obtain rfl := Except.ok.inj (hbase.symm.trans hr)
  exact absurd htype (by decide)

/-- A line that the parser takes and the writer passes over. -/
theorem writeHex_lower :
    Record.parse ":0400100001020304e2" = .ok ⟨4, 0x10, dataType, [1, 2, 3, 4]⟩ ∧
      (new 0).writeHex [":0400100001020304e2"] = (new 0, none) ∧
      ¬ ((new 0).writeHex [":0400100001020304e2"]).1.Records (linearContents [":0400100001020304e2"]) := by
  have hparse : Record.parse ":0400100001020304e2" = .ok ⟨4, 0x10, dataType, [1, 2, 3, 4]⟩ := rfl
  have hwrite : (new 0).writeHex [":0400100001020304e2"] = (new 0, none) := rfl
  have hcontents : linearContents [":0400100001020304e2"] = [⟨0x10, [1, 2, 3, 4]⟩] := by decide +kernel
  refine ⟨hparse, hwrite, fun hrecords => ?_⟩
  rw [hwrite, hcontents] at hrecords
  have hbyte := (hrecords.reflects 0x10 1).2 (Journal.holds_of_byteAt? rfl)
  exact nomatch hbyte

end Uf2.BlockFile
end Firmware
