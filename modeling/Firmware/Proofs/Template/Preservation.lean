import Firmware.Proofs.Bytes
import Firmware.Proofs.Template.Reading

/-!
# Reading keeps the contents of a template

A template that has been read writes what its file writes, and zeros where bytes were missing in the last row. The
program's place follows from the end of the last record: the first row behind it, and from there the next page.
Addresses have 32 bits, so the page behind the last one of flash is the first one.
-/

namespace Firmware

/-- Whether a write stays within 64 KB. -/
def Write.InSegment (w : Write) : Prop := w.address.toNat % 65536 + w.data.length ≤ 65536

instance (w : Write) : Decidable w.InSegment := inferInstanceAs (Decidable (_ ≤ _))

theorem Write.InSegment.stop_le {w : Write} (h : w.InSegment) : w.stop ≤ 2 ^ 32 := by
  have hlt := w.address.toNat_lt
  unfold Write.InSegment at h
  unfold Write.stop
  omega

namespace Template

open IntelHex IntelHex.Entry

/-! ## Pages -/

/-- The first address of the next page, where page sizes are powers of two. -/
theorem toNat_nextPage {address page : UInt32} {k : Nat} (h : page.toNat = 2 ^ k) :
    (nextPage address page).toNat = (address.toNat - address.toNat % page.toNat + page.toNat) % 2 ^ 32 := by
  unfold nextPage
  rw [UInt32.toNat_add, toNat_and_not_mask h]

/-! ## The contents -/

namespace Reads

variable {t : Target} {e : Extension} {pre : List Entry} {d : Entry} {post : List Entry} {x : Template}

theorem length_of_inSegment (h : Reads t e pre d post x) (hin : (lastWrite pre d).InSegment) :
    d.address.toNat + d.data.length ≤ 65536 := by
  have hmod := h.base_mod
  have haddress := d.address.toNat_lt
  have hlast : (baseAfter 0 pre + d.address.toUInt32).toNat % 65536 + d.data.length ≤ 65536 := hin
  rw [toNat_base_add h.base_mod] at hlast
  omega

section

variable (h : Reads t e pre d post x) (hordered : (contents e.hex).Ordered)
include h hordered

/-- In a template with growing addresses, the last record lies between what comes in front of it and what
follows. -/
theorem between : (∀ w ∈ journal 0 pre, w.stop ≤ (lastWrite pre d).address.toNat) ∧
    (∀ w ∈ journal (baseAfter 0 pre) post, (lastWrite pre d).stop ≤ w.address.toNat) := by
  rw [h.contents_hex] at hordered
  obtain ⟨-, hrest, hcross⟩ := List.pairwise_append.1 hordered
  constructor
  · intro w hw
    exact (hcross w hw _ (List.mem_cons_self ..)).2
  · intro w hw
    exact ((List.pairwise_cons.1 hrest).1 w hw).2

theorem byteAt?_contents (hin : (lastWrite pre d).InSegment) (a : UInt32) :
    (contents x.lines).byteAt? a = ((contents e.hex).byteAt? a).or (if (lastWrite pre d).stop ≤ a.toNat ∧
        a.toNat < (lastWrite pre d).stop + missing (stopOf pre d) then some 0 else none) := by
  have hinside := h.length_of_inSegment hin
  have hfits : (lastWrite pre d).stop + missing (stopOf pre d) ≤ 2 ^ 32 := by
    have hbase := (baseAfter 0 pre).toNat_lt
    have hmod := h.base_mod
    have hlimit : (2 : Nat) ^ 32 = 4294967296 := rfl
    rw [h.stop_add_missing, h.stop_lastWrite]
    omega
  have hrow : (journal (baseAfter 0 pre) (lastRow d (stopOf pre d))).byteAt? a =
      ((lastWrite pre d).byteAt? a).or (if (lastWrite pre d).stop ≤ a.toNat ∧
        a.toNat < (lastWrite pre d).stop + missing (stopOf pre d) then some 0 else none) :=
    (byteAt?_journal_lastRow h.ends.data h.base_mod hinside rfl a).trans (Write.byteAt?_append_zeros hfits a)
  rw [h.contents_lines, h.contents_hex, h.journal_headOf, Journal.byteAt?_append, Journal.byteAt?_append,
    Journal.byteAt?_append, Journal.byteAt?_cons, hrow]
  by_cases hzero : (lastWrite pre d).stop ≤ a.toNat ∧ a.toNat < (lastWrite pre d).stop + missing (stopOf pre d)
  · -- where a zero goes, the template in front of the last record has nothing
    have hfront : (journal 0 pre).byteAt? a = none := by
      apply Journal.byteAt?_eq_none
      intro w hw
      have hstop := (h.between hordered).1 w hw
      have haddress := (lastWrite pre d).address.toNat_lt
      have hlast : (lastWrite pre d).address.toNat ≤ (lastWrite pre d).stop := Nat.le_add_right ..
      exact Write.byteAt?_eq_none (Nat.le_of_lt (Nat.lt_of_le_of_lt hstop haddress)) (.inr (by omega))
    rw [hfront, Option.or_none, Option.or_none, ← Option.or_assoc]
  · rw [if_neg hzero, Option.or_none, Option.or_none, Option.or_assoc]

/-- What stands in front of the program's place ends there at the latest, counted without wrapping. -/
theorem stop_le_of_mem_head {w : Write}
    (hw : w ∈ journal 0 (headOf pre d)) : w.stop ≤ ((lastWrite pre d).stop + 15) / 16 * 16 := by
  rw [h.journal_headOf] at hw
  obtain hw | hw := List.mem_append.1 hw
  · have hfront := (h.between hordered).1 w hw
    have hlast : (lastWrite pre d).address.toNat ≤ (lastWrite pre d).stop := Nat.le_add_right ..
    omega
  · rw [h.stop_lastWrite]
    exact Template.stop_le_of_mem_lastRow h.ends.data h.base_mod rfl hw

/-- The writes in front of the program's place do not overlap. -/
theorem apart_head (hin : (lastWrite pre d).InSegment) : (journal 0 (headOf pre d)).Apart := by
  obtain ⟨hrow, hstart⟩ :=
    apart_journal_lastRow h.ends.data h.base_mod (h.length_of_inSegment hin) (rfl : stopOf pre d = _)
  rw [h.journal_headOf]
  -- in front of the last row, within it, and across
  refine List.pairwise_append.2 ⟨?_, hrow, ?_⟩
  · rw [h.contents_hex] at hordered
    exact Journal.Ordered.apart (List.pairwise_append.1 hordered).1
  · intro v hv w hw
    exact Nat.le_trans ((h.between hordered).1 v hv) (hstart w hw)

end

theorem codePadding_mod (h : Reads t e pre d post x) : x.codePadding.toNat % 16 = 0 := by
  have heven := congrArg UInt32.toNat h.even
  rw [UInt32.toNat_and] at heven
  rw [← Nat.and_two_pow_sub_one_eq_mod _ 4]
  exact heven

/-- The padding fills the page in which the program's place lies. -/
theorem toNat_codePadding (h : Reads t e pre d post x) {k : Nat} (hpage : t.pageSize.toNat = 2 ^ k) :
    x.codePadding.toNat = t.pageSize.toNat - x.codeStart.toNat % t.pageSize.toNat := by
  have hpos : 0 < t.pageSize.toNat := by
    rw [hpage]
    exact Nat.two_pow_pos k
  have hlimit : (2 : Nat) ^ 32 = 4294967296 := rfl
  have hmod := Nat.mod_lt x.codeStart.toNat hpos
  have hle := Nat.mod_le x.codeStart.toNat t.pageSize.toNat
  have hsize := t.pageSize.toNat_lt
  have hstart := x.codeStart.toNat_lt
  rw [h.codePadding, h.codeStartPadded, UInt32.toNat_sub, toNat_nextPage hpage]
  omega

end Reads

/-- A native target whose pages are made of rows, and a template of record lines with growing addresses. -/
structure Regular (t : Target) (e : Extension) (es : List Entry) : Prop where
  native : t.isNative = true
  page : ∃ k, t.pageSize.toNat = 2 ^ k
  rows : 16 ≤ t.pageSize.toNat
  hex : e.hex = es.map line
  ordered : (contents e.hex).Ordered

theorem Regular.page_mod {t : Target} {e : Extension} {es : List Entry} (h : Regular t e es) :
    t.pageSize.toNat % 16 = 0 := by
  obtain ⟨k, hk⟩ := h.page
  have hrows := h.rows
  rw [hk] at hrows ⊢
  have hle : 4 ≤ k := by
    by_cases hle : 4 ≤ k
    · exact hle
    · have hlt : 2 ^ k < 2 ^ 4 := Nat.pow_lt_pow_right (by decide) (by omega)
      omega
  exact Nat.mod_eq_zero_of_dvd (Nat.pow_dvd_pow 2 hle)

/-- Whether `next` is the least multiple of `n` above `a`. -/
def IsNextMultiple (n a next : Nat) : Prop := n ∣ next ∧ a < next ∧ ∀ q, n ∣ q → a < q → next ≤ q

theorem isNextMultiple_of_pos {n : Nat} (h : 0 < n) (a : Nat) : IsNextMultiple n a (a - a % n + n) := by
  have hdiv := Nat.div_add_mod a n
  have hmod := Nat.mod_lt a h
  have hmul : a - a % n + n = n * (a / n + 1) := by
    rw [Nat.mul_succ]
    omega
  refine ⟨⟨_, hmul⟩, by omega, ?_⟩
  rintro _ ⟨c, rfl⟩ hlt
  have hc : a / n < c := Nat.div_lt_of_lt_mul hlt
  rw [hmul]
  exact Nat.mul_le_mul_left n hc

/-- **Reading keeps the contents.** What a template of record lines writes once it is read is what its file
writes, and zeros behind the last record of the template up to the program's place where the file writes nothing.
The place is the first row behind that record, and the program is linked at the next page, whose address is counted
modulo the size of flash. In the lines of the template, what stands in front of the place ends there, and what
follows starts behind the last record. -/
theorem contents_of_parse {t : Target} {e : Extension} {es : List Entry} {x : Template}
    (hregular : Regular t e es)
    (hin : ∀ w ∈ contents e.hex, w.InSegment ∧ w.stop + t.pageSize.toNat < 2 ^ 32)
    (hparse : parse t e = .ok x) :
    ∃ (pre : List Entry) (d : Entry) (post : List Entry), es = pre ++ d :: post ∧ Ends t 0 pre d post ∧
      (∀ a, (contents x.lines).byteAt? a = ((contents e.hex).byteAt? a).or
        (if (lastWrite pre d).stop ≤ a.toNat ∧ a.toNat < x.codeStart.toNat then some 0 else none)) ∧
      (lastWrite pre d).stop ≤ x.codeStart.toNat ∧ x.codeStart.toNat < (lastWrite pre d).stop + 16 ∧
      x.codeStart.toNat % 16 = 0 ∧
      (∃ next, IsNextMultiple t.pageSize.toNat x.codeStart.toNat next ∧
        x.codeStartPadded.toNat = next % 2 ^ 32 ∧ x.codePadding.toNat = next - x.codeStart.toNat) ∧
      x.codePadding.toNat % 16 = 0 ∧
      (∀ w ∈ contents (x.lines.take x.codeStartLine.toNat), w.stop ≤ x.codeStart.toNat) ∧
      (∃ w, (contents (x.lines.take x.codeStartLine.toNat)).getLast? = some w ∧
        w.stop = x.codeStart.toNat) ∧
      ∃ tail, contents x.lines = contents (x.lines.take x.codeStartLine.toNat) ++ tail ∧
        ∀ w ∈ tail, (lastWrite pre d).stop ≤ w.address.toNat := by
  obtain ⟨pre, d, post, rfl, h⟩ := reads_of_parse hregular.native hregular.hex hparse
  obtain ⟨k, hk⟩ := hregular.page
  have hrows := hregular.rows
  have hpage := hregular.page_mod
  have hlimit : (2 : Nat) ^ 32 = 4294967296 := rfl
  obtain ⟨hsegment, hbelow⟩ := hin (lastWrite pre d) (by
    rw [h.contents_hex]
    exact List.mem_append_right _ (List.mem_cons_self ..))
  have hrow := h.stop_add_missing
  have hstart : x.codeStart.toNat = (lastWrite pre d).stop + missing (stopOf pre d) := by
    rw [h.toNat_codeStart, hrow]
    omega
  have hheadlines : contents (x.lines.take x.codeStartLine.toNat) = journal 0 (headOf pre d) := by
    rw [h.take_lines, contents_map_line]
  refine ⟨pre, d, post, rfl, h.ends, ?_, by omega, ?_, by omega, ?_, ?_, ?_, ?_, ?_⟩
  · intro a
    rw [h.byteAt?_contents hregular.ordered hsegment, hstart]
  · have hmissing := missing_lt (stopOf pre d)
    omega
  · -- the program is linked at the next page
    refine ⟨_, isNextMultiple_of_pos (by omega) x.codeStart.toNat, ?_, ?_⟩
    · rw [h.codeStartPadded, toNat_nextPage hk]
    · have hmod := Nat.mod_lt x.codeStart.toNat (by omega : 0 < t.pageSize.toNat)
      have hle := Nat.mod_le x.codeStart.toNat t.pageSize.toNat
      rw [h.toNat_codePadding hk]
      omega
  · exact h.codePadding_mod
  · -- the head of the template ends there
    rw [hheadlines]
    intro w hw
    have hle := h.stop_le_of_mem_head hregular.ordered hw
    omega
  · rw [hheadlines, h.journal_headOf, List.getLast?_append]
    obtain ⟨w, hw, hstop⟩ := getLast?_journal_lastRow h.ends.data h.base_mod
      (h.length_of_inSegment hsegment) (rfl : stopOf pre d = _)
    rw [hw]
    refine ⟨w, rfl, ?_⟩
    rw [hstop, hstart, h.stop_lastWrite]
  · -- and its tail starts behind the last record
    rw [hheadlines, h.contents_lines]
    exact ⟨_, rfl, (h.between hregular.ordered).2⟩

/-- A native target with pages of 4 KB. -/
def pagedTarget (flashUsableEnd : UInt32) : Target where
  nativeType := "thumb"
  pageSize := 0x1000
  flashUsableEnd
  flashChecksumAddress := 0
  shortPointers := false
  runtimeIsArm := false
  useUf2 := false
  useBootImage := false
  family := 0
  moveHexEnd := false
  vtableShift := 2
  gc := false
  noSourceInFlash := false
  outputName := "built/codal.hex"
  sizeReport := false

/-- A target with pages of one row. -/
def rowTarget (flashUsableEnd : UInt32) : Target := { pagedTarget flashUsableEnd with pageSize := 16 }

/-- An extension without functions. -/
def bareExtension (es : List Entry) : Extension where
  sha := "0123456789abcdef"
  template := "hex"
  hex := es.map line
  commBase := 0x20000000
  disabledBy := ""
  functions := []

/-- A file behind a segment record, whose last record fits exactly below the end of usable flash. What follows
it starts in the row that the template ends in. -/
def splitFile : List Entry :=
  [{ type := segmentType, address := 0, data := [0x10, 0x00], length_lt := by decide, address_eq := fun _ => rfl },
   ofRow 0x0100 blobMarker, ofRow 0x0110 (List.replicate 12 0xAA),
   ofRow 0x011C [1, 2], fileEnd]

theorem contents_of_parse_split :
    ∃ x, parse (pagedTarget 0x1011C) (bareExtension splitFile) = .ok x ∧
      ∃ (pre : List Entry) (d : Entry) (post : List Entry), splitFile = pre ++ d :: post ∧
        Ends (pagedTarget 0x1011C) 0 pre d post ∧
        ∀ a, (contents x.lines).byteAt? a = ((contents (splitFile.map line)).byteAt? a).or
          (if (lastWrite pre d).stop ≤ a.toNat ∧ a.toNat < x.codeStart.toNat then some 0 else none) := by
  have hfile : (parse (pagedTarget 0x1011C) (bareExtension splitFile)).isOk = true ∧ (journal 0 splitFile).Ordered ∧
      ∀ w ∈ journal 0 splitFile, w.InSegment ∧ w.stop + 0x1000 < 2 ^ 32 := by decide +kernel
  obtain ⟨hok, hordered, hin⟩ := hfile
  rw [← contents_map_line] at hordered hin
  obtain ⟨x, hparse⟩ := exists_of_isOk hok
  have hregular : Regular (pagedTarget 0x1011C) (bareExtension splitFile) splitFile :=
    ⟨by decide, ⟨12, rfl⟩, by decide, rfl, hordered⟩
  obtain ⟨pre, d, post, hsplit, hends, hbytes, -⟩ := contents_of_parse hregular hin hparse
  exact ⟨x, hparse, pre, d, post, hsplit, hends, hbytes⟩

/-- A file whose last record ends in the last but one page of flash, eight bytes in front of the last one. -/
def highFile : List Entry := [ofUpper 0xFFFF, ofRow 0xEFE8 blobMarker, fileEnd]

/-- The page behind the last one of flash has no address of its own. -/
theorem codeStartPadded_wraps :
    ∃ x, Regular (pagedTarget 0) (bareExtension highFile) highFile ∧
      (∀ w ∈ contents (highFile.map line), w.InSegment ∧ w.stop + 0x1000 < 2 ^ 32) ∧
      parse (pagedTarget 0) (bareExtension highFile) = .ok x ∧
      ¬ IsNextMultiple 0x1000 x.codeStart.toNat x.codeStartPadded.toNat := by
  have hfile : (parse (pagedTarget 0) (bareExtension highFile)).toOption.map (·.codeStartPadded) = some 0 ∧
      (journal 0 highFile).Ordered ∧ ∀ w ∈ journal 0 highFile, w.InSegment ∧ w.stop + 0x1000 < 2 ^ 32 := by
    decide +kernel
  obtain ⟨hread, hordered, hin⟩ := hfile
  rw [← contents_map_line] at hordered hin
  obtain ⟨x, hparse, hpadded⟩ := exists_of_map_toOption hread
  refine ⟨x, ⟨by decide, ⟨12, rfl⟩, by decide, rfl, hordered⟩, hin, hparse, ?_⟩
  rintro ⟨-, hlt, -⟩
  rw [hpadded] at hlt
  exact absurd hlt (Nat.not_lt_zero _)

end Template
end Firmware
