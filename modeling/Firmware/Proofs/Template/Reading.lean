import Firmware.Proofs.Template.Forms
import Firmware.Proofs.Template.LastRow

/-!
# Reading a template of record lines

What a template that has been read consists of, in terms of the entries of its file: the lines with the last row
completed, the place of the program behind it, and the place of the marker. `Reads` collects it once, and
`reads_of_parse` gives it for every template that is accepted.
-/

namespace Firmware

namespace Template

open IntelHex IntelHex.Entry List

/-- The address behind the last record of a template. -/
def stopOf (pre : List Entry) (d : Entry) : UInt32 :=
  baseAfter 0 pre + d.address.toUInt32 + d.data.length.toUInt32

/-- The entries of a template with its last row complete, up to the place of the program. -/
def headOf (pre : List Entry) (d : Entry) : List Entry := pre.map linear ++ lastRow d (stopOf pre d)

/-- A template that has been read from a file, which consists of `pre`, the last record `d` of the template, and
the rest `post`. -/
structure Reads (t : Target) (e : Extension) (pre : List Entry) (d : Entry) (post : List Entry)
    (x : Template) : Prop where
  hex : e.hex = (pre ++ d :: post).map line
  aligned : ∀ f ∈ pre ++ d :: post, f.Aligned
  ends : Ends t 0 pre d post
  lines : x.lines = (headOf pre d ++ post.map linear).map line
  codeStartLine : x.codeStartLine = (headOf pre d).length
  codeStart : x.codeStart = stopOf pre d + (missing (stopOf pre d)).toUInt32
  codeStartPadded : x.codeStartPadded = nextPage x.codeStart t.pageSize
  codePadding : x.codePadding = x.codeStartPadded - x.codeStart
  even : x.codePadding &&& 0xf = 0
  /-- The marker is a record of the file. One behind the template's end moves when a line is inserted. -/
  marker : ∃ (before : List Entry) (m : Entry) (after : List Entry),
    pre ++ d :: post = before ++ m :: after ∧ m.type = dataType ∧ m.data = blobMarker ∧
    x.jumpTable = baseAfter 0 before + m.address.toUInt32 ∧
    x.jumpTableLine = (if before.length ≤ pre.length then before.length
      else before.length + ((lastRow d (stopOf pre d)).length - 1) : Nat)
  sha : x.sha = e.sha
  target : x.target = t
  blob : x.blob = none
  boot : x.boot = none

/-! ## Record lines are nothing else -/

/-- Record lines are no boot image. -/
theorem parseLines_boot_line (es : List Entry) : ∃ f, BootImage.parseLines (es.map line) = .error f := by
  unfold BootImage.parseLines
  cases es with
  | nil => exact ⟨_, rfl⟩
  | cons e rest =>
    rw [map_cons, flatMap_cons, encode_line]
    exact ⟨_, rfl⟩

/-- A record line is no blob. -/
theorem parseBlob_line (t : Target) (e : Extension) (f : Entry) : ∃ g, parseBlob t e f.line = .error g := by
  have hdigits : Hexadecimal.decodeChars ((Text.trimChars f.line.toList).map Text.lower) = .error (.stray 0x3A) := by
    rw [trimChars_line, toList_line, map_cons]
    rfl
  unfold parseBlob
  dsimp only
  rw [hdigits]
  exact ⟨_, rfl⟩

theorem parseLines_of_parse {t : Target} {e : Extension} {es : List Entry} {x : Template}
    (hnative : t.isNative = true) (hhex : e.hex = es.map line) (h : parse t e = .ok x) :
    parseLines t e = .ok x := by
  unfold parse at h
  by_cases hboot : t.useBootImage = true
  · obtain ⟨f, hf⟩ := parseLines_boot_line es
    rw [if_pos hboot, parseBoot, hhex, hf] at h
    exact nomatch h
  · rw [if_neg hboot, hnative, if_neg (by decide)] at h
    rw [hhex] at h
    obtain _ | ⟨f, _ | ⟨g, _ | ⟨k, rest⟩⟩⟩ := es
    · exact nomatch h
    · obtain ⟨fault, hf⟩ := parseBlob_line t e f
      exact nomatch hf.symm.trans h
    · obtain ⟨fault, hf⟩ := parseBlob_line t e f
      exact nomatch hf.symm.trans h
    · exact h

/-! ## Record lines -/

/-- A template ends where its last row is complete, and the rest of the page is made of whole rows. -/
theorem of_endAt {t : Target} {lines : List String} {m : Mark} {x y : Ending}
    (hrow : completeRow lines m = .ok y) (h : endAt t lines m = .ok x) :
    x = y ∧ (nextPage x.address t.pageSize - x.address) &&& 0xf = 0 := by
  unfold endAt at h
  rw [hrow] at h
  obtain ⟨z, hz, h⟩ := exists_of_bind_eq_ok h
  obtain rfl := Except.ok.inj hz
  dsimp only at h
  by_cases heven : (nextPage y.address t.pageSize - y.address) &&& 0xf = 0
  · rw [if_neg (by simpa using heven)] at h
    obtain rfl := Except.ok.inj h
    exact ⟨rfl, heven⟩
  · rw [if_pos (by simpa using heven)] at h
    exact nomatch h

/-- **Reading.** A template that is accepted consists of the parts of its file. -/
theorem reads_of_parse {t : Target} {e : Extension} {es : List Entry} {x : Template}
    (hnative : t.isNative = true) (hhex : e.hex = es.map line) (h : parse t e = .ok x) :
    ∃ (pre : List Entry) (d : Entry) (post : List Entry), es = pre ++ d :: post ∧ Reads t e pre d post x := by
  obtain ⟨lines, stop, marker, ending, hfrom⟩ := exists_fromLines (parseLines_of_parse hnative hhex h)
  have hlines := hfrom.read
  rw [hhex] at hlines
  obtain ⟨hall, rfl⟩ := of_mapM_withUpperAddress hlines
  -- a new scan has neither an end nor a marker
  obtain ⟨hnone, -⟩ | ⟨pre, d, post, rfl, hends, rfl, -⟩ := Scan.run_stop hall rfl hfrom.stop
  · exact nomatch hnone
  obtain hnone | ⟨before, m, after, hsplit, hm, hm', rfl⟩ := Scan.run_marker hall hfrom.marker
  · exact nomatch hnone
  rw [show (({} : Scan).upper) * 65536 = 0 from rfl] at hends hfrom
  have hd := hends.data
  have hmap : (pre ++ d :: post).map linear = pre.map linear ++ d :: post.map linear := by
    rw [map_append, map_cons, linear_of_data hd]
  have hbase : (baseAfter 0 pre).toNat % 65536 = 0 := baseAfter_mod (fun f hf => hall f (mem_append_left _ hf)) rfl
  have hrow := completeRow_line (pre.map linear) d (post.map linear)
    (by rw [toNat_base_add hbase]; omega : (baseAfter 0 pre + d.address.toUInt32).toNat % 16 = _)
    (rfl : stopOf pre d = _)
  rw [length_map, ← hmap] at hrow
  have hending := hfrom.ends
  rw [Nat.zero_add] at hending
  obtain ⟨rfl, heven⟩ := of_endAt hrow hending
  have hlength := length_lastRow d (stopOf pre d)
  refine ⟨pre, d, post, rfl, ?_⟩
  constructor
  case hex => exact hhex
  case aligned => exact hall
  case ends => exact hends
  case lines => exact hfrom.lines
  case codeStartLine =>
    rw [hfrom.startLine]
    unfold headOf
    rw [length_append, length_map]
    dsimp only
    omega
  case codeStart => exact hfrom.start
  case codeStartPadded => exact hfrom.padded
  case codePadding => exact hfrom.padding
  case even =>
    rw [hfrom.padding, hfrom.padded, hfrom.start]
    exact heven
  case marker =>
    refine ⟨before, m, after, hsplit, hm, hm', hfrom.table, ?_⟩
    rw [hfrom.tableLine]
    unfold Ending.shift
    simp only [Nat.zero_add, Bool.and_eq_true, decide_eq_true_eq]
    -- only a line of its own for the zeros moves the lines behind it
    obtain hone | htwo := hlength
    · rw [hone, if_neg (fun hand => absurd hand.1 (by decide))]
      simp
    · rw [htwo]
      by_cases hle : before.length ≤ pre.length
      · rw [if_neg (fun hand => absurd hand.2 (by omega)), if_pos hle]
      · rw [if_pos ⟨rfl, by omega⟩, if_neg hle]
  case sha => exact hfrom.sha
  case target => exact hfrom.target
  case blob => exact hfrom.blob
  case boot => exact hfrom.boot

/-! ## The parts of a template -/

/-- What the last record of a template writes. -/
def lastWrite (pre : List Entry) (d : Entry) : Write := ⟨baseAfter 0 pre + d.address.toUInt32, d.data⟩

namespace Reads

variable {t : Target} {e : Extension} {pre : List Entry} {d : Entry} {post : List Entry} {x : Template}

section

variable (h : Reads t e pre d post x)
include h

theorem take_lines : x.lines.take x.codeStartLine.toNat = (headOf pre d).map line := by
  rw [h.lines, h.codeStartLine, Int.toNat_natCast, map_append, take_left' (length_map ..)]

theorem drop_lines : x.lines.drop x.codeStartLine.toNat = (post.map linear).map line := by
  rw [h.lines, h.codeStartLine, Int.toNat_natCast, map_append, drop_left' (length_map ..)]

theorem baseAfter_headOf (base : UInt32) : baseAfter base (headOf pre d) = baseAfter base pre := by
  have haligned := fun f hf => h.aligned f (mem_append_left _ hf)
  unfold headOf
  rw [baseAfter_append, (journal_linear haligned base).2, baseAfter_lastRow h.ends.data]

theorem journal_headOf :
    journal 0 (headOf pre d) = journal 0 pre ++ journal (baseAfter 0 pre) (lastRow d (stopOf pre d)) := by
  have haligned := fun f hf => h.aligned f (mem_append_left _ hf)
  unfold headOf
  rw [Entry.journal_append, (journal_linear haligned 0).1, (journal_linear haligned 0).2]

theorem contents_hex : contents e.hex = journal 0 pre ++ lastWrite pre d :: journal (baseAfter 0 pre) post := by
  rw [h.hex, contents_map_line, Entry.journal_append, journal_data h.ends.data]
  rfl

theorem contents_lines : contents x.lines = journal 0 (headOf pre d) ++ journal (baseAfter 0 pre) post := by
  have haligned : ∀ f ∈ post, f.Aligned := fun f hf =>
    h.aligned f (mem_append_right _ (mem_cons_of_mem d hf))
  rw [h.lines, contents_map_line, Entry.journal_append, h.baseAfter_headOf, (journal_linear haligned _).1]

theorem base_mod : (baseAfter 0 pre).toNat % 65536 = 0 :=
  baseAfter_mod (fun f hf => h.aligned f (mem_append_left _ hf)) rfl

/-- The last record ends where it starts and its data ends, counted without wrapping. -/
theorem stop_lastWrite : (lastWrite pre d).stop = (baseAfter 0 pre).toNat + d.address.toNat + d.data.length := by
  show (baseAfter 0 pre + d.address.toUInt32).toNat + d.data.length = _
  rw [toNat_base_add h.base_mod]

theorem toNat_stopOf : (stopOf pre d).toNat = (lastWrite pre d).stop % 2 ^ 32 := by
  rw [h.stop_lastWrite]
  exact toNat_stop_mod h.base_mod rfl

/-- The row in which a template ends is completed to the program's place. -/
theorem stop_add_missing :
    (lastWrite pre d).stop + missing (stopOf pre d) = ((lastWrite pre d).stop + 15) / 16 * 16 := by
  have hlimit : (2 : Nat) ^ 32 = 4294967296 := rfl
  unfold missing
  rw [h.toNat_stopOf]
  omega

/-- The program goes to the first row behind the template. -/
theorem toNat_codeStart : x.codeStart.toNat = ((lastWrite pre d).stop + 15) / 16 * 16 % 2 ^ 32 := by
  have hmissing : (missing (stopOf pre d)).toUInt32.toNat = missing (stopOf pre d) :=
    UInt32.toNat_ofNat_of_lt' (Nat.lt_trans (missing_lt _) (by decide))
  rw [h.codeStart, UInt32.toNat_add, hmissing, h.toNat_stopOf, Nat.mod_add_mod, h.stop_add_missing]

end

end Reads

end Template
end Firmware
