import Firmware.Proofs.Image.Rewriting
import Firmware.Proofs.Image.StateLines
import Firmware.Proofs.Template.Bounds

/-!
# The lines in front of a program

Linking changes lines of a template in front of the program: placeholders are replaced, and the header of the program
takes the place of the marker. All of these are lines of data before and after (`Rewritten`, `EndsAt.not_setsBase`). So
the base that is in force behind them is the one that it was in the template, and where none of them ends the file none
does in the image (`leadingRecords_spec`). This holds for templates whose lines are of any form.
-/

namespace Firmware

namespace IntelHex

/-- The records among lines. -/
def recordsOf (lines : List String) : List Record := lines.filterMap fun line => (Record.parse line).toOption

theorem recordsOf_append (front back : List String) : recordsOf (front ++ back) = recordsOf front ++ recordsOf back :=
  List.filterMap_append ..

/-- Whether a line is a record that sets a base. -/
def SetsBase (line : String) : Prop := ∃ r, Record.parse line = .ok r ∧ r.base? ≠ none

/-! ## Lines of data -/

section Data

variable {line line' : String} {lines lines' : List String} {b : Bytes}

theorem not_setsBase_of_type (hbytes : bytes line = .ok b) (htype : b[3]? = some dataType) : ¬ SetsBase line := by
  rintro ⟨r, hr, hbase⟩
  have hdata : r.type = dataType := Option.some.inj ((type_of_parse hr hbytes).symm.trans htype)
  refine hbase ?_
  unfold Record.base?
  rw [hdata, if_neg (by decide : dataType ≠ segmentType), if_neg (by decide : dataType ≠ linearType), ite_self]

theorem not_setsBase_of_dataAddress? (h : (dataAddress? line).isSome) : ¬ SetsBase line := by
  rintro ⟨r, hr, hbase⟩
  obtain ⟨b, hbytes, -⟩ := exists_of_bind_eq_ok hr
  exact not_setsBase_of_type hbytes (type_of_dataAddress? h hbytes) ⟨r, hr, hbase⟩

theorem isEnd_of_type (hbytes : bytes line = .ok b) (htype : b[3]? = some dataType) : isEnd line = false := by
  rw [Bool.eq_false_iff]
  intro hend
  rw [type_of_isEnd hend hbytes] at htype
  exact absurd (Option.some.inj htype) (by decide : endType ≠ dataType)

theorem type_of_holdsData (h : holdsData b = true) : b[3]? = some dataType := by
  unfold holdsData at h
  rw [Bool.and_eq_true, beq_iff_eq] at h
  exact h.2

theorem bytes_data (address : UInt16) (data : Bytes) :
    ∃ b, bytes (renderRecord dataType address data) = .ok b ∧ b[3]? = some dataType :=
  ⟨_, bytes_render _, rfl⟩

/-- Whether a line has the same say on bases and on the end of a file as another one that stood in its place. -/
structure SameRole (line line' : String) : Prop where
  base : line = line' ∨ ¬ SetsBase line ∧ ¬ SetsBase line'
  ends : isEnd line = false → isEnd line' = false

theorem SameRole.refl (line : String) : SameRole line line := ⟨.inl rfl, id⟩

theorem Rewritten.sameRole (h : Rewritten line line') : SameRole line line' := by
  cases h with
  | same => exact .refl line
  | data b b' hbytes hdata hlength hhead =>
    have htype := type_of_holdsData (Rewritten.holdsData_append hdata hlength hhead (-(Bytes.sum b')))
    exact ⟨.inr ⟨not_setsBase_of_type hbytes (type_of_holdsData hdata), not_setsBase_of_type (bytes_render b') htype⟩,
      fun _ => isEnd_of_type (bytes_render b') htype⟩

theorem sameRole_data (hline : ¬ SetsBase line) (address : UInt16) (data : Bytes) :
    SameRole line (renderRecord dataType address data) := by
  obtain ⟨b, hbytes, htype⟩ := bytes_data address data
  exact ⟨.inr ⟨hline, not_setsBase_of_type hbytes htype⟩, fun _ => isEnd_of_type hbytes htype⟩

theorem baseAfter_of_not_setsBase (h : ¬ SetsBase line) (base : UInt32) :
    Record.baseAfter base (recordsOf [line]) = base := by
  unfold recordsOf
  rw [List.filterMap_cons, List.filterMap_nil]
  cases hparse : Record.parse line with
  | error f => rfl
  | ok r =>
    have hnone : r.base? = none := Classical.not_not.1 fun hsome => h ⟨r, hparse, hsome⟩
    show Record.baseAfter (r.base?.getD base) [] = base
    rw [hnone]
    rfl

section

variable (h : List.Forall₂ SameRole lines lines')
include h

/-- Lines in the same roles leave the same base in force. -/
theorem baseAfter_of_sameRole (base : UInt32) :
    Record.baseAfter base (recordsOf lines') = Record.baseAfter base (recordsOf lines) := by
  induction h generalizing base with
  | nil => rfl
  | @cons line line' rest rest' hline _ ih =>
    rw [← List.singleton_append, recordsOf_append, Record.baseAfter_append, ih,
      ← List.singleton_append (l := rest), recordsOf_append, Record.baseAfter_append]
    obtain rfl | ⟨hno, hno'⟩ := hline.base
    · rfl
    · rw [baseAfter_of_not_setsBase hno, baseAfter_of_not_setsBase hno']

theorem isEnd_of_sameRole (hlines : ∀ line ∈ lines, isEnd line = false) : ∀ line ∈ lines', isEnd line = false := by
  induction h with
  | nil => exact hlines
  | cons hline _ ih =>
    obtain ⟨hfirst, hrest⟩ := List.forall_mem_cons.1 hlines
    exact List.forall_mem_cons.2 ⟨hline.ends hfirst, ih hrest⟩

/-- A line of data may be put in the place of one that sets no base. -/
theorem sameRole_set {i : Nat}
    (hi : ∀ line, lines[i]? = some line → ¬ SetsBase line) (address : UInt16) (data : Bytes) :
    List.Forall₂ SameRole lines (lines'.set i (renderRecord dataType address data)) := by
  induction h generalizing i with
  | nil => exact .nil
  | cons hline hrest ih =>
    cases i with
    | zero => exact .cons (sameRole_data (hi _ rfl) address data) hrest
    | succ i => exact .cons hline (ih hi)

end

end Data

end IntelHex

/-! ## Templates -/

namespace Template

open IntelHex

variable {t : Target} {e : Extension} {x : Template} {lines : List String}

/-- A template that is made of record lines was read from record lines. -/
theorem parseLines_of_hasLines (hlines : Image.HasLines x) (h : parse t e = .ok x) : parseLines t e = .ok x := by
  obtain ⟨hboot, hvm, hblob⟩ := hlines
  cases form_of_parse h with
  | boot img segment huse h => exact nomatch h.boot.symm.trans hboot
  | vm hnative heq =>
    subst heq
    exact nomatch (congrArg not hnative).symm.trans hvm
  | blob b data hvm hfew h => exact nomatch h.blob.symm.trans hblob
  | lines hvm hread => exact hread

/-- What a template of record lines has from the end of its last row. -/
structure EndsAt (t : Target) (x : Template) (read : List String) (m marker : Mark) (ending : Ending) : Prop where
  row : completeRow read m = .ok ending
  lines : x.lines = ending.lines
  start : x.codeStart = ending.address
  line : x.codeStartLine = ending.lastLine + 1
  padded : x.codeStartPadded = nextPage x.codeStart t.pageSize
  padding : x.codePadding = x.codeStartPadded - x.codeStart
  rows : x.codePadding &&& 0xf = 0
  table : x.jumpTableLine = ending.shift marker.line
  last : m.IsOn read
  marker : marker.IsOn read

theorem exists_endsAt (h : parseLines t e = .ok x) : ∃ lines m marker ending, EndsAt t x lines m marker ending := by
  obtain ⟨lines, m, marker, ending, h⟩ := exists_fromLines h
  have hrow := completeRow_of_endAt h.ends
  have hvalid := valid_run t lines
  have hrows : x.codePadding &&& 0xf = 0 := by
    rw [h.padding, h.padded, h.start]
    exact (of_endAt hrow h.ends).2
  exact ⟨lines, m, marker, ending, hrow, h.lines, h.start, h.startLine, h.padded, h.padding, hrows, h.tableLine,
    hvalid.stop m h.stop, hvalid.marker marker h.marker⟩

theorem not_setsBase_render {b : Bytes} (h : b[3]? = some dataType) : ¬ SetsBase (render b) := by
  have hlt := (List.getElem?_eq_some_iff.1 h).1
  refine not_setsBase_of_type (bytes_render b) ?_
  rw [List.getElem?_append_left hlt, h]

/-- Completing a row leaves the lines, inserts one behind that of the last record, or puts one of data in its place. -/
theorem completeRow_cases {m : Mark} {ending : Ending} (hm : m.IsOn lines) (h : completeRow lines m = .ok ending) :
    (ending.lines = lines ∧ ending.inserted = false) ∨
    (∃ filler, ending.lines = lines.insertIdx (m.line + 1) filler ∧ ending.lastLine = m.line + 1 ∧
      ending.inserted = true) ∨
    ∃ full : Bytes, full[3]? = some dataType ∧ ending.lines = lines.set m.line (render full) ∧
      ending.inserted = false := by
  obtain ⟨line, hline, haddress⟩ := hm
  unfold completeRow at h
  rw [List.getD_eq_getElem?_getD, hline, Option.getD_some] at h
  obtain ⟨b, hbytes, h⟩ := exists_of_bind_eq_ok h
  have htype := type_of_dataAddress? haddress hbytes
  split at h
  next n hi low rest =>
    dsimp only at h
    split at h
    next =>
      obtain rfl := Except.ok.inj h
      exact .inl ⟨rfl, rfl⟩
    next =>
      split at h
      next =>
        obtain rfl := Except.ok.inj h
        exact .inr (.inl ⟨_, rfl, rfl, rfl⟩)
      next =>
        split at h
        next => exact nomatch h
        next =>
          have hending := (Except.ok.inj h).symm
          refine .inr (.inr ⟨_, ?_, congrArg Ending.lines hending, congrArg Ending.inserted hending⟩)
          -- the type stays, or a zero takes its place where the line ended with it
          cases rest with
          | nil => exact nomatch htype
          | cons type rest =>
            cases rest with
            | nil => rfl
            | cons sum rest => exact htype
  next => exact nomatch h

/-- The line of the marker still sets no base when the last row is complete. -/
theorem EndsAt.not_setsBase {read : List String} {m marker : Mark} {ending : Ending}
    (h : EndsAt t x read m marker ending) {line : String} (hline : x.lines[x.jumpTableLine.toNat]? = some line) :
    ¬ SetsBase line := by
  obtain ⟨own, hown, haddress⟩ := h.marker
  have hno := not_setsBase_of_dataAddress? haddress
  rw [h.lines, h.table, Int.toNat_natCast, Ending.shift] at hline
  obtain ⟨heq, hinserted⟩ | ⟨filler, heq, hlast, hinserted⟩ | ⟨full, htype, heq, hinserted⟩ :=
    completeRow_cases h.last h.row
  · rw [heq, hinserted, Bool.false_and, if_neg Bool.false_ne_true, hown] at hline
    rwa [← Option.some.inj hline]
  · -- the line has moved if it stood behind the one that was inserted
    rw [heq, hlast, hinserted, Bool.true_and, List.getElem?_insertIdx] at hline
    by_cases hbehind : m.line + 1 ≤ marker.line
    · rw [decide_eq_true hbehind, if_pos rfl, if_neg (by omega), if_neg (by omega), Nat.add_sub_cancel, hown] at hline
      rwa [← Option.some.inj hline]
    · rw [decide_eq_false hbehind, if_neg Bool.false_ne_true, if_pos (by omega), hown] at hline
      rwa [← Option.some.inj hline]
  · rw [heq, hinserted, Bool.false_and, if_neg Bool.false_ne_true, List.getElem?_set] at hline
    by_cases hsame : m.line = marker.line
    · rw [if_pos hsame] at hline
      split at hline
      next =>
        rw [← Option.some.inj hline]
        exact not_setsBase_render htype
      next => exact nomatch hline
    · rw [if_neg hsame, hown] at hline
      rwa [← Option.some.inj hline]

/-- The bits of an address within a mask and without it add up. -/
theorem and_add_and_not (a m : UInt32) : (a &&& m) + (a &&& ~~~m) = a := by
  apply UInt32.eq_of_toBitVec_eq
  rw [UInt32.toBitVec_add, UInt32.toBitVec_and, UInt32.toBitVec_and, UInt32.toBitVec_not,
    BitVec.add_eq_or_of_and_eq_zero]
  · ext i hi
    simp only [BitVec.getElem_or, BitVec.getElem_and, BitVec.getElem_not]
    cases a.toBitVec[i] <;> cases m.toBitVec[i] <;> rfl
  · ext i hi
    simp only [BitVec.getElem_and, BitVec.getElem_not, BitVec.getElem_zero]
    cases a.toBitVec[i] <;> cases m.toBitVec[i] <;> rfl

/-- Pages that start whole rows behind a row have at least the size of a row. -/
theorem le_pageSize {a page : UInt32} (hpage : page ≠ 0) (h : (nextPage a page - a) &&& 0xf = 0) : 16 ≤ page.toNat := by
  -- what is left of the page of an address is at least one byte, and at most the page
  have hleft : nextPage a page - a = page - (a &&& (page - 1)) := by
    unfold nextPage
    have hsplit := and_add_and_not a (page - 1)
    grind
  have hpos : 0 < page.toNat := Nat.pos_of_ne_zero fun hzero => hpage (UInt32.toNat_inj.1 hzero)
  have hone : (page - 1).toNat = page.toNat - 1 := UInt32.toNat_sub_of_le _ _ (UInt32.le_iff_toNat_le.2 hpos)
  have hin : (a &&& (page - 1)).toNat ≤ page.toNat - 1 := by
    rw [UInt32.toNat_and, hone]
    exact Nat.and_le_right
  have hnat : (page - (a &&& (page - 1))).toNat = page.toNat - (a &&& (page - 1)).toNat :=
    UInt32.toNat_sub_of_le _ _ (UInt32.le_iff_toNat_le.2 (by omega))
  have hrows : (page - (a &&& (page - 1))).toNat % 16 = 0 := by
    rw [hleft, ← UInt32.toNat_inj, UInt32.toNat_and] at h
    exact (Nat.and_two_pow_sub_one_eq_mod _ 4).symm.trans h
  omega

end Template

namespace Image

open IntelHex

/-- **The lines in front of a program.** Each of them sets no base, or is the line of the template; and if no line of
the template ends the file, none of them does. -/
theorem leadingRecords_spec {t : Template} {header : Bytes} {row : Nat} {lines leading : List String}
    (hshort : Short lines) (hrow : ∀ line, lines[row]? = some line → ¬ SetsBase line)
    (h : leadingRecords t header row lines = .ok leading) : List.Forall₂ SameRole lines leading := by
  obtain ⟨written, hwritten, h⟩ := exists_of_bind_eq_ok h
  split at h
  next =>
    obtain rfl := Except.ok.inj h
    have hroles := (ObjectHeader.replaceInLines_rewritten hshort hwritten).imp fun _ _ => Rewritten.sameRole
    exact sameRole_set hroles hrow _ _
  next => exact nomatch h

end Image
end Firmware
