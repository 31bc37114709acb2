import Firmware.Proofs.Image.ProgramBytes

/-!
# What an image has of the state of a build

Linking reads three fields of the state of a build: the size of the comm section, of which 16 bits go into the program,
and for record lines the packed source and the checksum block (`link_congr`). In record lines all three show. The blocks
add lines (`length_stateLines`); and since the lines of a program stay together wherever the line that ends the file
goes (`Frames`), they are found again, and with them the size of the comm section (`commSize_of_stateLines`).
-/

namespace Firmware

namespace Image

open List

variable {t : Template} {s s' : BuildState}

/-! ## What linking reads -/

/-- Whether a template is made of record lines. -/
def HasLines (t : Template) : Prop := t.boot = none ∧ t.isVm = false ∧ t.blob = none

theorem payload_congr (h : s.commSize.toUInt16 = s'.commSize.toUInt16) (t : Template) (words : Words) :
    payload t s.commSize words = payload t s'.commSize words := by
  unfold payload
  rw [h]

/-- Linking reads the size of the comm section, in 16 bits, and for record lines the checksum block and the packed
source. -/
theorem link_congr (hcomm : s.commSize.toUInt16 = s'.commSize.toUInt16)
    (hlines : HasLines t → s.packedSource = s'.packedSource ∧ s.checksumBlock = s'.checksumBlock) (name : String)
    (words : Words) (short uf2 : Bool) : link t name s words short uf2 = link t name s' words short uf2 := by
  unfold link
  rw [payload_congr hcomm]
  cases hboot : t.boot with
  | some boot => rfl
  | none =>
    cases hvm : t.isVm with
    | true => rfl
    | false =>
      cases hblob : t.blob with
      | some blob => rfl
      | none =>
        obtain ⟨hpacked, hblock⟩ := hlines ⟨hboot, hvm, hblob⟩
        simp only [linkBlocks, linkRecords, hpacked, hblock]

/-! ## Record lines -/

/-- The lines of an image around those of the template and the program. -/
def wrapRecords (t : Template) (s : BuildState) (lines : List String) : List String :=
  let lines := match s.checksumBlock with
    | some block => insertBeforeEnd (checksumRecords t.target.flashChecksumAddress block) lines
    | none => lines
  let lines := lines ++ (s.packedSource.map packedSourceRecords).getD []
  if t.target.moveHexEnd then moveEnd lines else lines

theorem length_insertBeforeEnd (records lines : List String) :
    (insertBeforeEnd records lines).length = records.length + lines.length := by
  have hlength := congrArg List.length (takeWhile_append_dropWhile (p := (!IntelHex.isEnd ·)) (l := lines))
  rw [length_append] at hlength
  unfold insertBeforeEnd
  rw [length_append, length_append]
  omega

theorem length_moveEnd (lines : List String) : (moveEnd lines).length = lines.length := by
  have hlength := congrArg List.length (takeWhile_append_dropWhile (p := (!IntelHex.isEnd ·)) (l := lines))
  unfold moveEnd
  split
  next => rfl
  next line rest hrest =>
    rw [hrest] at hlength
    simp only [length_append, length_cons, length_nil] at hlength ⊢
    omega

theorem length_wrapRecords (t : Template) (s : BuildState) (lines : List String) :
    (wrapRecords t s lines).length = lines.length +
      ((s.checksumBlock.map (checksumRecords t.target.flashChecksumAddress)).getD []).length +
      ((s.packedSource.map packedSourceRecords).getD []).length := by
  have hmove : ∀ lines : List String, (if t.target.moveHexEnd then moveEnd lines else lines).length = lines.length := by
    intro lines
    split
    · exact length_moveEnd lines
    · rfl
  unfold wrapRecords
  rw [hmove, length_append]
  congr 1
  cases s.checksumBlock with
  | none => rfl
  | some block =>
    show (insertBeforeEnd _ _).length = _
    rw [length_insertBeforeEnd, Nat.add_comm]
    rfl

/-- Whether lines that do not end a file stay together in what becomes of the lines around them. -/
def Frames (g : List String → List String) : Prop :=
  ∀ front back, ∃ front' back', ∀ lines : List String, (∀ line ∈ lines, IntelHex.isEnd line = false) →
    g (front ++ lines ++ back) = front' ++ lines ++ back'

theorem Frames.comp {g h : List String → List String} (hg : Frames g) (hh : Frames h) : Frames (g ∘ h) := by
  intro front back
  obtain ⟨front₁, back₁, h₁⟩ := hh front back
  obtain ⟨front₂, back₂, h₂⟩ := hg front₁ back₁
  refine ⟨front₂, back₂, fun lines hlines => ?_⟩
  rw [Function.comp_apply, h₁ lines hlines, h₂ lines hlines]

theorem frames_append (more : List String) : Frames (· ++ more) :=
  fun front back => ⟨front, back ++ more, fun _ _ => append_assoc ..⟩

section End

variable {front : List String} {last : String}

section

variable (h : ∀ line ∈ front, IntelHex.isEnd line = false)
include h

theorem insertBeforeEnd_of_none (records back : List String) :
    insertBeforeEnd records (front ++ back) = front ++ insertBeforeEnd records back := by
  have hnone : ∀ line ∈ front, (!IntelHex.isEnd line) = true := fun line hline => by rw [h line hline]; rfl
  unfold insertBeforeEnd
  rw [takeWhile_append_of_pos hnone, dropWhile_append_of_pos hnone]
  simp only [append_assoc]

theorem insertBeforeEnd_of_end (hlast : IntelHex.isEnd last = true) (records back : List String) :
    insertBeforeEnd records (front ++ last :: back) = front ++ records ++ last :: back := by
  rw [insertBeforeEnd_of_none h, append_assoc]
  simp [insertBeforeEnd, hlast]

theorem moveEnd_of_none (back : List String) : moveEnd (front ++ back) = front ++ moveEnd back := by
  have hnone : ∀ line ∈ front, (!IntelHex.isEnd line) = true := fun line hline => by rw [h line hline]; rfl
  unfold moveEnd
  rw [takeWhile_append_of_pos hnone, dropWhile_append_of_pos hnone]
  split
  · rfl
  · simp only [append_assoc]

theorem moveEnd_of_end (hlast : IntelHex.isEnd last = true)
    (back : List String) : moveEnd (front ++ last :: back) = front ++ back ++ [last] := by
  rw [moveEnd_of_none h, append_assoc]
  simp [moveEnd, hlast]

end

theorem exists_end_or_none (lines : List String) :
    (∀ line ∈ lines, IntelHex.isEnd line = false) ∨ ∃ front last back, lines = front ++ last :: back ∧
      (∀ line ∈ front, IntelHex.isEnd line = false) ∧ IntelHex.isEnd last = true := by
  cases hfind : lines.find? IntelHex.isEnd with
  | none => exact .inl (by simpa using hfind)
  | some last =>
    obtain ⟨hlast, front, back, hlines, hfront⟩ := find?_eq_some_iff_append.1 hfind
    exact .inr ⟨front, last, back, hlines, by simpa using hfront, hlast⟩

end End

theorem forall_isEnd_append {front lines : List String} (hfront : ∀ line ∈ front, IntelHex.isEnd line = false)
    (hlines : ∀ line ∈ lines, IntelHex.isEnd line = false) : ∀ line ∈ front ++ lines, IntelHex.isEnd line = false :=
  fun line hline => (mem_append.1 hline).elim (hfront line) (hlines line)

theorem frames_insertBeforeEnd (records : List String) : Frames (insertBeforeEnd records) := by
  intro front back
  -- the first line that ends a file is in front of the lines, or behind them
  obtain hnone | ⟨before, last, behind, rfl, hbefore, hlast⟩ := exists_end_or_none front
  · exact ⟨front, insertBeforeEnd records back, fun lines hlines =>
      insertBeforeEnd_of_none (forall_isEnd_append hnone hlines) records back⟩
  · refine ⟨before ++ records ++ last :: behind, back, fun lines _ => ?_⟩
    simp only [append_assoc, cons_append]
    rw [insertBeforeEnd_of_end hbefore hlast, append_assoc]

theorem frames_moveEnd : Frames moveEnd := by
  intro front back
  obtain hnone | ⟨before, last, behind, rfl, hbefore, hlast⟩ := exists_end_or_none front
  · exact ⟨front, moveEnd back, fun lines hlines => moveEnd_of_none (forall_isEnd_append hnone hlines) back⟩
  · refine ⟨before ++ behind, back ++ [last], fun lines _ => ?_⟩
    simp only [append_assoc, cons_append]
    rw [moveEnd_of_end hbefore hlast]
    simp only [append_assoc]

theorem frames_wrapRecords (t : Template) (s : BuildState) : Frames (wrapRecords t s) := by
  have hmove : Frames fun lines => if t.target.moveHexEnd then moveEnd lines else lines := by
    by_cases hmove : t.target.moveHexEnd = true
    · simp only [hmove, if_true]
      exact frames_moveEnd
    · simp only [hmove, Bool.false_eq_true, if_false]
      exact fun front back => ⟨front, back, fun _ _ => rfl⟩
  have hblock : Frames fun lines => match s.checksumBlock with
      | some block => insertBeforeEnd (checksumRecords t.target.flashChecksumAddress block) lines
      | none => lines := by
    cases s.checksumBlock with
    | none => exact fun front back => ⟨front, back, fun _ _ => rfl⟩
    | some block => exact frames_insertBeforeEnd _
  exact hmove.comp ((frames_append _).comp hblock)

/-! ## The lines of a program -/

theorem flatMap_rowJournal (address : UInt32) (b : Bytes) :
    (rowJournal (byteRows address b)).flatMap (·.data) = wholeRows b := by
  by_cases hb : b = []
  · subst hb
    rw [byteRows_nil]
    rfl
  · have hpos := length_pos_iff.2 hb
    rw [byteRows_of_ne_nil address hb, wholeRows_eq hb, ← flatMap_rowJournal (address + 16) (b.drop 16)]
    rfl
termination_by b.length
decreasing_by rw [length_drop]; omega

/-- The lines of a program are of records that do not end a file, and tell its rows. -/
theorem exists_programRecords (address : UInt32) (words : Words) :
    ∃ es : List IntelHex.Entry, programRecords address words = es.map IntelHex.Entry.line ∧
      IntelHex.Entry.journal (baseOf address) es = rowJournal (programRows address words) ∧ ∀ e ∈ es, ¬ e.EndsFile := by
  have hshort : ∀ row ∈ programRows address words, row.2.length < 256 := by
    intro row hrow
    rw [length_of_mem_byteRows hrow]
    decide
  have hbase : ∀ row, (programRows address words).head? = some row →
      row.1 >>> 16 = (address - 16) >>> 16 → baseOf address = baseOf row.1 := by
    intro row hrow _
    rw [programRows_eq] at hrow
    by_cases hb : words.toBytes = []
    · rw [hb, byteRows_nil] at hrow
      exact nomatch hrow
    · rw [byteRows_of_ne_nil address hb] at hrow
      obtain rfl := Option.some.inj hrow
      rfl
  obtain ⟨es, hlines, hjournal, -, hends⟩ :=
    rowRecordsOnto_line hshort ((address - 16) >>> 16) (baseOf address) [] hbase
  exact ⟨es, hlines, hjournal, hends⟩

theorem isEnd_of_mem_programRecords {address : UInt32} {words : Words} :
    ∀ line ∈ programRecords address words, IntelHex.isEnd line = false := by
  obtain ⟨es, hlines, -, hends⟩ := exists_programRecords address words
  rw [hlines]
  intro line hline
  obtain ⟨e, he, rfl⟩ := mem_map.1 hline
  rw [IntelHex.Entry.isEnd_line, decide_eq_false (hends e he)]

theorem toBytes_inj {words words' : Words} (h : words.toBytes = words'.toBytes) : words = words' := by
  induction words generalizing words' with
  | nil =>
    cases words' with
    | nil => rfl
    | cons => exact nomatch h
  | cons w rest ih =>
    cases words' with
    | nil => exact nomatch h
    | cons w' rest' =>
      simp only [Words.toBytes, flatMap_cons, Bytes.ofWord16, cons_append, nil_append, List.cons.injEq] at h
      obtain ⟨hlow, hhigh, hrest⟩ := h
      rw [← IntelHex.join_bytes16 w, hlow, hhigh, IntelHex.join_bytes16, ih hrest]

/-- Programs of one length that have the same lines are the same. -/
theorem programRecords_inj {address : UInt32} {words words' : Words} (hlength : words.length = words'.length)
    (h : programRecords address words = programRecords address words') : words = words' := by
  obtain ⟨es, hlines, hjournal, -⟩ := exists_programRecords address words
  obtain ⟨es', hlines', hjournal', -⟩ := exists_programRecords address words'
  -- the lines give the records, these what is written, and this the rows
  have hrecords : es.map IntelHex.Entry.record = es'.map IntelHex.Entry.record := by
    rw [← IntelHex.Entry.records_map_line, ← IntelHex.Entry.records_map_line, ← hlines, ← hlines', h]
  have hrows : rowJournal (programRows address words) = rowJournal (programRows address words') := by
    rw [← hjournal, ← hjournal', IntelHex.Entry.journal, IntelHex.Entry.journal, hrecords]
  have hwhole : wholeRows words.toBytes = wholeRows words'.toBytes := by
    rw [← flatMap_rowJournal address, ← flatMap_rowJournal address, ← programRows_eq, hrows, programRows_eq]
  have hbytes : words.toBytes.length = words'.toBytes.length := by
    rw [Words.length_toBytes, Words.length_toBytes, hlength]
  exact toBytes_inj (append_inj_left hwhole hbytes)

/-- The size of the comm section is read back from the program. -/
theorem payload_inj {commSize commSize' : UInt32} {words : Words}
    (h : payload t commSize words = payload t commSize' words) : commSize.toUInt16 = commSize'.toUInt16 := by
  have hslots := append_cancel_left h
  have hlength : commSlot < ((words ++ List.replicate (commSlot + 1 - words.length) 0).set sizeSlot
      (sizeEntry words).toUInt16).length := by
    rw [length_set, length_append, length_replicate]
    omega
  have hslot := congrArg (·[commSlot]?) hslots
  rw [getElem?_set_self hlength, getElem?_set_self hlength] at hslot
  exact Option.some.inj hslot

/-- The lines of an image: those of the program between the lines of the template, and what the state has around
them. -/
def stateLines (t : Template) (words : Words) (leading back : List String) (s : BuildState) : List String :=
  wrapRecords t s (leading ++ programRecords t.codeStart (payload t s.commSize words) ++ back)

section State

variable {words : Words} {leading back : List String}

/-- The number of lines tells whether there is a checksum block or packed source. -/
theorem length_stateLines (s : BuildState) : (stateLines t words leading back s).length =
      (leading ++ programRecords t.codeStart (payload t s.commSize words) ++ back).length +
      ((s.checksumBlock.map (checksumRecords t.target.flashChecksumAddress)).getD []).length +
      ((s.packedSource.map packedSourceRecords).getD []).length := length_wrapRecords ..

/-- The lines tell the size of the comm section. -/
theorem commSize_of_stateLines (hpacked : s.packedSource = s'.packedSource)
    (hblock : s.checksumBlock = s'.checksumBlock)
    (h : stateLines t words leading back s = stateLines t words leading back s') :
    s.commSize.toUInt16 = s'.commSize.toUInt16 := by
  have hwrap : wrapRecords t s' = wrapRecords t s := by
    unfold wrapRecords
    rw [hpacked, hblock]
  obtain ⟨front, behind, hframe⟩ := frames_wrapRecords t s leading back
  unfold stateLines at h
  rw [hwrap, hframe _ isEnd_of_mem_programRecords, hframe _ isEnd_of_mem_programRecords] at h
  have hrecords := append_cancel_left (append_cancel_right h)
  refine payload_inj (programRecords_inj ?_ hrecords)
  rw [length_payload, length_payload]

section

variable {name : String} {image : Image} (hlines : HasLines t) (hlink : link t name s words false false = .ok image)
include hlines hlink

/-- A template of record lines that can be linked with is linked whatever the state, which decides on the lines around
those of the template and the program. -/
theorem link_leading : ∃ header leading, programHeader t = .ok header ∧
      leadingRecords t header t.jumpTableLine.toNat (t.lines.take t.codeStartLine.toNat) = .ok leading ∧
      ∀ s', link t name s' words false false =
        .ok (.records (stateLines t words leading (t.lines.drop t.codeStartLine.toNat) s')) := by
  obtain ⟨hboot, hvm, hblob⟩ := hlines
  unfold link at hlink ⊢
  by_cases hsize : sizeLimit ≤ sizeEntry words
  · rw [if_pos hsize] at hlink
    exact nomatch hlink
  rw [if_neg hsize] at hlink
  obtain ⟨header, hheader, hlink⟩ := exists_of_bind_eq_ok hlink
  simp only [hboot, hvm, hblob] at hlink
  by_cases hplace : (t.codeStartLine < 0 || t.lines.length < t.codeStartLine.toNat || t.jumpTableLine < 0) = true
  · rw [if_pos hplace] at hlink
    exact nomatch hlink
  rw [if_neg hplace, if_neg Bool.false_ne_true] at hlink
  obtain ⟨leading, hleading, hlink⟩ := exists_of_bind_eq_ok hlink
  refine ⟨header, leading, hheader, hleading, fun s' => ?_⟩
  rw [if_neg hsize, hheader]
  simp only [hboot, hvm, hblob]
  show (if _ then _ else _) = _
  rw [if_neg hplace, if_neg Bool.false_ne_true, linkRecords, hleading]
  rfl

theorem link_lines :
    ∃ leading back, ∀ s', link t name s' words false false = .ok (.records (stateLines t words leading back s')) := by
  obtain ⟨header, leading, -, -, hall⟩ := link_leading hlines hlink
  exact ⟨leading, _, hall⟩

end

end State

end Image

end Firmware
