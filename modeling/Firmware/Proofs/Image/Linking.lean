import Firmware.Proofs.Image.Header
import Firmware.Proofs.Image.Placeholders

/-!
# Linking into record lines

What the image of a program in record lines consists of, in terms of the entries of the template: the entries in
front of the program with the header in the place of the marker, the rows of the program, and the entries that
follow. The last ones find the base in force that the last row has left (`linkRecords_line`).
-/

namespace Firmware

open IntelHex IntelHex.Entry Template List

namespace Template.Reads

variable {t : Target} {e : Extension} {pre : List Entry} {d : Entry} {post : List Entry} {x : Template}

/-! ## The marker -/

theorem lastRow_of_length {d : Entry} {base stop : UInt32} (hbase : base.toNat % 65536 = 0)
    (hstop : stop = base + d.address.toUInt32 + d.data.length.toUInt32) (hlen : d.data.length = 16) :
    ∃ rest, lastRow d stop = d :: rest := by
  have hsum := toNat_stop_mod hbase hstop
  have hlimit : (2 : Nat) ^ 32 = 4294967296 := rfl
  unfold lastRow
  by_cases h0 : missing stop = 0
  · rw [if_pos h0]
    exact ⟨[], rfl⟩
  · -- the row of a record of 16 bytes is complete if the record starts it
    have hown : d.address.toNat % 16 ≠ 0 ∨ 16 < d.data.length := by
      unfold missing at h0
      rw [hsum] at h0
      omega
    rw [if_neg h0, if_pos hown]
    exact ⟨_, rfl⟩

/-- The marker in front of the program is a record of its own, which has the place of the jump table. -/
theorem exists_marker (h : Reads t e pre d post x) (hjump : x.jumpTableLine < x.codeStartLine) :
    ∃ (front : List Entry) (m : Entry) (back : List Entry), headOf pre d = front ++ m :: back ∧
      x.jumpTableLine = front.length ∧ m.type = dataType ∧ m.data = blobMarker ∧
      x.jumpTable = baseAfter 0 front + m.address.toUInt32 ∧ m.address = x.jumpTable.toUInt16 := by
  obtain ⟨before, m, after, hsplit, hm, hm', htable, hline⟩ := h.marker
  have hrow := length_lastRow d (stopOf pre d)
  have hlen : m.data.length = 16 := by
    rw [hm']
    decide
  have hle : before.length ≤ pre.length := by
    have hcount : x.codeStartLine = ((pre.length + (lastRow d (stopOf pre d)).length : Nat) : Int) := by
      rw [h.codeStartLine, headOf, length_append, length_map]
    by_cases hle : before.length ≤ pre.length
    · exact hle
    · rw [hline, if_neg hle, hcount] at hjump
      omega
  -- so the marker is a record of the template, and its line does not move
  rw [if_pos hle] at hline
  have haligned : ∀ f ∈ before, f.Aligned := fun f hf =>
    h.aligned f (by rw [hsplit]; exact mem_append_left _ hf)
  have hbase := (journal_linear haligned 0).2
  have hmod : (baseAfter 0 before).toNat % 65536 = 0 := baseAfter_mod haligned rfl
  have hlow : m.address = x.jumpTable.toUInt16 := by
    apply UInt16.toNat_inj.1
    rw [htable, UInt32.toNat_toUInt16, toNat_base_add hmod]
    have := m.address.toNat_lt
    show _ = (_ + _) % 65536
    omega
  have hhead : ∃ back, headOf pre d = before.map linear ++ m :: back := by
    unfold headOf
    by_cases hlast : before.length = pre.length
    · -- the marker is the last record of the template
      obtain ⟨rfl, hback⟩ := append_inj hsplit hlast.symm
      obtain ⟨rfl, rfl⟩ := List.cons.inj hback
      obtain ⟨rest, hrest⟩ := lastRow_of_length h.base_mod (rfl : stopOf pre d = _) hlen
      rw [hrest]
      exact ⟨rest, rfl⟩
    · -- or one in front of it, which stays as it is
      obtain ⟨more, hmore, -⟩ | ⟨more, hmore, hback⟩ := append_eq_append_iff.1 hsplit
      · rw [hmore, length_append] at hle hlast
        omega
      · obtain _ | ⟨g, more⟩ := more
        · rw [hmore, append_nil] at hlast
          exact absurd rfl hlast
        · obtain ⟨rfl, -⟩ := List.cons.inj hback
          rw [hmore, map_append, map_cons, linear_of_data hm, append_assoc, cons_append]
          exact ⟨_, rfl⟩
  obtain ⟨back, hback⟩ := hhead
  refine ⟨before.map linear, m, back, hback, ?_, hm, hm', ?_, hlow⟩
  · rw [length_map]
    exact hline
  · rw [hbase]
    exact htable

/-! ## Placeholders -/

theorem not_hasMarker_linear {f : Entry} (hf : ¬ ObjectHeader.HasMarker f) : ¬ ObjectHeader.HasMarker f.linear := by
  unfold linear
  split
  · intro hmarker
    exact absurd hmarker.length_le (by decide : ¬ 4 ≤ 2)
  · exact hf

/-- Zeros behind data do not bring a marker about. -/
theorem isInfix_of_append_zeros {b : Bytes} {n : Nat} (h : ObjectHeader.marker <:+: b ++ List.replicate n 0) :
    ObjectHeader.marker <:+: b := by
  obtain ⟨front, back, hsplit⟩ := h
  obtain ⟨c, hc, -⟩ | ⟨c, hc, hzeros⟩ := append_eq_append_iff.1 hsplit
  · exact ⟨front, c, hc.symm⟩
  · -- the marker does not end with a zero
    cases hlast : c.getLast? with
    | none =>
      rw [getLast?_eq_none_iff.1 hlast, append_nil] at hc
      exact ⟨front, [], by rw [append_nil]; exact hc⟩
    | some z =>
      have hz : z = 0 := by
        have hmem : z ∈ List.replicate n (0 : UInt8) := by
          rw [hzeros]
          exact mem_append_left _ (mem_of_getLast? hlast)
        exact (mem_replicate.1 hmem).2
      have hend := congrArg List.getLast? hc
      rw [getLast?_append, getLast?_append, hlast, hz] at hend
      exact absurd hend (by simp [ObjectHeader.marker])

theorem not_hasMarker_headOf (hmarkers : ∀ f ∈ pre ++ d :: post, ¬ ObjectHeader.HasMarker f) :
    ∀ f ∈ headOf pre d, ¬ ObjectHeader.HasMarker f := by
  have hd := hmarkers d (mem_append_right _ (mem_cons_self ..))
  intro f hf
  obtain hf | hf := mem_append.1 hf
  · obtain ⟨g, hg, rfl⟩ := mem_map.1 hf
    exact not_hasMarker_linear (hmarkers g (mem_append_left _ hg))
  · unfold lastRow at hf
    split at hf
    · rwa [mem_singleton.1 hf]
    · split at hf
      · obtain rfl | hf := mem_cons.1 hf
        · exact hd
        · rw [mem_singleton.1 hf]
          exact fun hmarker => absurd (isInfix_of_append_zeros (b := []) hmarker) (by decide)
      · rw [mem_singleton.1 hf]
        exact fun hmarker => hd (isInfix_of_append_zeros hmarker)

end Template.Reads

namespace Image

/-! ## The lines -/

theorem leadingRecords_line {x : Template} {es : List Entry} (hmarkers : ∀ f ∈ es, ¬ ObjectHeader.HasMarker f)
    {header : Bytes} (hheader : header.length < 256) {front : List Entry} {m : Entry} {back : List Entry}
    (hsplit : es = front ++ m :: back) :
    leadingRecords x header front.length (es.map line) =
      .ok ((front ++ ofData x.jumpTable.toUInt16 header hheader :: back).map line) := by
  have hlt : front.length < (es.map line).length := by
    rw [hsplit, length_map, length_append, length_cons]
    omega
  unfold leadingRecords
  rw [ObjectHeader.replaceInLines_line x hmarkers]
  show (if front.length < (es.map line).length then _ else _) = _
  rw [if_pos hlt, hsplit, map_append, map_cons,
    set_append_right _ _ (Nat.le_of_eq (length_map ..)), length_map, Nat.sub_self,
    set_cons_zero, map_append, map_cons, line_ofData]
  rfl

theorem journal_endsFile {f : Entry} (hf : f.EndsFile) (base : UInt32) (es : List Entry) :
    journal base (f :: es) = journal base es := by
  rw [journal_cons, write?_of_ne hf.ne_dataType, hf.base?]
  rfl

/-- Moving the record that ends a file changes nothing that the lines write. -/
theorem moveEnd_line (es : List Entry) :
    ∃ fs : List Entry, moveEnd (es.map line) = fs.map line ∧ ∀ base, journal base fs = journal base es := by
  have hisEnd : ((fun l => !isEnd l) ∘ line) = fun f : Entry => !decide f.EndsFile := by
    funext f
    simp only [Function.comp_apply, isEnd_line]
  have hsplit := takeWhile_append_dropWhile (p := fun f : Entry => !decide f.EndsFile) (l := es)
  unfold moveEnd
  rw [dropWhile_map, takeWhile_map, hisEnd]
  cases hdrop : es.dropWhile (fun f : Entry => !decide f.EndsFile) with
  | nil => exact ⟨es, rfl, fun _ => rfl⟩
  | cons f rest =>
    have hf : f.EndsFile := by
      have hhead := head?_dropWhile_not (fun f : Entry => !decide f.EndsFile) es
      rw [hdrop] at hhead
      simpa using hhead
    refine ⟨es.takeWhile (fun f : Entry => !decide f.EndsFile) ++ rest ++ [f], by simp, fun base => ?_⟩
    rw [hdrop] at hsplit
    conv => rhs; rw [← hsplit]
    rw [Entry.journal_append, Entry.journal_append, Entry.journal_append, journal_endsFile hf, journal_endsFile hf,
      journal_nil, append_nil]

/-! ## The program -/

/-- At the start of 64 KB the row in front has another base. -/
theorem upper_sub_ne {a : UInt32} (h : a.toNat % 65536 = 0) : a >>> 16 ≠ (a - 16) >>> 16 := by
  intro heq
  have hnat := congrArg UInt32.toNat heq
  have ha := a.toNat_lt
  rw [toNat_upper, toNat_upper, UInt32.toNat_sub] at hnat
  have h16 : (16 : UInt32).toNat = 16 := rfl
  rw [h16] at hnat
  omega

/-- The first row of a program sets its base, or finds it in force behind a template whose last record stays within
its 64 KB. -/
theorem baseOf_codeStart {t : Target} {e : Extension} {pre : List Entry} {d : Entry} {post : List Entry}
    {x : Template} (h : Reads t e pre d post x) (hin : d.address.toNat + d.data.length ≤ 65536)
    (hupper : x.codeStart >>> 16 = (x.codeStart - 16) >>> 16) : baseAfter 0 pre = baseOf x.codeStart := by
  have hmod := h.base_mod
  have hlt := (baseAfter 0 pre).toNat_lt
  have hstart := h.toNat_codeStart
  have hlimit : (2 : Nat) ^ 32 = 4294967296 := rfl
  rw [h.stop_lastWrite, hlimit] at hstart
  -- the program does not start 64 KB, so it starts in those of the last record
  have hinside : x.codeStart.toNat % 65536 ≠ 0 := fun h0 => upper_sub_ne h0 hupper
  apply UInt32.toNat_inj.1
  rw [toNat_baseOf]
  omega

variable {t : Target} {e : Extension} {pre : List Entry} {d : Entry} {post : List Entry} {x : Template}

theorem programRecords_line (h : Reads t e pre d post x) (hin : d.address.toNat + d.data.length ≤ 65536)
    (words : Words) :
    ∃ rs : List Entry, programRecords x.codeStart words = rs.map line ∧
      journal (baseAfter 0 pre) rs = rowJournal (programRows x.codeStart words) ∧
      baseAfter (baseAfter 0 pre) rs =
        ((programRows x.codeStart words).getLast?.map fun row => baseOf row.1).getD (baseAfter 0 pre) := by
  have hlen : ∀ row ∈ programRows x.codeStart words, row.2.length < 256 := by
    intro row hrow
    rw [length_of_mem_byteRows hrow]
    decide
  have hfirst : ∀ row, (programRows x.codeStart words).head? = some row →
      row.1 >>> 16 = (x.codeStart - 16) >>> 16 → baseAfter 0 pre = baseOf row.1 := by
    intro row hrow hupper
    have hrow1 : row.1 = x.codeStart := by
      rw [programRows_eq] at hrow
      by_cases hb : words.toBytes = []
      · rw [hb, byteRows_nil] at hrow
        exact nomatch hrow
      · rw [byteRows_of_ne_nil _ hb] at hrow
        rw [← Option.some.inj hrow]
    rw [hrow1] at hupper ⊢
    exact baseOf_codeStart h hin hupper
  obtain ⟨rs, hlines, hjournal, hafter, -⟩ := rowRecordsOnto_line hlen _ _ [] hfirst
  exact ⟨rs, hlines, hjournal, hafter⟩

/-! ## The image -/

/-- A program that links has a header and is small enough. -/
theorem of_link {name : String} {s : BuildState} {words : Words} {short uf2 : Bool} {image : Image}
    (hlink : link x name s words short uf2 = .ok image) :
    sizeEntry words < sizeLimit ∧ ∃ header, programHeader x = .ok header := by
  unfold link at hlink
  by_cases hsize : sizeLimit ≤ sizeEntry words
  · rw [if_pos hsize] at hlink
    exact nomatch hlink
  · rw [if_neg hsize] at hlink
    obtain ⟨header, hheader, -⟩ := exists_of_bind_eq_ok hlink
    exact ⟨Nat.lt_of_not_le hsize, header, hheader⟩

/-- Linking a template of record lines. -/
theorem link_eq (h : Reads t e pre d post x) (hnative : t.isNative = true) {words : Words}
    (hsize : sizeEntry words < sizeLimit) {header : Bytes} (hheader : programHeader x = .ok header)
    (name : String) (s : BuildState) (short uf2 : Bool) :
    link x name s words short uf2 =
      if uf2 then linkBlocks x s header (payload x s.commSize words) short x.codeStartLine.toNat
      else linkRecords x s header (payload x s.commSize words) short x.codeStartLine.toNat
        x.jumpTableLine.toNat := by
  have hvm : x.isVm = false := by
    unfold isVm
    rw [h.target, hnative]
    rfl
  have hplace : (x.codeStartLine < 0 || x.lines.length < x.codeStartLine.toNat || x.jumpTableLine < 0) = false := by
    obtain ⟨before, m, after, -, -, -, -, hline⟩ := h.marker
    have hlength : x.lines.length = (headOf pre d).length + post.length := by
      rw [h.lines, length_map, length_append, length_map]
    rw [h.codeStartLine, hline, hlength, Int.toNat_natCast, Bool.or_eq_false_iff, Bool.or_eq_false_iff,
      decide_eq_false_iff_not, decide_eq_false_iff_not, decide_eq_false_iff_not]
    omega
  unfold link
  rw [if_neg (by omega), hheader, h.boot, hvm, h.blob]
  show (if _ then _ else _) = _
  rw [if_neg (by rw [hplace]; decide)]

/-- **The image in record lines.** The header takes the place of the marker, and behind the rows of the program the
rest of the template goes on with the base of the last row. -/
theorem linkRecords_line (h : Reads t e pre d post x) (hin : d.address.toNat + d.data.length ≤ 65536)
    (hmarkers : ∀ f ∈ pre ++ d :: post, ¬ ObjectHeader.HasMarker f) (hjump : x.jumpTableLine < x.codeStartLine)
    {s : BuildState} (hchecksum : s.checksumBlock = none) (hsource : s.packedSource = none)
    {header : Bytes} (hheader : header.length = 16) (words : Words) :
    ∃ (front back : Journal) (fs : List Entry), front = contents (x.lines.take x.jumpTableLine.toNat) ∧
      journal 0 (headOf pre d) = front ++ ⟨x.jumpTable, blobMarker⟩ :: back ∧
      linkRecords x s header words false x.codeStartLine.toNat x.jumpTableLine.toNat = .ok (.records (fs.map line)) ∧
      journal 0 fs = front ++ ⟨x.jumpTable, header⟩ :: (back ++ rowJournal (programRows x.codeStart words) ++
        journal (((programRows x.codeStart words).getLast?.map fun row => baseOf row.1).getD
          (baseAfter 0 pre)) post) := by
  obtain ⟨front, m, back, hhead, hline, hm, hm', htable, hlow⟩ := h.exists_marker hjump
  obtain ⟨rs, hrs, hrsjournal, hrsafter⟩ := programRecords_line h hin words
  have hshort : header.length < 256 := by rw [hheader]; decide
  have hleading := leadingRecords_line (x := x) (Reads.not_hasMarker_headOf hmarkers) hshort hhead
  -- the header's record is at the place of the marker's
  have hnew : ∀ base es, journal base (ofData x.jumpTable.toUInt16 header hshort :: es) =
      ⟨base + m.address.toUInt32, header⟩ :: journal base es := by
    intro base es
    rw [journal_data (e := ofData ..) rfl, hlow]
    rfl
  have haligned : ∀ f ∈ post, f.Aligned := fun f hf =>
    h.aligned f (mem_append_right _ (mem_cons_of_mem d hf))
  have hbase : baseAfter 0 (front ++ ofData x.jumpTable.toUInt16 header hshort :: back) = baseAfter 0 pre := by
    rw [← h.baseAfter_headOf, hhead, Entry.baseAfter_append, Entry.baseAfter_append,
      baseAfter_data (e := ofData ..) rfl, baseAfter_data hm]
  let es := front ++ ofData x.jumpTable.toUInt16 header hshort :: back ++ rs ++ post.map linear
  have hes : journal 0 es = journal 0 front ++ ⟨x.jumpTable, header⟩ :: (journal (baseAfter 0 front) back ++
      rowJournal (programRows x.codeStart words) ++
      journal (((programRows x.codeStart words).getLast?.map fun row => baseOf row.1).getD
        (baseAfter 0 pre)) post) := by
    show journal 0 (front ++ ofData x.jumpTable.toUInt16 header hshort :: back ++ rs ++ post.map linear) = _
    rw [Entry.journal_append, Entry.baseAfter_append, hbase, Entry.journal_append, hbase, hrsjournal, hrsafter,
      (journal_linear haligned _).1, Entry.journal_append, hnew, ← htable]
    simp
  -- what is left to a target is whether the end of the file is moved to the end
  have hlinked : linkRecords x s header words false x.codeStartLine.toNat x.jumpTableLine.toNat =
      .ok (.records (if x.target.moveHexEnd then moveEnd (es.map line) else es.map line)) := by
    unfold linkRecords
    rw [h.take_lines, hline, Int.toNat_natCast, hleading, hchecksum, hsource, hrs, h.drop_lines]
    show Except.ok _ = _
    simp [es]
  have hmarker : journal 0 (headOf pre d) = journal 0 front ++ ⟨x.jumpTable, blobMarker⟩ ::
      journal (baseAfter 0 front) back := by
    rw [hhead, Entry.journal_append, journal_data hm, ← htable, hm']
  have hfront : journal 0 front = contents (x.lines.take x.jumpTableLine.toNat) := by
    rw [h.lines, hhead, hline, Int.toNat_natCast, append_assoc, map_append,
      take_left' (length_map ..), contents_map_line]
  by_cases hmove : x.target.moveHexEnd = true
  · obtain ⟨fs, hfs, hsame⟩ := moveEnd_line es
    rw [if_pos hmove, hfs] at hlinked
    exact ⟨_, _, fs, hfront, hmarker, hlinked, (hsame 0).trans hes⟩
  · rw [if_neg hmove] at hlinked
    exact ⟨_, _, es, hfront, hmarker, hlinked, hes⟩

end Image
end Firmware
