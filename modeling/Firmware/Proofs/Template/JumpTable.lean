import Firmware.Proofs.IntelHex.Reading
import Firmware.Proofs.Template.Pointers
import Firmware.Proofs.Template.Preservation
import Mathlib.Data.List.Forall2
import Mathlib.Data.List.TakeWhile

/-!
# Jump tables in records and in one piece

The jump table of record lines is read record by record, and what is left of a record when its whole pointers are taken
is not used. The jump table of a flat template is read as one piece. So the two give the same functions where no record
ends within a pointer that a function needs (`functions_of_parse`), and other ones elsewhere (`functions_cut`).

The row that a template ends in is completed with zeros before its pointers are read. They stand behind the table, unless
the template ends within it, and give no function a value, unless the table ends within a pointer.
-/

namespace Firmware
namespace Template

open List IntelHex PointerReader

variable {t : Target} {e : Extension} {p : PointerReader} {line : String} {lines front table : List String}
  {data : Bytes} {rows : List Bytes} {w n : Nat} {m : Mark} {x : Ending}

/-! ## Lines of a table -/

/-- Whether a line has these bytes of a jump table: it is that of a data record, or no data record at all. -/
def IsRow (line : String) (data : Bytes) : Prop :=
  (dataAddress? line = none ∧ data = []) ∨ ∃ r, Record.parse line = .ok r ∧ r.type = dataType ∧ r.data = data ∧
    line.toList.head? = some ':' ∧ ∀ c ∈ line.toList, Text.isBlank c = false

theorem isRow_render {r : Record} (hlen : r.length = r.data.length) (hlt : r.length < 256) (htype : r.type = dataType) :
    IsRow (render r.content) r.data := by
  refine .inr ⟨r, Record.parse_eq_ok_iff.2 ⟨hlen, hlt, bytes_render _⟩, htype, rfl, ?_⟩
  rw [toList_render]
  refine ⟨rfl, fun c hc => ?_⟩
  obtain rfl | hc := mem_cons.1 hc
  · decide
  · exact Hexadecimal.isBlank_of_mem_chars c hc

theorem isRow_renderRecord (address : UInt16) (h : data.length < 256) : IsRow (renderRecord dataType address data) data :=
  isRow_render (r := ⟨data.length, address, dataType, data⟩) rfl h rfl

theorem pointerDigits_eq (t : Target) : t.pointerDigits = 2 * (t.pointerDigits / 2) := by
  unfold Target.pointerDigits
  split <;> rfl

theorem width_of_pointerDigits (hw : t.pointerDigits = 2 * w) : t.pointerDigits / 2 = w ∧ 0 < w := by
  have hpos : 0 < t.pointerDigits := by
    unfold Target.pointerDigits
    split <;> decide
  omega

theorem toOption_linePointers (hw : t.pointerDigits = 2 * w) (h : IsRow line data) :
    (linePointers t p line).toOption = (pointers w data).foldlM (give t) p := by
  have hnil : pointers w [] = [] := pointers_of_lt (width_of_pointerDigits hw).2
  unfold linePointers
  by_cases hdone : p.isDone = true
  · rw [if_pos hdone, foldlM_give_of_waiting_nil (isEmpty_iff.1 hdone)]
    rfl
  rw [if_neg hdone]
  obtain ⟨hnone, rfl⟩ | ⟨r, hr, htype, rfl, hcolon, hblank⟩ := h
  · have hstart : dataStart? line.toList = none := Option.map_eq_none_iff.1 hnone
    rw [dataDigits?, hstart, hnil]
    rfl
  · obtain ⟨l⟩ := exists_layout hcolon hr
    have hblanks : l.blanks = [] := by
      refine eq_nil_iff_forall_not_mem.2 fun c hc => ?_
      have hfalse := hblank c (by rw [l.toList_eq]; simp [hc])
      exact nomatch hfalse.symm.trans (l.blank c hc)
    have hspells := l.spells_data.append l.spells_sum
    have hlen : (l.data ++ l.sum).length = 2 * (r.data.length + 1) := by
      rw [hspells.length_eq, length_append]
      rfl
    have hkept : (l.data ++ l.sum).takeWhile (· != '\n') = l.data ++ l.sum := by
      refine takeWhile_eq_self_iff.2 fun c hc => bne_iff_ne.2 ?_
      obtain ⟨_, -, hreads⟩ := hspells.exists_reads c hc
      exact hreads.ne_newline
    have hdigits : dataDigits? line = if 4 ≤ (l.data ++ l.sum).length then some (l.data ++ l.sum) else none := by
      unfold dataDigits?
      rw [l.dataStart?_eq, if_pos htype, hblanks, append_nil]
      show (if 4 ≤ _ then some _ else none) = _
      rw [hkept]
    rw [hdigits]
    by_cases hlong : 4 ≤ (l.data ++ l.sum).length
    · rw [if_pos hlong]
      dsimp only
      rw [Utf8.encode_ofList fun c hc => (hspells.exists_reads c hc).elim fun _ hx => hx.2.isAscii, map_append,
        length_append, take_left' (by rw [length_map, length_map, l.spells_sum.length_eq]; simp)]
      exact toOption_addDigits hw l.spells_data
    · obtain hempty : r.data = [] := eq_nil_of_length_eq_zero (by omega)
      rw [if_neg hlong, hempty, hnil]
      rfl

theorem toOption_foldlM_linePointers (hw : t.pointerDigits = 2 * w) (h : Forall₂ IsRow table rows) :
    (table.foldlM (linePointers t) p).toOption = (rows.flatMap (pointers w)).foldlM (give t) p := by
  induction h generalizing p with
  | nil => rfl
  | cons hrow _ ih =>
    rw [foldlM_cons, toOption_bind, toOption_linePointers hw hrow, flatMap_cons, foldlM_append]
    exact congrArg (_ >>= ·) (funext fun q => ih)

/-! ## The marker -/

theorem dataAddress?_of_isMarkerLine (h : isMarkerLine line = true) : (dataAddress? line).isSome := by
  unfold isMarkerLine at h
  split at h
  next => exact nomatch h
  next rest hlead =>
    split at h
    next => exact nomatch h
    next address rest' htake =>
      obtain ⟨back, hback⟩ := List.isPrefixOf_iff_prefix.1 h
      have hline : line.toList = ':' :: '1' :: '0' :: rest := exists_of_after? hlead
      have hcolon : after? [':'] line.toList = some ('1' :: '0' :: rest) := by rw [hline]; rfl
      have hcount : takeAny 2 ('1' :: '0' :: rest) = some (['1', '0'], rest) := rfl
      have htype : ∃ cs, after? ['0', '0'] rest' = some cs := ⟨markerDigits ++ back, by rw [← hback]; rfl⟩
      obtain ⟨cs, hcs⟩ := htype
      unfold dataAddress? dataStart?
      simp [hcolon, hcount, htake, hcs]

namespace Scan

variable {s : Scan} {i : Nat}

/-- The line that a mark is on where a marker is found. -/
theorem marker_addLine : (s.addLine t i line).marker.map (·.line) =
    if isMarkerLine line = true then some i else s.marker.map (·.line) := by
  have hdata : ∀ (s : Scan) m, (s.addData t m).marker = s.marker ∧ (s.addData t m).last = some m := by
    intro s m
    unfold addData
    dsimp only
    split <;> (split <;> exact ⟨rfl, rfl⟩)
  unfold addLine
  extract_lets s₁ s₂ s₃
  have h₁ : s₁.marker = s.marker := by
    unfold s₁
    split <;> rfl
  have h₂ : s₂.marker = s.marker ∧ ((dataAddress? line).isSome → s₂.last.map (·.line) = some i) := by
    unfold s₂
    split
    next digits _ => exact ⟨(hdata ..).1.trans h₁, fun _ => by rw [(hdata ..).2]; rfl⟩
    next hnone => exact ⟨h₁, fun hsome => by rw [hnone] at hsome; cases hsome⟩
  have h₃ : s₃.marker = s₂.marker ∧ s₃.last = s₂.last := by
    unfold s₃
    split <;> exact ⟨rfl, rfl⟩
  by_cases hmarker : isMarkerLine line = true
  · rw [if_pos hmarker, if_pos hmarker]
    show s₃.last.map _ = _
    rw [h₃.2, h₂.2 (dataAddress?_of_isMarkerLine hmarker)]
  · rw [if_neg hmarker, if_neg hmarker, h₃.1, h₂.1]

theorem marker_run (h : ∀ line ∈ table, isMarkerLine line = false) :
    (s.run t i table).marker.map (·.line) = s.marker.map (·.line) := by
  induction table generalizing s i with
  | nil => rfl
  | cons line rest ih =>
    rw [run, ih fun l hl => h l (mem_cons_of_mem _ hl), marker_addLine, h line mem_cons_self, if_neg Bool.false_ne_true]

/-- The last marker counts. -/
theorem marker_run_append {marker : String} (hmarker : isMarkerLine marker = true)
    (htable : ∀ line ∈ table, isMarkerLine line = false) :
    (s.run t i (front ++ marker :: table)).marker.map (·.line) = some (i + front.length) := by
  induction front generalizing s i with
  | nil => rw [nil_append, run, marker_run htable, marker_addLine, if_pos hmarker]; rfl
  | cons line rest ih => rw [cons_append, run, ih, length_cons, Nat.add_assoc, Nat.add_comm 1]

end Scan

/-! ## The last row -/

/-- What completing a row does to the lines: nothing, a record of zeros behind it, or zeros at its end. -/
theorem completeRow_forms (h : completeRow lines m = .ok x) :
    (x.lines = lines ∧ x.inserted = false) ∨
    (∃ address n, x.lines = lines.insertIdx (m.line + 1) (renderRecord dataType address (replicate n 0)) ∧ n < 256 ∧
      x.inserted = true ∧ x.lastLine = m.line + 1) ∨
    ∃ b, x.lines = lines.set m.line (render (b.dropLast.set 0 0x10 ++ replicate (20 - b.dropLast.length) 0)) ∧
      bytes (lines.getD m.line "") = .ok b ∧ b.dropLast.length ≤ 20 ∧ x.inserted = false := by
  unfold completeRow at h
  obtain ⟨b, hb, h⟩ := exists_of_bind_eq_ok h
  split at h
  next n hi low rest =>
    dsimp only at h
    split at h
    next =>
      obtain rfl := Except.ok.inj h
      exact .inl ⟨rfl, rfl⟩
    next =>
      split at h
      next =>
        obtain rfl := Except.ok.inj h
        refine .inr (.inl ⟨_, _, rfl, ?_, rfl, rfl⟩)
        rw [toNat_missing]
        exact Nat.lt_trans (missing_lt _) (by decide)
      next =>
        split at h
        next => exact nomatch h
        next hroom =>
          obtain rfl := Except.ok.inj h
          exact .inr (.inr ⟨_, rfl, hb, Nat.le_of_not_lt hroom, rfl⟩)
  next => exact nomatch h

/-- Lines with a jump table: behind a record that holds the marker, which is the last one, stand those with the bytes of
`rows`. As far as the pointers of `n` functions go, the records are cut between pointers, and the template does not end
within them. -/
structure HasTable (t : Target) (n : Nat) (lines front : List String) (rows : List Bytes) : Prop where
  table : ∃ marker table, lines = front ++ marker :: table ∧ isMarkerLine marker = true ∧
    (∀ line ∈ table, isMarkerLine line = false) ∧ Forall₂ IsRow table rows
  cuts : WholeCuts (t.pointerDigits / 2) n rows
  stop : ∀ m ∈ (Scan.run t {} 0 lines).stop, m.line < front.length ∨ (rows.drop (m.line - front.length)).flatten = [] ∨
    n * (t.pointerDigits / 2) ≤ (rows.take (m.line - front.length)).flatten.length

theorem flatMap_pointers_eq_nil (hw : 0 < w) (h : rows.flatten = []) : rows.flatMap (pointers w) = [] := by
  refine flatMap_eq_nil_iff.2 fun row hrow => ?_
  rw [flatten_eq_nil_iff.1 h row hrow]
  exact pointers_of_lt hw

/-- The line of a record whose row is completed has zeros behind its data. -/
theorem isRow_completed {b : Bytes} (h : IsRow line data) (haddress : (dataAddress? line).isSome)
    (hbytes : bytes line = .ok b) (hroom : b.dropLast.length ≤ 20) :
    ∃ n, IsRow (render (b.dropLast.set 0 0x10 ++ replicate (20 - b.dropLast.length) 0)) (data ++ replicate n 0) := by
  obtain ⟨hnone, -⟩ | ⟨r, hr, htype, rfl, -⟩ := h
  · rw [hnone] at haddress
    exact nomatch haddress
  · obtain ⟨-, -, hb⟩ := Record.parse_eq_ok_iff.1 hr
    obtain rfl := Except.ok.inj (hb.symm.trans hbytes)
    rw [dropLast_concat] at hroom ⊢
    rw [show r.content.length = 4 + r.data.length from length_append] at hroom ⊢
    let full : Record := ⟨16, r.address, r.type, r.data ++ replicate (20 - (4 + r.data.length)) 0⟩
    have hfull : full.content = r.content.set 0 0x10 ++ replicate (20 - (4 + r.data.length)) 0 := rfl
    have hlen : full.length = full.data.length := by
      show 16 = (r.data ++ replicate _ 0).length
      rw [length_append, length_replicate]
      omega
    exact ⟨_, hfull ▸ isRow_render hlen (by show 16 < 256; decide) htype⟩

/-- The lines behind the marker once the last row is complete: unchanged, with a record of zeros behind that which the
template ends at, or with that one completed. -/
theorem behind_cases {marker : String} (h : completeRow (front ++ marker :: table) m = .ok x)
    (hlt : m.line < (front ++ marker :: table).length) :
    x.lines.drop (x.shift front.length + 1) = table ∨
    (∃ address n, n < 256 ∧ front.length ≤ m.line ∧
      x.lines.drop (x.shift front.length + 1) = table.take (m.line - front.length) ++
        renderRecord dataType address (replicate n 0) :: table.drop (m.line - front.length)) ∨
    ∃ j b, m.line = front.length + 1 + j ∧ bytes (table.getD j "") = .ok b ∧ b.dropLast.length ≤ 20 ∧
      x.lines.drop (x.shift front.length + 1) =
        table.set j (render (b.dropLast.set 0 0x10 ++ replicate (20 - b.dropLast.length) 0)) := by
  have hbehind : ∀ k, (front ++ marker :: table).drop (front.length + 1 + k) = table.drop k := by
    intro k
    rw [append_cons, ← drop_drop, drop_left' (by rw [length_append]; rfl)]
  have htable := hbehind 0
  rw [Nat.add_zero, drop_zero] at htable
  obtain ⟨heq, hin⟩ | ⟨address, n, heq, hn, hin, hlast⟩ | ⟨b, heq, hbytes, hroom, hin⟩ := completeRow_forms h
  · rw [Ending.shift, hin, heq]
    exact .inl htable
  · have hinsert := insertIdx_length_append (take (m.line + 1) (front ++ marker :: table))
      (drop (m.line + 1) (front ++ marker :: table)) (renderRecord dataType address (replicate n 0))
    rw [take_append_drop, length_take, Nat.min_eq_left hlt, ← heq] at hinsert
    rw [Ending.shift, hin, hlast, Bool.true_and, hinsert]
    by_cases hbefore : m.line + 1 ≤ front.length
    · left
      rw [if_pos (decide_eq_true hbefore), append_cons, drop_append, drop_eq_nil_of_le (by simp; omega), nil_append,
        drop_drop, length_append, length_take, Nat.min_eq_left hlt, length_singleton,
        show m.line + 1 + (front.length + 1 + 1 - (m.line + 1 + 1)) = front.length + 1 by omega, htable]
    · obtain ⟨k, hk⟩ := Nat.exists_eq_add_of_le (Nat.le_of_lt_succ (Nat.lt_of_not_le hbefore))
      refine .inr (.inl ⟨address, n, hn, hk ▸ Nat.le_add_right .., ?_⟩)
      rw [if_neg (by simpa using Nat.lt_of_not_le hbefore), drop_append_of_le_length (by rw [length_take]; omega), drop_take,
        htable, hk, Nat.add_right_comm, hbehind, Nat.add_sub_cancel_left, Nat.add_sub_cancel_left]
  · rw [heq, Ending.shift, hin, Bool.false_and, if_neg Bool.false_ne_true, drop_set]
    by_cases hbefore : m.line < front.length + 1
    · rw [if_pos hbefore]
      exact .inl htable
    · obtain ⟨j, hj⟩ := Nat.exists_eq_add_of_le (Nat.le_of_not_lt hbefore)
      refine .inr (.inr ⟨j, b, hj, ?_, hroom, ?_⟩)
      · rwa [hj, getD_eq_getElem?_getD, ← getElem?_drop, htable, ← getD_eq_getElem?_getD] at hbytes
      · rw [if_neg hbefore, htable, hj, Nat.add_sub_cancel_left]

/-- What the pointers of the lines behind the marker make of functions is what those of the table do, once the last row
is complete. -/
theorem exists_rows (hw : t.pointerDigits = 2 * w) (h : HasTable t n lines front rows)
    (hstop : (Scan.run t {} 0 lines).stop = some m) (hx : completeRow lines m = .ok x) (hn : p.waiting.length ≤ n) :
    ∃ rows', Forall₂ IsRow (x.lines.drop (x.shift front.length + 1)) rows' ∧
      outcome t p (rows'.flatMap (pointers w)) = outcome t p (rows.flatMap (pointers w)) := by
  obtain ⟨hwidth, hpos⟩ := width_of_pointerDigits hw
  obtain ⟨⟨marker, table, rfl, -, -, hrows⟩, hcuts, hend⟩ := h
  have hend := hend m hstop
  rw [hwidth] at hcuts hend
  obtain ⟨line, hline, haddress⟩ := (valid_run t _).stop m hstop
  have hzeros : ∀ n, ∀ v ∈ pointers w (replicate n 0), v = 0 := fun n =>
    eq_zero_of_mem_pointers hpos fun _ hx => (mem_replicate.1 hx).2
  obtain heq | ⟨address, count, hcount, hle, heq⟩ | ⟨j, b, hj, hbytes, hroom, heq⟩ :=
    behind_cases hx (List.getElem?_eq_some_iff.1 hline).1
  · exact ⟨rows, heq ▸ hrows, rfl⟩
  · obtain ⟨k, hk⟩ := Nat.exists_eq_add_of_le hle
    rw [hk, Nat.add_sub_cancel_left] at heq hend
    have hfiller : IsRow (renderRecord dataType address (replicate count 0)) (replicate count 0) :=
      isRow_renderRecord address (by rwa [length_replicate])
    refine ⟨rows.take k ++ replicate count 0 :: rows.drop k,
      heq ▸ rel_append (forall₂_take k hrows) (.cons hfiller (forall₂_drop k hrows)), ?_⟩
    conv_rhs => rw [← take_append_drop k rows]
    rw [flatMap_append, flatMap_append, flatMap_cons, ← append_assoc]
    refine outcome_append_append hn ?_
    obtain hnil | hlen := hend.resolve_left (by omega)
    · exact .inr ⟨hzeros count, flatMap_pointers_eq_nil hpos hnil⟩
    · exact .inl ((hcuts.take k).le_length hpos hlen)
  · have htable : table[j]? = some line := by
      rw [← hline, hj, append_cons, getElem?_append_right (by rw [length_append]; exact Nat.le_add_right ..), length_append]
      exact congrArg (table[·]?) (Nat.add_sub_cancel_left ..).symm
    obtain ⟨hjlt, rfl⟩ := List.getElem?_eq_some_iff.1 htable
    obtain ⟨row, rest, hrow, hrest, hsplit⟩ :=
      forall₂_cons_left_iff.1 (drop_eq_getElem_cons hjlt ▸ forall₂_drop j hrows)
    rw [getD_eq_getElem?_getD, htable] at hbytes
    obtain ⟨count, hcomplete⟩ := isRow_completed hrow haddress hbytes hroom
    obtain ⟨vs, hvs, hcut⟩ := exists_pointers_append hpos row (replicate count 0)
    have hfront : rows.take (j + 1) = rows.take j ++ [row] := by
      rw [take_add, hsplit]
      rfl
    have hrest' : rows.drop (j + 1) = rest := by rw [← drop_drop, hsplit]; rfl
    rw [heq, set_eq_take_append_cons_drop, if_pos hjlt]
    refine ⟨rows.take j ++ (row ++ replicate count 0) :: rest, rel_append (forall₂_take j hrows) (.cons hcomplete hrest), ?_⟩
    conv_rhs => rw [← take_append_drop (j + 1) rows, hrest', flatMap_append]
    rw [flatMap_append, flatMap_cons, hvs, ← append_assoc, ← append_assoc, ← flatMap_singleton (pointers w) row, 
      ← flatMap_append, ← hfront]
    refine outcome_append_append hn ?_
    by_cases hlen : n * w ≤ (rows.take (j + 1)).flatten.length
    · exact .inl ((hcuts.take _).le_length hpos hlen)
    · -- the row ends between pointers, and nothing but zeros is behind it
      rw [show m.line - front.length = j + 1 by omega, hrest'] at hend
      have hnil := (hend.resolve_left (by omega)).resolve_right hlen
      have hafter := (hcuts (j + 1)).resolve_right hlen
      rw [hfront, flatten_append, length_append] at hafter hlen
      have hbefore := (hcuts j).resolve_right (by omega)
      rw [flatten_singleton, Nat.dvd_add_right hbefore] at hafter
      rw [hcut hafter]
      exact .inr ⟨hzeros count, flatMap_pointers_eq_nil hpos hnil⟩

/-! ## Templates -/

/-- Whether a failure is about a pointer: its value does not do, or functions are left without one. -/
def isPointerFault : Failure → Bool
  | .noPointerValue .. | .notThumbPointer .. | .missingFunctions .. => true
  | _ => false

theorem isPointerFault_endAt {f : Failure} (h : endAt t lines m = .error f) : isPointerFault f = false := by
  unfold endAt at h
  cases hx : completeRow lines m with
  | ok x =>
    rw [hx] at h
    dsimp only [bind, Except.bind] at h
    split at h
    · exact Except.error.inj h ▸ rfl
    · cases h
  | error f' =>
    rw [hx] at h
    obtain rfl := Except.error.inj h
    unfold completeRow bytes at hx
    dsimp only at hx
    split at hx
    · dsimp only [bind, Except.bind] at hx
      split at hx
      · split at hx
        · cases hx
        split at hx
        · cases hx
        split at hx
        · exact Except.error.inj hx ▸ rfl
        · cases hx
      · exact Except.error.inj hx ▸ rfl
    · exact Except.error.inj hx ▸ rfl

theorem map_functions (p : Except Failure PointerReader) (x : FunctionTable → Template)
    (hx : ∀ functions, (x functions).functions = functions) :
    (p >>= fun q => q.finish >>= fun functions => pure (x functions)).toOption.map (·.functions) =
      p.toOption >>= fun q => q.finish.toOption := by
  cases p with
  | error f => rfl
  | ok q =>
    show (q.finish >>= fun functions => pure (x functions)).toOption.map _ = q.finish.toOption
    cases q.finish with
    | error f => rfl
    | ok functions => exact congrArg some (hx functions)

/-- Record lines with a table give its pointers to the functions, if nothing else is wrong with them. -/
theorem functions_parseLines (hread : e.hex.mapM withUpperAddress = .ok lines)
    (h : HasTable t e.functions.length lines front rows) :
    (∃ f, parseLines t e = .error f ∧ isPointerFault f = false) ∨
      (parseLines t e).toOption.map (·.functions) =
        outcome t { waiting := e.functions } (pointers (t.pointerDigits / 2) rows.flatten) := by
  have hw := pointerDigits_eq t
  obtain ⟨marker, table, hlines, hmarker, htable, -⟩ := h.table
  obtain ⟨mark, hmark, hline⟩ : ∃ mark, (Scan.run t {} 0 lines).marker = some mark ∧ mark.line = front.length := by
    rw [← Option.map_eq_some_iff, hlines, Scan.marker_run_append hmarker htable, Nat.zero_add]
  unfold parseLines
  rw [hread]
  dsimp only [bind, Except.bind]
  rw [hmark]
  cases hstop : (Scan.run t {} 0 lines).stop with
  | none => exact .inl ⟨.noHexEnd, rfl, rfl⟩
  | some m =>
    rw [show Option.mapM (endAt t lines) (some m) = some <$> endAt t lines m from rfl]
    cases hend : endAt t lines m with
    | error f => exact .inl ⟨f, rfl, isPointerFault_endAt hend⟩
    | ok x =>
      right
      obtain ⟨rows', hrows', houtcome⟩ :=
        exists_rows hw h hstop (completeRow_of_endAt hend) (p := { waiting := e.functions }) (Nat.le_refl _)
      rw [← h.cuts.outcome_eq (width_of_pointerDigits hw).2 (Nat.le_refl _), ← houtcome, outcome,
        ← toOption_foldlM_linePointers hw hrows', ← hline]
      exact map_functions _ _ fun _ => rfl

/-- A flat template that holds a marker immediately followed by the bytes `table`: digits on one line or two. -/
structure HasFlatTable (e : Extension) (table : Bytes) : Prop where
  text : ∃ text rest data offset, e.hex = text :: rest ∧ rest.length ≤ 1 ∧
    Hexadecimal.decodeChars ((Text.trimChars text.toList).map Text.lower) = .ok data ∧
    Executable.magic.isPrefixOf data = false ∧ data.find? blobMarker = some offset ∧
    data.drop (offset + blobMarker.length) = table

theorem functions_parseFlat {table : Bytes} (hboot : t.useBootImage = false) (hnative : t.isNative = true)
    (h : HasFlatTable e table) :
    (parse t e).toOption.map (·.functions) =
      outcome t { waiting := e.functions } (pointers (t.pointerDigits / 2) table) := by
  have hw := pointerDigits_eq t
  have hpos := (width_of_pointerDigits hw).2
  obtain ⟨text, rest, data, offset, hhex, hrest, hdecode, hmagic, hfind, htable⟩ := h.text
  have hparse : parse t e = parseBlob t e text := by
    unfold parse
    rw [hboot, if_neg Bool.false_ne_true, hnative, if_neg (by decide), hhex]
    obtain _ | ⟨_, _ | ⟨_, _⟩⟩ := rest
    · rfl
    · rfl
    · exact absurd hrest (by simp)
  rw [hparse]
  unfold parseBlob
  dsimp only
  rw [hdecode]
  dsimp only [bind, Except.bind, pure, Except.pure]
  unfold Blob.parse
  rw [hmagic, if_neg Bool.false_ne_true]
  dsimp only
  rw [hfind]
  dsimp only
  rw [htable]
  refine (map_functions _ _ fun _ => rfl).trans ?_
  rw [toOption_addDigits_lower hw]
  exact outcome_take hpos ..

/-- Templates give the same functions whether their jump table is cut into records, between its pointers, or stands in
one piece. If one of the two is refused for its pointers, so is the other. -/
theorem functions_of_parse {e' : Extension} (hnative : t.isNative = true) (hboot : t.useBootImage = false)
    (hmany : 2 < e.hex.length) (hread : e.hex.mapM withUpperAddress = .ok lines)
    (htable : HasTable t e.functions.length lines front rows) (hflat : HasFlatTable e' rows.flatten)
    (hsame : e'.functions = e.functions) :
    (∀ x, parse t e = .ok x → ∃ y, parse t e' = .ok y ∧ y.functions = x.functions) ∧
      (∀ f, parse t e = .error f → isPointerFault f = true → ∃ f', parse t e' = .error f') ∧
        ∀ f, parse t e' = .error f → ∃ f', parse t e = .error f' := by
  have hparse : parse t e = parseLines t e := by
    unfold parse
    rw [hboot, if_neg Bool.false_ne_true, hnative, if_neg (by decide)]
    split
    next h => rw [h] at hmany; exact absurd hmany (by decide)
    next h => rw [h] at hmany; exact absurd hmany (by simp)
    next h => rw [h] at hmany; exact absurd hmany (by simp)
    next => rfl
  have hone := functions_parseFlat hboot hnative hflat
  rw [hsame] at hone
  have hrows := functions_parseLines hread htable
  rw [← hparse, ← hone] at hrows
  refine ⟨fun x hx => ?_, fun f hf hfault => ?_, fun f hf => ?_⟩
  · obtain ⟨f, hf, -⟩ | hrows := hrows
    · exact nomatch hx.symm.trans hf
    · rw [hx] at hrows
      obtain ⟨y, hy, hfunctions⟩ := exists_of_map_toOption hrows.symm
      exact ⟨y, hy, hfunctions⟩
  · obtain ⟨f', hf', hother⟩ | hrows := hrows
    · obtain rfl := Except.error.inj (hf.symm.trans hf')
      exact nomatch hfault.symm.trans hother
    · rw [hf] at hrows
      cases hy : parse t e' with
      | error f' => exact ⟨f', rfl⟩
      | ok y => rw [hy] at hrows; cases hrows
  · obtain ⟨f', hf', -⟩ | hrows := hrows
    · exact ⟨f', hf'⟩
    · rw [hf] at hrows
      cases hx : parse t e with
      | error f' => exact ⟨f', rfl⟩
      | ok x => rw [hx] at hrows; cases hrows

/-- An extension with two functions. -/
def tableExtension (hex : List String) : Extension :=
  { bareExtension [] with hex, functions := [⟨"foo", ["I"], 0⟩, ⟨"bar", ["I"], 0⟩] }

/-- A template of record lines: the marker, two records with the table, and the end. -/
def cutTemplate (a b : Bytes) : Extension :=
  tableExtension [renderRecord dataType 0 blobMarker, renderRecord dataType 0x10 a,
    renderRecord dataType (0x10 + a.length.toUInt16) b, ":00000001FF"]

/-- A flat template: some bytes, the marker, and the table. -/
def flatTemplate (table : Bytes) : Extension :=
  tableExtension ["00000000" ++ Hexadecimal.lower (blobMarker ++ table)]

/-- Two pointers in two records, of which the second has one byte more. -/
theorem functions_of_parse_rows :
    ∃ x y, parse (pagedTarget 0) (cutTemplate [0x35, 0x12, 0, 0] [1, 0x20, 0, 0, 7]) = .ok x ∧
      parse (pagedTarget 0) (flatTemplate [0x35, 0x12, 0, 0, 1, 0x20, 0, 0, 7]) = .ok y ∧ y.functions = x.functions := by
  let rows : List Bytes := [[0x35, 0x12, 0, 0], [1, 0x20, 0, 0, 7], []]
  have hcuts : WholeCuts 4 2 rows := by
    intro k
    obtain hlt | hle := Nat.lt_or_ge k 3
    · exact (by decide : ∀ k < 3, 4 ∣ (rows.take k).flatten.length ∨ 2 * 4 ≤ (rows.take k).flatten.length) k hlt
    · rw [take_of_length_le hle]
      decide
  have htable : HasTable (pagedTarget 0) 2 (cutTemplate [0x35, 0x12, 0, 0] [1, 0x20, 0, 0, 7]).hex [] rows := by
    refine ⟨⟨_, _, rfl, by decide +kernel, by decide +kernel, ?_⟩, hcuts, fun m hm => .inr (.inl ?_)⟩
    · exact .cons (isRow_renderRecord _ (by decide)) (.cons (isRow_renderRecord _ (by decide))
        (.cons (.inl ⟨by decide +kernel, rfl⟩) .nil))
    · have hstop : (Scan.run (pagedTarget 0) {} 0 (cutTemplate [0x35, 0x12, 0, 0] [1, 0x20, 0, 0, 7]).hex).stop.map
          (·.line) = some 2 := by decide +kernel
      rw [Option.mem_def.1 hm] at hstop
      rw [show m.line = 2 from Option.some.inj hstop]
      rfl
  have hflat : HasFlatTable (flatTemplate [0x35, 0x12, 0, 0, 1, 0x20, 0, 0, 7]) rows.flatten :=
    ⟨_, [], [0, 0, 0, 0] ++ blobMarker ++ rows.flatten, 4, rfl, Nat.zero_le 1, by decide +kernel, by decide +kernel,
      by decide +kernel, by decide +kernel⟩
  obtain ⟨lines, hread, rfl⟩ := exists_of_map_toOption (by decide +kernel :
    ((cutTemplate [0x35, 0x12, 0, 0] [1, 0x20, 0, 0, 7]).hex.mapM withUpperAddress).toOption.map id =
      some (cutTemplate [0x35, 0x12, 0, 0] [1, 0x20, 0, 0, 7]).hex)
  obtain ⟨x, hx⟩ := exists_of_isOk (by decide +kernel :
    (parse (pagedTarget 0) (cutTemplate [0x35, 0x12, 0, 0] [1, 0x20, 0, 0, 7])).isOk = true)
  obtain ⟨y, hy, hsame⟩ := (functions_of_parse rfl rfl (by decide) hread htable hflat rfl).1 x hx
  exact ⟨x, y, hx, hy, hsame⟩

/-- A record that ends within the second pointer gives `bar` another value: the first pointer of the next record. -/
theorem functions_cut :
    ∃ x y, parse (pagedTarget 0) (cutTemplate [0x35, 0x12, 0, 0, 1, 0x20] [1, 0, 3, 0]) = .ok x ∧
      parse (pagedTarget 0) (flatTemplate ([0x35, 0x12, 0, 0, 1, 0x20] ++ [1, 0, 3, 0])) = .ok y ∧
        x.functions.map (·.2.value) = [0x1235, 0x30001] ∧ y.functions.map (·.2.value) = [0x1235, 0x12001] := by
  obtain ⟨x, hx, hcut⟩ := exists_of_map_toOption (by decide +kernel :
    (parse (pagedTarget 0) (cutTemplate [0x35, 0x12, 0, 0, 1, 0x20] [1, 0, 3, 0])).toOption.map
      (·.functions.map (·.2.value)) = some [0x1235, 0x30001])
  obtain ⟨y, hy, hflat⟩ := exists_of_map_toOption (by decide +kernel :
    (parse (pagedTarget 0) (flatTemplate ([0x35, 0x12, 0, 0, 1, 0x20] ++ [1, 0, 3, 0]))).toOption.map
      (·.functions.map (·.2.value)) = some [0x1235, 0x12001])
  exact ⟨x, y, hx, hy, hcut, hflat⟩

end Template
end Firmware
