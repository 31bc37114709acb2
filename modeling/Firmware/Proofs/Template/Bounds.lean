import Firmware.Proofs.IntelHex.Reading
import Firmware.Proofs.Template.Forms
import Firmware.Proofs.Template.LastRow

/-!
# Reading templates within bounds

A step that reaches outside a buffer crashes, which is no failure like the others: it ends the whole run. Templates come
from outside, so this module says for lines of any form when reading them crashes. The line that a template ends at is
the only place: it has the bytes of a head (`Scan.Valid`), but it may have more of them than its length byte tells, and
then there is no room to complete its row (`crashes_parse`).
-/

namespace Firmware

open List

/-! ## Steps that crash -/

/-- Whether a step reaches outside a buffer. -/
def Crashes {α : Type} (r : Except Failure α) : Prop := ∃ f, r = .error f ∧ f.isOutOfRange = true

section Crashes

variable {α β : Type}
variable {x : Except Failure α}

@[simp] theorem not_crashes_ok (a : α) : ¬ Crashes (.ok a : Except Failure α) := by
  rintro ⟨f, hf, -⟩
  exact nomatch hf

@[simp] theorem not_crashes_pure (a : α) : ¬ Crashes (pure a : Except Failure α) := not_crashes_ok a

@[simp] theorem crashes_error (f : Failure) : Crashes (.error f : Except Failure α) ↔ f.isOutOfRange = true := by
  constructor
  · rintro ⟨g, hg, hrange⟩
    rw [Except.error.inj hg]
    exact hrange
  · exact fun hrange => ⟨f, rfl, hrange⟩

theorem not_crashes_error {f : Failure} (h : f.isOutOfRange = false) : ¬ Crashes (.error f : Except Failure α) := by
  rw [crashes_error, h]
  exact Bool.false_ne_true

instance : (r : Except Failure α) → Decidable (Crashes r)
  | .ok a => isFalse (not_crashes_ok a)
  | .error f => decidable_of_iff _ (crashes_error f).symm

theorem isOutOfRange_of_not_crashes {f : Failure} (h : ¬ Crashes x) (hx : x = .error f) : f.isOutOfRange = false := by
  rw [hx, crashes_error] at h
  exact Bool.eq_false_iff.2 h

/-- A sequence of two steps crashes where one of them does. -/
theorem crashes_bind {g : α → Except Failure β} : Crashes (x >>= g) ↔ Crashes x ∨ ∃ a, x = .ok a ∧ Crashes (g a) := by
  cases x with
  | error f =>
    show Crashes (.error f) ↔ _
    simp
  | ok a =>
    show Crashes (g a) ↔ _
    simp

theorem not_crashes_bind {g : α → Except Failure β} (hx : ¬ Crashes x) (hg : ∀ a, x = .ok a → ¬ Crashes (g a)) :
    ¬ Crashes (x >>= g) := by
  rw [crashes_bind]
  rintro (h | ⟨a, ha, h⟩)
  · exact hx h
  · exact hg a ha h

@[simp] theorem crashes_map {g : α → β} : Crashes (x.map g) ↔ Crashes x := by
  cases x with
  | error f => simp [Except.map]
  | ok a => simp [Except.map]

theorem crashes_mapM_cons {f : α → Except Failure β} {a : α} {l : List α} :
    Crashes ((a :: l).mapM f) ↔ Crashes (f a) ∨ (∃ b, f a = .ok b) ∧ Crashes (l.mapM f) := by
  rw [mapM_cons, crashes_bind]
  constructor
  · rintro (h | ⟨b, hb, h⟩)
    · exact .inl h
    · obtain h | ⟨bs, -, h⟩ := crashes_bind.1 h
      · exact .inr ⟨⟨b, hb⟩, h⟩
      · exact absurd h (not_crashes_pure _)
  · rintro (h | ⟨⟨b, hb⟩, h⟩)
    · exact .inl h
    · exact .inr ⟨b, hb, crashes_bind.2 (.inl h)⟩

theorem not_crashes_mapM {f : α → Except Failure β} (h : ∀ a, ¬ Crashes (f a)) (l : List α) : ¬ Crashes (l.mapM f) := by
  induction l with
  | nil => simp
  | cons a rest ih =>
    rw [crashes_mapM_cons]
    rintro (ha | ⟨-, hrest⟩)
    · exact h a ha
    · exact ih hrest

theorem not_crashes_foldlM {f : β → α → Except Failure β} (h : ∀ b a, ¬ Crashes (f b a)) (b : β) (l : List α) :
    ¬ Crashes (l.foldlM f b) := by
  induction l generalizing b with
  | nil => simp
  | cons a rest ih =>
    rw [foldlM_cons]
    exact not_crashes_bind (h b a) fun b' _ => ih b'

end Crashes

/-! ## Pointers -/

namespace PointerReader

theorem not_crashes_add (t : Target) (p : PointerReader) (value : UInt32) (digits : Bytes) :
    ¬ Crashes (p.add t value digits) := by
  unfold add
  split
  · simp
  · split
    · simp [Failure.isOutOfRange]
    · split
      · simp
      · split <;> simp [Failure.isOutOfRange]

theorem not_crashes_addDigits (t : Target) (p : PointerReader) (row : Bytes) : ¬ Crashes (p.addDigits t row) := by
  refine not_crashes_foldlM (fun p digits => ?_) _ _
  unfold addPointer
  split
  · simp
  · dsimp only
    split
    · simp [Failure.isOutOfRange]
    · exact not_crashes_add t p _ _

theorem not_crashes_addBytes (t : Target) (p : PointerReader) (b : Bytes) : ¬ Crashes (p.addBytes t b) := by
  refine not_crashes_foldlM (fun p word => ?_) _ _
  unfold addWord
  split
  · simp
  · exact not_crashes_add t p _ _

theorem not_crashes_finish (p : PointerReader) : ¬ Crashes p.finish := by
  unfold finish
  split <;> simp [Failure.isOutOfRange]

end PointerReader

namespace IntelHex

theorem not_crashes_bytes (line : String) : ¬ Crashes (bytes line) := by
  unfold bytes
  dsimp only
  split <;> simp [Failure.isOutOfRange]

end IntelHex

namespace BootImage

theorem not_crashes_readSegments (chip : Chip) (n : Nat) (segments : List Segment) (b : Bytes) :
    ¬ Crashes (readSegments chip n segments b) := by
  induction n generalizing segments b with
  | zero => exact not_crashes_ok _
  | succ n ih =>
    unfold readSegments
    split
    · exact not_crashes_error rfl
    · dsimp only
      split
      · exact not_crashes_error rfl
      · exact ih _ _

theorem not_crashes_parseLines (lines : List String) : ¬ Crashes (parseLines lines) := by
  unfold parseLines
  split
  · exact not_crashes_error rfl
  · unfold parse
    split
    · exact not_crashes_error rfl
    · split
      · exact not_crashes_error rfl
      · dsimp only
        split
        · exact not_crashes_error rfl
        · exact not_crashes_bind (not_crashes_readSegments _ _ _ _) fun segments _ => not_crashes_pure _

end BootImage

namespace Template

open IntelHex

variable {m : Mark}

/-! ## Marks -/

/-- Whether a mark is on a line that starts as a data record. -/
def Mark.IsOn (m : Mark) (lines : List String) : Prop :=
  ∃ line, lines[m.line]? = some line ∧ (dataAddress? line).isSome

namespace Scan

/-- Whether all that a scan has found is on lines that start as data records. -/
structure Valid (lines : List String) (s : Scan) : Prop where
  last : ∀ m ∈ s.last, m.IsOn lines
  stop : ∀ m ∈ s.stop, m.IsOn lines
  marker : ∀ m ∈ s.marker, m.IsOn lines

variable {t : Target} {lines : List String} {s : Scan}

theorem Valid.close (h : Valid lines s) : Valid lines s.close := by
  refine ⟨h.last, fun m hm => ?_, h.marker⟩
  unfold Scan.close at hm
  dsimp only at hm
  cases hstop : s.stop with
  | none =>
    rw [hstop] at hm
    exact h.last m hm
  | some m' =>
    rw [hstop] at hm
    exact h.stop m (by rw [hstop]; exact hm)

theorem Valid.addData (h : Valid lines s) {m : Mark} (hm : m.IsOn lines) : Valid lines (s.addData t m) := by
  -- a data record is the last one, and may fix the end at the one before it
  have hlast : ∀ s' : Scan, Valid lines s' → Valid lines { s' with last := some m } := by
    intro s' hs'
    refine ⟨fun m' hm' => ?_, hs'.stop, hs'.marker⟩
    obtain rfl := Option.some.inj hm'
    exact hm
  unfold Scan.addData
  dsimp only
  split
  · exact hlast _ (by split <;> first | exact h.close | exact h)
  · exact hlast _ (by split <;> first | exact h.close | exact h)

theorem Valid.addLine (h : Valid lines s) {i : Nat} {line : String} (hline : lines[i]? = some line) :
    Valid lines (s.addLine t i line) := by
  unfold Scan.addLine
  extract_lets s₁ s₂ s₃
  have h₁ : Valid lines s₁ := by
    unfold s₁
    split
    · exact ⟨h.last, h.stop, h.marker⟩
    · exact h
  have h₂ : Valid lines s₂ := by
    unfold s₂
    split
    next digits hdigits =>
      refine h₁.addData ⟨line, hline, ?_⟩
      rw [hdigits]
      rfl
    next => exact h₁
  have h₃ : Valid lines s₃ := by
    unfold s₃
    split
    · exact h₂.close
    · exact h₂
  split
  · exact ⟨h₃.last, h₃.stop, h₃.last⟩
  · exact h₃

theorem Valid.run (h : Valid lines s) {i : Nat} {rest : List String} (hrest : lines.drop i = rest) :
    Valid lines (s.run t i rest) := by
  induction rest generalizing s i with
  | nil => exact h
  | cons line rest ih =>
    have hline : lines[i]? = some line := by
      rw [← head?_drop, hrest]
      rfl
    have hdrop : lines.drop (i + 1) = rest := by
      rw [← tail_drop, hrest]
      rfl
    exact ih (h.addLine hline) hdrop

end Scan

/-! ## The last row -/

/-- Whether a mark is on a record that ends within the row it starts, by its length byte, but has more bytes than a
row. -/
def Overlong (m : Mark) (b : Bytes) : Prop :=
  ∃ n hi low rest, b = n :: hi :: low :: rest ∧ missing (m.address + n.toUInt32) ≠ 0 ∧ low &&& 0xf = 0 ∧ n ≤ 0x10 ∧
    21 < b.length

variable {t : Target} {e : Extension} {lines : List String}

/-- Completing a row crashes where the record has no room for it. -/
theorem crashes_completeRow (hm : m.IsOn lines) :
    Crashes (completeRow lines m) ↔ ∃ b, bytes (lines.getD m.line "") = .ok b ∧ Overlong m b := by
  obtain ⟨line, hline, haddress⟩ := hm
  have hget : lines.getD m.line "" = line := by rw [getD_eq_getElem?_getD, hline, Option.getD_some]
  unfold completeRow
  rw [hget]
  cases hbytes : bytes line with
  | error f =>
    constructor
    · exact fun h => absurd h (not_crashes_error (isOutOfRange_of_not_crashes (not_crashes_bytes line) hbytes))
    · rintro ⟨b, hb, -⟩
      exact nomatch hb
  | ok b =>
    have hlong := length_of_dataAddress? haddress hbytes
    match b, hlong with
    | n :: hi :: low :: rest, _ =>
      have hmissing : (((0x10 - ((m.address + n.toUInt32) &&& 0xf)) &&& 0xf) == 0) = true ↔
          missing (m.address + n.toUInt32) = 0 := by
        rw [beq_iff_eq, ← UInt32.toNat_inj, toNat_missing]
        rfl
      have hown : (low &&& 0xf != 0 || decide (0x10 < n)) = true ↔ ¬ (low &&& 0xf = 0 ∧ n ≤ 0x10) := by
        rw [Bool.or_eq_true, bne_iff_ne, decide_eq_true_iff, ← UInt8.not_le]
        exact Decidable.not_and_iff_not_or_not.symm
      have hroom : 20 < (n :: hi :: low :: rest).dropLast.length ↔ 21 < (n :: hi :: low :: rest).length := by
        rw [length_dropLast]
        omega
      dsimp only [bind, Except.bind]
      constructor
      · intro h
        split at h
        next => exact absurd h (not_crashes_pure _)
        next hne =>
          split at h
          next => exact absurd h (not_crashes_pure _)
          next hrow =>
            obtain ⟨hlow, hn⟩ := Decidable.not_not.1 fun hnot => hrow (hown.2 hnot)
            split at h
            next hfull =>
              exact ⟨_, rfl, n, hi, low, rest, rfl, fun hzero => hne (hmissing.2 hzero), hlow, hn, hroom.1 hfull⟩
            next => exact absurd h (not_crashes_pure _)
      · rintro ⟨b, hb, n', hi', low', rest', rfl, hne, hlow, hn, hfull⟩
        obtain ⟨rfl, rfl, rfl, rfl⟩ : n = n' ∧ hi = hi' ∧ low = low' ∧ rest = rest' := by simpa using hb
        rw [if_neg fun hzero => hne (hmissing.1 hzero), if_neg fun hnot => hown.1 hnot ⟨hlow, hn⟩,
          if_pos (hroom.2 hfull)]
        exact (crashes_error _).2 rfl

theorem crashes_endAt (hm : m.IsOn lines) :
    Crashes (endAt t lines m) ↔ ∃ b, bytes (lines.getD m.line "") = .ok b ∧ Overlong m b := by
  unfold endAt
  rw [crashes_bind, crashes_completeRow hm]
  constructor
  · rintro (h | ⟨x, -, h⟩)
    · exact h
    · dsimp only at h
      split at h
      · exact absurd h (not_crashes_error rfl)
      · exact absurd h (not_crashes_pure x)
  · exact .inl

/-! ## Whole templates -/

/-- Whether the record that a template of record lines ends at is overlong. -/
def EndsOverlong (t : Target) (e : Extension) : Prop :=
  ∃ lines m b, e.hex.mapM withUpperAddress = .ok lines ∧ (Scan.run t {} 0 lines).stop = some m ∧
    bytes (lines.getD m.line "") = .ok b ∧ Overlong m b

theorem valid_run (t : Target) (lines : List String) : Scan.Valid lines (Scan.run t {} 0 lines) := by
  have hempty : Scan.Valid lines {} := by
    constructor <;> exact fun m hm => (nomatch hm)
  exact hempty.run rfl

theorem not_crashes_withUpperAddress (line : String) : ¬ Crashes (withUpperAddress line) := by
  unfold withUpperAddress
  split
  · simp
  · split
    · simp [Failure.isOutOfRange]
    · dsimp only
      split <;> simp [Failure.isOutOfRange]

theorem not_crashes_linePointers (t : Target) (p : PointerReader) (line : String) :
    ¬ Crashes (linePointers t p line) := by
  unfold linePointers
  split
  · simp
  · split
    · simp
    · exact p.not_crashes_addDigits t _

theorem crashes_parseLines : Crashes (parseLines t e) ↔ EndsOverlong t e := by
  unfold parseLines
  rw [crashes_bind]
  constructor
  · rintro (h | ⟨lines, hlines, h⟩)
    · exact absurd h (not_crashes_mapM not_crashes_withUpperAddress _)
    dsimp only at h
    obtain h | ⟨ending, -, h⟩ := crashes_bind.1 h
    · -- the row is completed at the end that the scan has found
      cases hstop : (Scan.run t {} 0 lines).stop with
      | none =>
        rw [hstop] at h
        exact absurd h (not_crashes_pure none)
      | some m =>
        rw [hstop] at h
        have hend : Crashes (endAt t lines m) := by
          obtain h | ⟨x, -, h⟩ := crashes_bind.1 h
          · exact h
          · exact absurd h (not_crashes_pure _)
        obtain ⟨b, hb, hlong⟩ := (crashes_endAt ((valid_run t lines).stop m hstop)).1 hend
        exact ⟨lines, m, b, hlines, hstop, hb, hlong⟩
    · exfalso
      split at h
      next marker hmarker =>
        split at h
        next x =>
          refine not_crashes_bind (not_crashes_foldlM (not_crashes_linePointers t) _ _) (fun p _ => ?_) h
          exact not_crashes_bind p.not_crashes_finish fun functions _ => not_crashes_pure _
        next => exact not_crashes_error rfl h
      next => exact not_crashes_error rfl h
  · rintro ⟨lines, m, b, hlines, hstop, hb, hlong⟩
    refine .inr ⟨lines, hlines, ?_⟩
    dsimp only
    refine crashes_bind.2 (.inl ?_)
    rw [hstop]
    exact crashes_bind.2 (.inl ((crashes_endAt ((valid_run t lines).stop m hstop)).2 ⟨b, hb, hlong⟩))

theorem not_crashes_parseBoot : ¬ Crashes (parseBoot t e) := by
  refine not_crashes_bind (BootImage.not_crashes_parseLines e.hex) fun img _ => ?_
  dsimp only
  split
  next segment _ =>
    split
    next offset _ =>
      refine not_crashes_bind (PointerReader.not_crashes_addBytes t _ _) fun p _ => ?_
      exact not_crashes_bind p.not_crashes_finish fun functions _ => not_crashes_pure _
    next => exact not_crashes_error rfl
  next => exact not_crashes_error rfl

/-- **Reading crashes** exactly where a template of three lines or more is made of record lines and the record that it
ends at is overlong. -/
theorem crashes_parse (hlines : 3 ≤ e.hex.length) :
    Crashes (parse t e) ↔ t.useBootImage = false ∧ t.isNative = true ∧ EndsOverlong t e := by
  unfold parse
  split
  next hboot =>
    constructor
    · exact fun h => absurd h not_crashes_parseBoot
    · rintro ⟨hnot, -⟩
      rw [hboot] at hnot
      exact nomatch hnot
  next hboot =>
    have hboot : t.useBootImage = false := Bool.eq_false_iff.2 hboot
    split
    next hvm =>
      constructor
      · exact fun h => absurd h (not_crashes_ok _)
      · rintro ⟨-, hnative, -⟩
        rw [hnative] at hvm
        exact nomatch hvm
    next hnative =>
      have hnative : t.isNative = true := by simpa using hnative
      rw [← crashes_parseLines]
      split
      next hnil => simp [hnil] at hlines
      next hone => simp [hone] at hlines
      next htwo => simp [htwo] at hlines
      next => exact ⟨fun h => ⟨hboot, hnative, h⟩, fun h => h.2.2⟩

/-! ## Templates of record lines -/

/-- What linking relies on in a template of record lines. -/
structure HoldsLines (x : Template) : Prop where
  boot : x.boot = none
  blob : x.blob = none
  start : 0 ≤ x.codeStartLine
  start_le : x.codeStartLine.toNat ≤ x.lines.length
  table : 0 ≤ x.jumpTableLine
  short : Short x.lines

theorem short_render {b : Bytes} (h : b.length < 1000) : (Utf8.encode (render b)).length ≤ largestBuffer := by
  rw [length_encode_render]
  unfold largestBuffer
  omega

theorem short_of_withUpperAddress {hex : List String} (hshort : Short hex) (h : hex.mapM withUpperAddress = .ok lines) :
    Short lines := by
  induction hex generalizing lines with
  | nil =>
    obtain rfl := Except.ok.inj h
    exact hshort
  | cons line rest ih =>
    rw [mapM_cons] at h
    obtain ⟨line', hline, h⟩ := exists_of_bind_eq_ok h
    obtain ⟨rest', hrest, h⟩ := exists_of_bind_eq_ok h
    obtain rfl := Except.ok.inj h
    obtain ⟨hfirst, hshort⟩ := forall_mem_cons.1 hshort
    refine forall_mem_cons.2 ⟨?_, ih hshort hrest⟩
    unfold withUpperAddress at hline
    split at hline
    next => exact Except.ok.inj hline ▸ hfirst
    next =>
      split at hline
      next => exact nomatch hline
      next =>
        dsimp only at hline
        split at hline
        next => exact nomatch hline
        next =>
          obtain rfl := Except.ok.inj hline
          exact short_render (show 6 < 1000 by decide)

theorem of_completeRow {x : Ending} (hm : m.IsOn lines) (hshort : Short lines) (h : completeRow lines m = .ok x) :
    x.lastLine < x.lines.length ∧ Short x.lines := by
  obtain ⟨line, hline, -⟩ := hm
  have hin : m.line < lines.length := (List.getElem?_eq_some_iff.1 hline).1
  unfold completeRow at h
  obtain ⟨b, -, h⟩ := exists_of_bind_eq_ok h
  split at h
  next n hi low rest =>
    dsimp only at h
    split at h
    next =>
      obtain rfl := Except.ok.inj h
      exact ⟨hin, hshort⟩
    next =>
      split at h
      next =>
        obtain rfl := Except.ok.inj h
        have hmissing := missing_lt (m.address + n.toUInt32)
        refine ⟨?_, fun line hline => ?_⟩
        · rw [length_insertIdx_of_le_length (by omega)]
          exact Nat.succ_lt_succ hin
        · obtain rfl | hline := (mem_insertIdx (by omega)).1 hline
          · refine short_render ?_
            simp only [length_append, length_cons, length_nil, length_replicate, toNat_missing]
            omega
          · exact hshort line hline
      next =>
        split at h
        next => exact nomatch h
        next hroom =>
          obtain rfl := Except.ok.inj h
          refine ⟨by rw [length_set]; exact hin, fun line hline => ?_⟩
          obtain hline | rfl := mem_or_eq_of_mem_set hline
          · exact hshort line hline
          · refine short_render ?_
            rw [length_append, length_set, length_replicate]
            omega
  next => exact nomatch h

theorem completeRow_of_endAt {x : Ending} (h : endAt t lines m = .ok x) : completeRow lines m = .ok x := by
  obtain ⟨x', hrow, h⟩ := exists_of_bind_eq_ok h
  dsimp only at h
  split at h
  next => exact nomatch h
  next => exact Except.ok.inj h ▸ hrow

theorem holdsLines_of_parseLines {x : Template} (hshort : Short e.hex) (h : parseLines t e = .ok x) :
    x.HoldsLines ∧ x.target = t := by
  obtain ⟨lines, m, marker, ending, h⟩ := exists_fromLines h
  obtain ⟨hlast, hlines⟩ := of_completeRow ((valid_run t lines).stop m h.stop)
    (short_of_withUpperAddress hshort h.read) (completeRow_of_endAt h.ends)
  refine ⟨⟨h.boot, h.blob, ?_, ?_, ?_, ?_⟩, h.target⟩
  · rw [h.startLine]
    exact Int.natCast_nonneg _
  · rw [h.startLine, h.lines]
    exact hlast
  · rw [h.tableLine]
    exact Int.natCast_nonneg _
  · rw [h.lines]
    exact hlines

end Template
end Firmware
