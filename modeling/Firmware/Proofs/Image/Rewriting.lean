import Firmware.Image.ObjectHeader
import Firmware.Proofs.Bytes
import Firmware.Proofs.IntelHex.Reading
import Firmware.Proofs.Template.Scan
import Mathlib.Data.List.Forall2
import Mathlib.Logic.Relation

/-!
# Lines that are written over

Data is written over other data across lines, and what is written can be read from where it goes. A line that was
written over is a data record with the same head and as many bytes (`Rewritten`); all others stay as they are, and none
is added or lost (`overwrite_rewritten`). So it is with the lines of a template whose placeholders are replaced
(`replaceInLines_rewritten`). Offsets are counted in 64 bits, which no line is long enough for to matter (`Short`).
-/

namespace Firmware

open List

theorem wrap64_eq {n : Int} (h0 : 0 ≤ n) (hmax : n < 0x10000000000000000) :
    wrap64 n = if n < 0x8000000000000000 then n else n - 0x10000000000000000 := by
  show (if n % 18446744073709551616 < (18446744073709551616 + 1) / 2 then n % 18446744073709551616
    else n % 18446744073709551616 - 18446744073709551616) = _
  split <;> split <;> omega

namespace IntelHex

/-- The type of a record is the fourth byte of its line. -/
theorem type_of_parse {line : String} {r : Record} (h : Record.parse line = .ok r) {b : Bytes}
    (hbytes : bytes line = .ok b) : b[3]? = some r.type := by
  obtain ⟨hi, lo, sum, hline, -⟩ := bytes_of_parse h
  obtain rfl := Except.ok.inj (hline.symm.trans hbytes)
  rfl

/-! ## Writing over data -/

/-- Whether `line'` can be left of `line` when data is written over: the line itself, or that of a data record with the
same head and as many bytes. -/
inductive Rewritten (line : String) : String → Prop
  | same : Rewritten line line
  | data (b b' : Bytes) (hbytes : bytes line = .ok b) (hdata : holdsData b = true) (hlength : b'.length + 1 = b.length)
      (hhead : b'.take 4 = b.take 4) : Rewritten line (render b')

theorem length_of_holdsData {b : Bytes} (h : holdsData b = true) : 5 < b.length := by
  unfold holdsData at h
  rw [Bool.and_eq_true, decide_eq_true_iff] at h
  exact h.1

namespace Rewritten

variable {line line' line'' : String}

theorem holdsData_append {b b' : Bytes} (hdata : holdsData b = true) (hlength : b'.length + 1 = b.length)
    (hhead : b'.take 4 = b.take 4) (x : UInt8) : holdsData (b' ++ [x]) = true := by
  unfold holdsData at hdata ⊢
  rw [Bool.and_eq_true, decide_eq_true_iff] at hdata ⊢
  obtain ⟨hlong, htype⟩ := hdata
  have hb : b'[3]? = b[3]? := by
    rw [← getElem?_take_of_lt (by decide : 3 < 4), hhead, getElem?_take_of_lt (by decide)]
  rw [length_append, getElem?_append_left (by omega), hb]
  exact ⟨by simp only [length_cons, length_nil]; omega, htype⟩

theorem trans (h : Rewritten line line') (h' : Rewritten line' line'') : Rewritten line line'' := by
  cases h with
  | same => exact h'
  | data b b' hbytes hdata hlength hhead =>
    cases h' with
    | same => exact .data b b' hbytes hdata hlength hhead
    | data c c' hbytes' hdata' hlength' hhead' =>
      -- the bytes of a line that was written are known
      obtain rfl := Except.ok.inj ((bytes_render b').symm.trans hbytes')
      have hlong := length_of_holdsData hdata
      rw [take_append_of_le_length (by omega)] at hhead'
      rw [length_append] at hlength'
      exact .data b c' hbytes hdata (by simpa [hlength] using hlength') (hhead'.trans hhead)

/-- A line that was written has no space around it, but may have got a colon. -/
theorem length_le (h : Rewritten line line') : (Utf8.encode line').length ≤ (Utf8.encode line).length + 1 := by
  cases h with
  | same => exact Nat.le_succ _
  | data b b' hbytes hdata hlength hhead =>
    have hlong := length_of_bytes hbytes
    rw [length_encode_render]
    omega

end Rewritten

/-- Where bytes are written over others their number stays. -/
theorem length_overwrite_any (b : Bytes) (start : Nat) (src : Bytes) : (b.overwrite start src).length = b.length := by
  simp only [Bytes.overwrite, length_append, length_take, length_drop]
  omega

theorem overwrite_nil (off : Int) (lines : List String) : overwrite off [] lines = (lines, none) := by
  cases lines <;> rfl

/-- What writing does at a line: it ends there if the line cannot be read, passes over a line without data, and leaves
to the lines that follow what does not fit. -/
theorem overwrite_cons {off : Nat} (hoff : off < 2 ^ 63) {patch : Bytes} (hpatch : patch ≠ []) (line : String)
    (rest : List String) :
    (∃ f, (off < 2 ^ 63 - 4 → bytes line = .error f) ∧ overwrite off patch (line :: rest) = (line :: rest, some f)) ∨
    (∃ b, bytes line = .ok b ∧ holdsData b = false ∧
      overwrite off patch (line :: rest) = (line :: (overwrite 0 patch rest).1, (overwrite 0 patch rest).2)) ∨
    ∃ b, bytes line = .ok b ∧ holdsData b = true ∧ off < 2 ^ 63 - 4 ∧
      let left := overwrite 0 (patch.drop (b.length - 1 - (4 + off))) rest
      overwrite off patch (line :: rest) = (render (Bytes.overwrite b.dropLast (4 + off) patch) :: left.1, left.2) := by
  rw [overwrite.eq_3 _ _ _ _ (by simpa using hpatch)]
  cases hbytes : bytes line with
  | error f => exact .inl ⟨f, fun _ => rfl, rfl⟩
  | ok b =>
    dsimp only
    by_cases hdata : holdsData b = true
    · have hstart := wrap64_eq (show (0 : Int) ≤ 4 + off by omega) (by omega)
      by_cases hsmall : off < 2 ^ 63 - 4
      · refine .inr (.inr ⟨b, rfl, hdata, hsmall, ?_⟩)
        rw [if_pos (by omega)] at hstart
        rw [if_pos hdata, hstart, if_neg (by omega), show ((4 : Int) + off).toNat = 4 + off by omega, length_dropLast]
      · refine .inl ⟨.outOfRange, fun h => absurd h hsmall, ?_⟩
        rw [if_neg (by omega)] at hstart
        rw [if_pos hdata, hstart, if_pos (by omega)]
    · exact .inr (.inl ⟨b, rfl, Bool.eq_false_iff.2 hdata, by rw [if_neg hdata]⟩)

/-- **Lines that are written over** are those of data records, with the same heads and lengths. -/
theorem overwrite_rewritten {off : Nat} (hoff : off < 2 ^ 63) (patch : Bytes) (lines : List String) :
    List.Forall₂ Rewritten lines (overwrite off patch lines).1 := by
  have hsame : ∀ lines : List String, List.Forall₂ Rewritten lines lines :=
    fun lines => List.forall₂_same.2 fun line _ => .same
  induction lines generalizing off patch with
  | nil => cases patch <;> exact .nil
  | cons line rest ih =>
    by_cases hpatch : patch = []
    · rw [hpatch, overwrite_nil]
      exact hsame _
    obtain ⟨f, -, heq⟩ | ⟨b, -, -, heq⟩ | ⟨b, hbytes, hdata, -, heq⟩ := overwrite_cons hoff hpatch line rest
    · rw [heq]
      exact hsame _
    · rw [heq]
      exact .cons .same (ih (by decide) patch)
    · rw [heq]
      have hlong := length_of_holdsData hdata
      refine .cons (.data b _ hbytes hdata ?_ ?_) (ih (by decide) _)
      · rw [length_overwrite_any, length_dropLast]
        omega
      · unfold Bytes.overwrite
        rw [append_assoc, take_append_of_le_length (by rw [length_take, length_dropLast]; omega),
          take_take, dropLast_eq_take, take_take]
        congr 1
        omega

theorem writeData_zero (lines : List String) (off : Int) {patch : Bytes} (hpatch : patch ≠ []) :
    writeData lines 0 off patch = overwrite off patch lines := by
  unfold writeData
  rw [if_neg (by simpa using hpatch), if_neg (by decide)]
  exact Prod.ext (nil_append _) rfl

theorem writeData_rewritten {off : Nat} (hoff : off < 2 ^ 63) (patch : Bytes) (lines : List String) :
    List.Forall₂ Rewritten lines (writeData lines 0 off patch).1 := by
  by_cases hpatch : patch = []
  · rw [hpatch]
    exact List.forall₂_same.2 fun line _ => .same
  · rw [writeData_zero lines off hpatch]
    exact overwrite_rewritten hoff patch lines

theorem forall₂_trans {lines lines' lines'' : List String} (h : List.Forall₂ Rewritten lines lines')
    (h' : List.Forall₂ Rewritten lines' lines'') : List.Forall₂ Rewritten lines lines'' := by
  induction h generalizing lines'' with
  | nil => exact h'
  | cons hline _ ih =>
    cases h' with
    | cons hline' hrest' => exact .cons (hline.trans hline') (ih hrest')

theorem rewritten_of_writeData {off : Nat} (hoff : off < 2 ^ 63) {patch : Bytes} {original lines lines' : List String}
    {fault : Option Failure} (hlines : List.Forall₂ Rewritten original lines)
    (h : writeData lines 0 off patch = (lines', fault)) : List.Forall₂ Rewritten original lines' := by
  have hwritten := writeData_rewritten hoff patch lines
  rw [h] at hwritten
  exact forall₂_trans hlines hwritten

end IntelHex

/-! ## Placeholders -/

namespace ObjectHeader

open IntelHex Relation

variable {t : Template} {original lines lines' : List String}

/-- Whether the marker of a placeholder stands in a line at character `i`, where a byte of the data can start. -/
structure IsPlace (line : String) (i : Nat) : Prop where
  marker : markerDigits.isPrefixOf ((Utf8.encode line).drop i) = true
  head : headDigits ≤ i
  fits : i + markerDigits.length + 2 ≤ (Utf8.encode line).length
  whole : (i - headDigits) % 2 = 0

theorem IsPlace.le_length {line : String} {i : Nat} (h : IsPlace line i) : i ≤ (Utf8.encode line).length :=
  Nat.le_trans (Nat.le_add_right i 10) h.fits

/-- The byte of the data that stands at character `i` of a line. -/
def offsetAt (i : Nat) : Nat := (i - headDigits) / 2

/-- The header for what stands at character `i` of the first of the lines. -/
def headerAt (t : Template) (lines : List String) (i : Nat) : Except Failure (Option ObjectHeader) :=
  readData lines 0 (offsetAt i) window >>= at? t

/-- What can come of a visit to the first of the lines from character `pos` on, where `next` goes on: no place is left;
or the first place is passed over, or it has no header, or the header is refused, or it is written. -/
inductive Visits (t : Template) (line : String) (rest : List String) (pos : Nat)
    (next : Nat → List String → Except Failure (List String)) : Except Failure (List String) → Prop
  | done (hnone : ∀ i, pos ≤ i → ¬ IsPlace line i) : Visits t line rest pos next (.ok (line :: rest))
  | passes (i : Nat) (hpos : pos ≤ i) (hlt : i < (Utf8.encode line).length)
      (hfirst : ∀ j, pos ≤ j → j < i → ¬ IsPlace line j)
      (hnone : IsPlace line i → headerAt t (line :: rest) i = .ok none) :
      Visits t line rest pos next (next (i + 1) (line :: rest))
  | fails (i : Nat) (f : Failure) (hpos : pos ≤ i) (hplace : IsPlace line i)
      (hfirst : ∀ j, pos ≤ j → j < i → ¬ IsPlace line j) (hheader : headerAt t (line :: rest) i = .error f) :
      Visits t line rest pos next (.error f)
  | refused (i : Nat) (h : ObjectHeader) (lines : List String) (f : Failure) (hpos : pos ≤ i) (hplace : IsPlace line i)
      (hfirst : ∀ j, pos ≤ j → j < i → ¬ IsPlace line j) (hheader : headerAt t (line :: rest) i = .ok (some h))
      (hwrite : writeData (line :: rest) 0 (offsetAt i) h.encode = (lines, some f)) :
      Visits t line rest pos next (.error f)
  | writes (i : Nat) (h : ObjectHeader) (lines : List String) (hpos : pos ≤ i) (hplace : IsPlace line i)
      (hfirst : ∀ j, pos ≤ j → j < i → ¬ IsPlace line j) (hheader : headerAt t (line :: rest) i = .ok (some h))
      (hwrite : writeData (line :: rest) 0 (offsetAt i) h.encode = (lines, none)) :
      Visits t line rest pos next (next (i + 1) lines)

theorem visits_replaceInLine (t : Template) (fuel : Nat) {pos : Nat} {line : String} (rest : List String)
    (hpos : pos ≤ (Utf8.encode line).length) :
    Visits t line rest pos (replaceInLine t fuel) (replaceInLine t (fuel + 1) pos (line :: rest)) := by
  have hdrop : ∀ j, pos ≤ j → ((Utf8.encode line).drop pos).drop (j - pos) = (Utf8.encode line).drop j := by
    intro j hj
    rw [drop_drop, show pos + (j - pos) = j by omega]
  rw [replaceInLine]
  simp only [if_neg (Nat.not_lt.2 hpos)]
  cases hfind : Bytes.findFrom markerDigits pos ((Utf8.encode line).drop pos) with
  | none =>
    refine .done fun i hi hplace => Bytes.of_findFrom_eq_none hfind (i - pos) ?_
    rw [hdrop i hi]
    exact hplace.marker
  | some i =>
    obtain ⟨hle, hthere⟩ := Bytes.of_findFrom hfind
    rw [hdrop i hle] at hthere
    have hfirst : ∀ j, pos ≤ j → j < i → ¬ IsPlace line j := by
      intro j hj hji hplace
      apply Bytes.first_of_findFrom hfind hj hji
      rw [hdrop j hj]
      exact hplace.marker
    have hlt : i < (Utf8.encode line).length := by
      have hlength := (List.isPrefixOf_iff_prefix.1 hthere).length_le
      have h8 : markerDigits.length = 8 := by decide +kernel
      rw [length_drop] at hlength
      omega
    dsimp only
    by_cases hskip : (decide (i < headDigits) ||
        decide ((Utf8.encode line).length < i + markerDigits.length + 2) || (i - headDigits) % 2 != 0) = true
    · rw [if_pos hskip]
      refine .passes i hle hlt hfirst fun hplace => ?_
      have hhead := hplace.head
      have hfits := hplace.fits
      have hwhole := hplace.whole
      simp [hwhole] at hskip
      omega
    · rw [if_neg hskip]
      have hplace : IsPlace line i := by
        simp only [Bool.or_eq_true, decide_eq_true_iff, bne_iff_ne, not_or, Nat.not_lt, not_not] at hskip
        exact ⟨hthere, hskip.1.1, hskip.1.2, hskip.2⟩
      have hread : readData (line :: rest) 0 ((i - headDigits) / 2 : Nat) window >>= at? t =
          headerAt t (line :: rest) i := rfl
      rw [← bind_assoc, hread]
      cases hheader : headerAt t (line :: rest) i with
      | error f => exact .fails i f hle hplace hfirst hheader
      | ok found =>
        cases found with
        | none => exact .passes i hle hlt hfirst fun _ => hheader
        | some h =>
          dsimp only [bind, Except.bind]
          cases hwrite : writeData (line :: rest) 0 ((i - headDigits) / 2 : Nat) h.encode with
          | mk lines fault =>
            cases fault with
            | some f => exact .refused i h lines f hle hplace hfirst hheader hwrite
            | none => exact .writes i h lines hle hplace hfirst hheader hwrite

/-- A place in a line that was written over can be counted. -/
theorem offset_lt {line : String} {rest : List String} (hshort : Short original)
    (hlines : List.Forall₂ Rewritten original (line :: rest)) {i : Nat} (hi : i ≤ (Utf8.encode line).length) :
    offsetAt i < 2 ^ 63 - 4 := by
  unfold offsetAt
  cases hlines with
  | cons hline _ =>
    have hbuffer := hshort _ (mem_cons_self ..)
    have hlength := hline.length_le
    unfold largestBuffer at hbuffer
    omega

/-- One step: the header that is found for a place of a line is written over the line and those that follow. -/
inductive Stamps (t : Template) : List String → List String → Prop
  | mk (front : List String) {line : String} {rest lines : List String} (i : Nat) (h : ObjectHeader)
      (hplace : IsPlace line i) (hheader : headerAt t (line :: rest) i = .ok (some h))
      (hwrite : writeData (line :: rest) 0 (offsetAt i) h.encode = (lines, none)) :
      Stamps t (front ++ line :: rest) (front ++ lines)

theorem run_replaceInLine (front : List String) (fuel pos : Nat) (h : replaceInLine t fuel pos lines = .ok lines') :
    ReflTransGen (Stamps t) (front ++ lines) (front ++ lines') := by
  induction fuel generalizing pos lines with
  | zero => cases lines <;> rw [Except.ok.inj h]
  | succ fuel ih =>
    cases lines with
    | nil => rw [Except.ok.inj h]
    | cons line rest =>
      by_cases hpos : pos ≤ (Utf8.encode line).length
      · have hvisits := visits_replaceInLine t fuel rest hpos
        generalize replaceInLine t (fuel + 1) pos (line :: rest) = result at h hvisits
        cases hvisits with
        | done => rw [Except.ok.inj h]
        | passes i => exact ih (i + 1) h
        | fails => cases h
        | refused => cases h
        | writes i header written _ hplace _ hheader hwrite =>
          exact .head (.mk front i header hplace hheader hwrite) (ih (i + 1) h)
      · rw [replaceInLine, if_pos (Nat.not_le.1 hpos)] at h
        cases h

/-- **Replacing placeholders** is a run of such steps. -/
theorem run_replaceInLinesOnto (n : Nat) (acc : List String) (h : replaceInLinesOnto t n acc lines = .ok lines') :
    ReflTransGen (Stamps t) (acc.reverse ++ lines) lines' := by
  induction n generalizing acc lines with
  | zero => rw [Except.ok.inj h]
  | succ n ih =>
    cases lines with
    | nil => rw [← Except.ok.inj h]
    | cons line rest =>
      rw [replaceInLinesOnto] at h
      obtain ⟨written, hline, h⟩ := exists_of_bind_eq_ok h
      refine (run_replaceInLine acc.reverse _ _ hline).trans ?_
      cases written with
      | nil => rw [← Except.ok.inj h, append_nil]
      | cons line' rest' =>
        have hrest := ih _ h
        rwa [reverse_cons, append_assoc] at hrest

theorem Stamps.rewritten (hshort : Short original) (hlines : List.Forall₂ Rewritten original lines)
    (h : Stamps t lines lines') : List.Forall₂ Rewritten original lines' := by
  obtain ⟨front, i, header, hplace, -, hwrite⟩ := h
  have hoff := offset_lt (fun l hl => hshort l (mem_of_mem_drop hl)) (List.forall₂_drop_append _ front _ hlines)
    hplace.le_length
  exact forall₂_trans hlines (List.rel_append (List.forall₂_same.2 fun _ _ => .same)
    (rewritten_of_writeData (by omega) (List.forall₂_same.2 fun _ _ => .same) hwrite))

theorem rewritten_of_run (hshort : Short original) (hlines : List.Forall₂ Rewritten original lines)
    (h : ReflTransGen (Stamps t) lines lines') : List.Forall₂ Rewritten original lines' := by
  induction h with
  | refl => exact hlines
  | tail _ hstep ih => exact hstep.rewritten hshort ih

/-- **Lines whose placeholders are replaced** are data records with the heads and lengths they had, and the other lines
as they were. -/
theorem replaceInLines_rewritten (hshort : Short lines) (h : replaceInLines t lines = .ok lines') :
    List.Forall₂ Rewritten lines lines' :=
  rewritten_of_run hshort (List.forall₂_same.2 fun _ _ => .same) (run_replaceInLinesOnto _ [] h)

end ObjectHeader
end Firmware
