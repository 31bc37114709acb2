import Firmware.Proofs.IntelHex.Data
import Firmware.Proofs.Image.Placeholders
import Firmware.Proofs.Image.ProgramRows
import Firmware.Proofs.ObjectHeader.FlatScan

/-!
# Placeholders in the lines of an image

The lines of an image hold sixteen bytes each. Lines that are written over are still the lines of an image
(`eq_imageLines`), so what is done to lines is done to bytes: replacing the placeholders in the lines of an image is a
scan of the image that visits every offset at which the marker does not go over the end of a line (`replaceInLines_eq`).
-/

open List

namespace Firmware

namespace IntelHex

open Entry Image

/-! ## The lines of an image -/

/-- The records of an image from an address on: one for every sixteen bytes. -/
def imageEntries (address : UInt32) (b : Bytes) : List Entry :=
  (byteRows address b).map fun row => ofRow row.1.toUInt16 row.2

/-- The lines of an image from an address on. -/
def imageLines (address : UInt32) (b : Bytes) : List String := (imageEntries address b).map line

variable {address : UInt32} {b : Bytes}

theorem imageEntries_of_ne_nil (address : UInt32) (hb : b ≠ []) (hrows : b.length % 16 = 0) :
    imageEntries address b = ofRow address.toUInt16 (b.take 16) :: imageEntries (address + 16) (b.drop 16) := by
  have hpos := length_pos_iff.2 hb
  have hresize : Bytes.resize (b.take 16) 16 0 = b.take 16 := by
    unfold Bytes.resize
    rw [take_take, length_take, Nat.min_self, Nat.min_eq_left (by omega), Nat.sub_self, replicate_zero, append_nil]
  unfold imageEntries
  rw [byteRows_of_ne_nil address hb, map_cons, hresize]

theorem imageLines_of_ne_nil (address : UInt32) (hb : b ≠ []) (hrows : b.length % 16 = 0) :
    imageLines address b = (ofRow address.toUInt16 (b.take 16)).line :: imageLines (address + 16) (b.drop 16) := by
  unfold imageLines
  rw [imageEntries_of_ne_nil address hb hrows, map_cons]

@[simp] theorem imageLines_nil (address : UInt32) : imageLines address [] = [] := by
  unfold imageLines imageEntries
  rw [byteRows_nil]
  rfl

theorem data_ofRow {row : Bytes} (address : UInt16) (hrow : row.length ≤ 16) : (ofRow address row).data = row :=
  take_of_length_le (by omega)

/-- The data of the line of a data record. -/
theorem lineData_line {e : Entry} (htype : e.type = dataType) : lineData e.line = e.data := by
  have hbytes : e.bytes = e.data.length.toUInt8 :: (e.addressBytes ++ dataType :: (e.data ++ [e.checksum])) := by
    unfold Entry.bytes
    rw [htype]
  have hdrop : e.bytes.dropLast.drop 4 = e.data := by
    rw [Template.dropLast_bytes]
    rfl
  rw [lineData_of_bytes (bytes_line e)]
  split
  next => exact hdrop
  next hnone =>
    -- a record that does not count as one has no data
    cases hdata : e.data with
    | nil => rfl
    | cons x rest =>
      refine absurd ?_ hnone
      unfold holdsData
      rw [hbytes, hdata]
      simp [addressBytes]

/-- A line of a data record that was written over is one with as many bytes at the same address. -/
theorem exists_of_rewritten {e : Entry} (htype : e.type = dataType) {line' : String} (h : Rewritten e.line line') :
    ∃ e' : Entry, line' = e'.line ∧ e'.type = dataType ∧ e'.address = e.address ∧ e'.data.length = e.data.length := by
  cases h with
  | same => exact ⟨e, rfl, htype, rfl, rfl⟩
  | data b b' hbytes hdata hlength hhead =>
    obtain rfl := Except.ok.inj ((bytes_line e).symm.trans hbytes)
    have hlong : e.bytes.length = e.data.length + 5 := by
      simp [Entry.bytes, addressBytes]
    have hlen : (b'.drop 4).length = e.data.length := by
      rw [length_drop]
      omega
    refine ⟨ofData e.address (b'.drop 4) (hlen ▸ e.length_lt), ?_, rfl, rfl, hlen⟩
    have htake : b'.take 4 = [e.data.length.toUInt8, (e.address >>> 8).toUInt8, e.address.toUInt8, dataType] := by
      rw [hhead, Entry.bytes, htype]
      rfl
    rw [line_ofData, renderRecord, hlen, ← htake, take_append_drop]

theorem bytes_of_mem_imageLines {l : String} (hl : l ∈ imageLines address b) : ∃ bs, bytes l = .ok bs := by
  obtain ⟨e, -, rfl⟩ := mem_map.1 hl
  exact ⟨e.bytes, bytes_line e⟩

/-- The data of the lines of an image is the image. -/
theorem dataOf_imageLines (address : UInt32) {b : Bytes} (hrows : b.length % 16 = 0) :
    dataOf (imageLines address b) = b := by
  by_cases hb : b = []
  · rw [hb, imageLines_nil, dataOf_nil]
  · have hpos := length_pos_iff.2 hb
    rw [imageLines_of_ne_nil address hb hrows, dataOf_cons, lineData_line rfl,
      data_ofRow _ (length_take_le ..), dataOf_imageLines (address + 16) (by rw [length_drop]; omega),
      take_append_drop]
termination_by b.length
decreasing_by rw [length_drop]; omega

/-- Lines of an image that were written over are the lines of an image. -/
theorem eq_imageLines {address : UInt32} {b : Bytes} (hrows : b.length % 16 = 0) {lines : List String}
    (h : List.Forall₂ Rewritten (imageLines address b) lines) :
    lines = imageLines address (dataOf lines) ∧ (dataOf lines).length = b.length := by
  by_cases hb : b = []
  · subst hb
    rw [imageLines_nil] at h
    obtain rfl := List.forall₂_nil_left_iff.1 h
    exact ⟨(imageLines_nil address).symm, rfl⟩
  · have hpos := length_pos_iff.2 hb
    rw [imageLines_of_ne_nil address hb hrows] at h
    obtain ⟨line', rest, hfirst, hrest, rfl⟩ := List.forall₂_cons_left_iff.1 h
    obtain ⟨e, rfl, htype, haddress, hlength⟩ := exists_of_rewritten rfl hfirst
    have hsixteen : e.data.length = 16 := by
      rw [hlength, data_ofRow _ (length_take_le ..), length_take]
      omega
    obtain ⟨heq, hlen⟩ := eq_imageLines (by rw [length_drop]; omega) hrest
    have hlines : dataOf (e.line :: rest) = e.data ++ dataOf rest := by rw [dataOf_cons, lineData_line htype]
    rw [length_drop] at hlen
    have htotal : (dataOf (e.line :: rest)).length = b.length := by
      rw [hlines, length_append]
      omega
    refine ⟨?_, htotal⟩
    have hrow : (ofRow address.toUInt16 e.data).line = e.line := by
      show renderRecord dataType _ (e.data.take 255) = renderRecord e.type e.address e.data
      rw [htype, haddress, take_of_length_le (by omega)]
      rfl
    rw [imageLines_of_ne_nil address (ne_nil_of_length_pos (by omega)) (by omega), hlines,
      take_left' hsixteen, drop_left' hsixteen, ← heq, hrow]
termination_by b.length
decreasing_by rw [length_drop]; omega

end IntelHex

namespace ObjectHeader

open IntelHex Entry Hexadecimal

variable {t : Template} {address : UInt32} {b : Bytes} {i o : Nat}

/-! ## The first line of an image -/

section

variable (hb : b ≠ []) (hrows : b.length % 16 = 0)

include hb hrows

theorem placeOf_imageLines (ho : o ≤ 16) : placeOf o (imageLines address b) = o := by
  have hpos := length_pos_iff.2 hb
  rw [imageLines_of_ne_nil address hb hrows, placeOf, lineData_line rfl, data_ofRow _ (length_take_le ..), length_take]
  omega

/-- The header for a place is the header for what follows it in the image. -/
theorem headerAt_imageLines (ho : offsetAt i ≤ 16) :
    headerAt t (imageLines address b) i = at? t ((b.drop (offsetAt i)).take window) := by
  have hoff : offsetAt i < 2 ^ 63 - 4 := by omega
  have hreadable : ∀ l ∈ imageLines address b, ∃ bs, bytes l = .ok bs := fun l hl => bytes_of_mem_imageLines hl
  obtain ⟨res, hcollect⟩ := exists_collect hoff hreadable window []
  have hread : readData (imageLines address b) 0 (offsetAt i) window = .ok (res.take window) := by
    rw [readData_window, hcollect]
    rfl
  have hdata := readData_eq hoff (by decide : 0 < window) hread
  rw [dataOf_imageLines address hrows, placeOf_imageLines hb hrows ho] at hdata
  unfold headerAt
  rw [hread, hdata]
  rfl

/-- A header that is written into the lines is written into the image. -/
theorem writeData_imageLines {h : ObjectHeader} {lines : List String} (ho : offsetAt i ≤ 16)
    (hwrite : writeData (imageLines address b) 0 (offsetAt i) h.encode = (lines, none)) :
    lines = imageLines address (b.overwrite (offsetAt i) h.encode) ∧ offsetAt i + size ≤ b.length := by
  have hoff : offsetAt i < 2 ^ 63 - 4 := by omega
  obtain ⟨hdata, hfits⟩ := dataOf_writeData hoff (encode_ne_nil h) hwrite
  have hrewritten := writeData_rewritten (show offsetAt i < 2 ^ 63 by omega) h.encode (imageLines address b)
  rw [hwrite] at hrewritten
  obtain ⟨heq, -⟩ := eq_imageLines hrows hrewritten
  rw [dataOf_imageLines address hrows, placeOf_imageLines hb hrows ho] at hdata hfits
  rw [hdata] at heq
  exact ⟨heq, hfits⟩

theorem isPlace_imageLines : IsPlace (ofRow address.toUInt16 (b.take 16)).line i ↔
      ∃ o ≤ 12, i = headDigits + 2 * o ∧ marker <+: b.drop o := by
  have hpos := length_pos_iff.2 hb
  have hfour : marker.length = 4 := rfl
  have hlength : (b.take 16).length = 16 := by
    rw [length_take]
    omega
  have hcut : ∀ o ≤ 12, (marker <+: (b.take 16).drop o ↔ marker <+: b.drop o) := by
    intro o ho
    rw [drop_take, List.prefix_take_iff]
    exact and_iff_left (by omega)
  rw [isPlace_line, data_ofRow _ (length_take_le ..), hlength]
  constructor
  · rintro ⟨o, hi, ho, hmarker⟩
    exact ⟨o, by omega, hi, (hcut o (by omega)).1 hmarker⟩
  · rintro ⟨o, ho, hi, hmarker⟩
    exact ⟨o, hi, by omega, (hcut o ho).2 hmarker⟩

end

/-- Offsets at which nothing is replaced are passed over. -/
theorem visitAll_range'_of_same {first last stop : Nat} (hle : first ≤ last)
    (hsame : ∀ o, first ≤ o → o < last → o < stop → visit t b o = .ok b) :
    visitAll t b (List.range' first (stop - first)) = visitAll t b (List.range' last (stop - last)) := by
  obtain ⟨d, rfl⟩ := Nat.exists_eq_add_of_le hle
  induction d generalizing first with
  | zero => rfl
  | succ d ih =>
    by_cases hstop : first < stop
    · rw [show stop - first = stop - (first + 1) + 1 by omega, range'_succ, visitAll_cons,
        hsame first (Nat.le_refl _) (by omega) hstop]
      have hnext := @ih (first + 1) (by omega) fun o ho hlt => hsame o (by omega) (by omega)
      rw [show first + 1 + d = first + (d + 1) by omega] at hnext
      exact hnext
    · rw [show stop - first = 0 by omega, show stop - (first + (d + 1)) = 0 by omega]
      rfl

theorem offsetAt_eq (o : Nat) : offsetAt (headDigits + 2 * o) = o := by
  unfold offsetAt
  omega

/-- The offsets in the data of a line of an image at which the marker may still start, from a character on: character
`pos` stands in or in front of byte `(pos - 8) / 2`, and the marker fits in from byte 12 at the latest. -/
def offsetsFrom (pos : Nat) : List Nat := List.range' ((pos - 8) / 2) (13 - (pos - 8) / 2)

theorem offsetsFrom_next (o : Nat) : offsetsFrom (headDigits + 2 * o + 1) = List.range' (o + 1) (13 - (o + 1)) := by
  have hnine : headDigits = 9 := rfl
  rw [offsetsFrom, show (headDigits + 2 * o + 1 - 8) / 2 = o + 1 by omega]

section

variable (hb : b ≠ []) (hrows : b.length % 16 = 0) {pos : Nat}

include hb hrows

/-- Nothing is replaced in front of the first place. -/
theorem visit_before_place (hfirst : ∀ j, pos ≤ j → j < i → ¬ IsPlace (ofRow address.toUInt16 (b.take 16)).line j)
    (hle : (pos - 8) / 2 ≤ o) (hlt : headDigits + 2 * o < i) (ho : o < 13) : visit t b o = .ok b := by
  have hnine : headDigits = 9 := rfl
  refine visit_of_not_marker fun hmarker => hfirst (headDigits + 2 * o) (by omega) hlt ?_
  exact (isPlace_imageLines hb hrows).2 ⟨o, by omega, rfl, hmarker⟩

theorem visitAll_to_place (ho : o ≤ 12) (hle : pos ≤ headDigits + 2 * o)
    (hfirst : ∀ j, pos ≤ j → j < headDigits + 2 * o → ¬ IsPlace (ofRow address.toUInt16 (b.take 16)).line j) :
    visitAll t b (offsetsFrom pos) = visit t b o >>= fun b => visitAll t b (offsetsFrom (headDigits + 2 * o + 1)) := by
  have hnine : headDigits = 9 := rfl
  rw [offsetsFrom_next, offsetsFrom, visitAll_range'_of_same (by omega : (pos - 8) / 2 ≤ o) fun o' ho' hlt hstop =>
    visit_before_place hb hrows hfirst ho' (by omega) hstop, show 13 - o = 13 - (o + 1) + 1 by omega,
    range'_succ, visitAll_cons]

/-- At a place the image gets the header that is found in its lines. -/
theorem visit_at_place (address : UInt32) (ho : o ≤ 12) (hmarker : marker <+: b.drop o) :
    visit t b o = (headerAt t (imageLines address b) (headDigits + 2 * o)).map
      fun found => found.elim b fun h => b.overwrite o h.encode := by
  rw [headerAt_imageLines hb hrows (by rw [offsetAt_eq]; omega), offsetAt_eq, visit_of_marker hmarker]

end

/-- **The first line of an image** is searched at every offset from which the marker fits into the line. -/
theorem replaceInLine_imageLines (t : Template) (address : UInt32) (hb : b ≠ []) (hrows : b.length % 16 = 0)
    {fuel pos : Nat} (hfuel : 43 < fuel + pos) (hpos : pos ≤ 43) :
    replaceInLine t fuel pos (imageLines address b) = (visitAll t b (offsetsFrom pos)).map (imageLines address) := by
  have hnine : headDigits = 9 := rfl
  -- on the fuel, one case for each thing that a search can do first
  induction fuel generalizing pos b with
  | zero => omega
  | succ fuel ih =>
    have hlines := imageLines_of_ne_nil address hb hrows
    have hplaces : ∀ i, IsPlace (ofRow address.toUInt16 (b.take 16)).line i ↔
        ∃ o ≤ 12, i = headDigits + 2 * o ∧ marker <+: b.drop o := fun i => isPlace_imageLines hb hrows
    have hlength : (Utf8.encode (ofRow address.toUInt16 (b.take 16)).line).length = 43 := by
      have hpos := length_pos_iff.2 hb
      rw [length_encode_line, data_ofRow _ (length_take_le ..), length_take]
      omega
    have hvisits := visits_replaceInLine t fuel (imageLines (address + 16) (b.drop 16)) (hlength.symm ▸ hpos)
    rw [← hlines] at hvisits
    generalize replaceInLine t (fuel + 1) pos (imageLines address b) = result at hvisits
    cases hvisits with
    | done hnone =>
      rw [offsetsFrom, visitAll_range'_of_same (Nat.le_max_left ((pos - 8) / 2) 13) fun o hle hlt hstop =>
        visit_before_place hb hrows (fun j hj _ => hnone j hj) hle (by omega : headDigits + 2 * o < headDigits + 2 * 13)
          hstop, show 13 - max ((pos - 8) / 2) 13 = 0 by omega, ← hlines]
      rfl
    | passes i hle hlt hfirst hnone =>
      rw [hlength] at hlt
      rw [← hlines] at hnone ⊢
      rw [ih hb hrows (by omega) (by omega)]
      refine congrArg _ (visitAll_range'_of_same (by omega) fun o ho hlast hstop => ?_).symm
      by_cases heq : headDigits + 2 * o = i
      · by_cases hmarker : marker <+: b.drop o
        · rw [visit_at_place hb hrows address (by omega) hmarker, heq,
            hnone ((hplaces i).2 ⟨o, by omega, heq.symm, hmarker⟩)]
          rfl
        · exact visit_of_not_marker hmarker
      · exact visit_before_place hb hrows hfirst ho (by omega) hstop
    | fails i f hle hplace hfirst hheader =>
      obtain ⟨o, ho, rfl, hmarker⟩ := (hplaces i).1 hplace
      rw [← hlines] at hheader
      rw [visitAll_to_place hb hrows ho hle hfirst, visit_at_place hb hrows address ho hmarker, hheader]
      rfl
    | refused i h lines f hle hplace hfirst hheader hwrite =>
      obtain ⟨o, ho, rfl, -⟩ := (hplaces i).1 hplace
      exact absurd hwrite (not_refused (by rw [offsetAt_eq]; omega) hheader)
    | writes i h lines hle hplace hfirst hheader hwrite =>
      obtain ⟨o, ho, rfl, hmarker⟩ := (hplaces i).1 hplace
      rw [← hlines] at hheader hwrite
      obtain ⟨rfl, hfits⟩ := writeData_imageLines hb hrows (by rw [offsetAt_eq]; omega) hwrite
      rw [offsetAt_eq] at hfits ⊢
      have hlen : (b.overwrite o h.encode).length = b.length := Bytes.length_overwrite hfits
      have hpos := length_pos_iff.2 hb
      rw [ih (ne_nil_of_length_pos (by omega)) (by omega) (by omega) (by omega),
        visitAll_to_place hb hrows ho hle hfirst, visit_at_place hb hrows address ho hmarker, hheader]
      rfl

/-! ## All lines -/

/-- The offsets at which the lines of an image are searched: those in a row from which the marker fits into it. -/
def rowOffsets : Nat → List Nat
  | 0 => []
  | rows + 1 => List.range' 0 13 ++ (rowOffsets rows).map (16 + ·)

theorem mem_rowOffsets {rows : Nat} : i ∈ rowOffsets rows ↔ i < 16 * rows ∧ i % 16 ≤ 12 := by
  induction rows generalizing i with
  | zero => simp [rowOffsets]
  | succ rows ih =>
    rw [rowOffsets, mem_append, mem_range'_1, mem_map]
    constructor
    · rintro (hfirst | ⟨j, hj, rfl⟩)
      · omega
      · have := ih.1 hj
        omega
    · rintro ⟨hlt, hmod⟩
      by_cases hfirst : i < 16
      · exact .inl (by omega)
      · exact .inr ⟨i - 16, ih.2 (by omega), by omega⟩

theorem pairwise_rowOffsets (rows : Nat) : (rowOffsets rows).Pairwise (· < ·) := by
  induction rows with
  | zero => exact .nil
  | succ rows ih =>
    rw [rowOffsets, pairwise_append]
    refine ⟨pairwise_lt_range' 1, pairwise_map.2 (ih.imp fun h => by omega), fun i hi j hj => ?_⟩
    obtain ⟨k, -, rfl⟩ := mem_map.1 hj
    have := mem_range'_1.1 hi
    omega

theorem replaceInLinesOnto_imageLines (t : Template) (address : UInt32) {rows n : Nat} (hlen : b.length = 16 * rows)
    (hn : rows ≤ n) (acc : List String) :
    replaceInLinesOnto t n acc (imageLines address b) =
      (visitAll t b (rowOffsets rows)).map fun b' => acc.reverse ++ imageLines address b' := by
  induction rows generalizing n acc address b with
  | zero =>
    obtain rfl := eq_nil_of_length_eq_zero hlen
    rw [imageLines_nil]
    cases n <;> simp [replaceInLinesOnto, rowOffsets, Except.map]
  | succ rows ih =>
    obtain ⟨n, rfl⟩ := Nat.exists_eq_add_of_le' (by omega : 1 ≤ n)
    have hb : b ≠ [] := ne_nil_of_length_pos (by omega)
    have hlines := imageLines_of_ne_nil address hb (by omega)
    have hlength : (Utf8.encode (ofRow address.toUInt16 (b.take 16)).line).length = 43 := by
      rw [length_encode_line, data_ofRow _ (length_take_le ..), length_take]
      omega
    have hfirst := replaceInLine_imageLines t address hb (by omega) (by omega : 43 < 45 + 0) (by omega)
    rw [hlines] at hfirst ⊢
    rw [replaceInLinesOnto, hlength, hfirst, rowOffsets, visitAll_append]
    show Except.bind (Except.map _ (visitAll t b (List.range' 0 13))) _ = _
    cases hscan : visitAll t b (List.range' 0 13) with
    | error f => rfl
    | ok b' =>
      have hlen' : b'.length = b.length := length_of_visitAll hscan
      have hb' : b' ≠ [] := ne_nil_of_length_pos (by omega)
      have hsixteen : (b'.take 16).length = 16 := by
        rw [length_take]
        omega
      have hdrop : (b'.drop 16).length = 16 * rows := by
        rw [length_drop]
        omega
      -- the other lines are those of the image behind its first row
      have hrest := visitAll_map_add t (b'.take 16) (b'.drop 16) (rowOffsets rows)
      rw [hsixteen, take_append_drop] at hrest
      show Except.bind (.ok (imageLines address b')) _ = (visitAll t b' ((rowOffsets rows).map (16 + ·))).map _
      rw [imageLines_of_ne_nil address hb' (by omega), hrest]
      show replaceInLinesOnto t n (_ :: acc) (imageLines (address + 16) (b'.drop 16)) = _
      rw [ih (address + 16) hdrop (by omega)]
      cases hscan' : visitAll t (b'.drop 16) (rowOffsets rows) with
      | error f => rfl
      | ok rest =>
        have hlen'' : rest.length = 16 * rows := by
          rw [length_of_visitAll hscan', hdrop]
        have hlines' := imageLines_of_ne_nil address (b := b'.take 16 ++ rest)
          (ne_nil_of_length_pos (by rw [length_append]; omega)) (by rw [length_append]; omega)
        rw [take_left' hsixteen, drop_left' hsixteen] at hlines'
        refine congrArg Except.ok ?_
        dsimp only
        rw [hlines', reverse_cons, append_assoc]
        rfl

theorem length_imageLines (address : UInt32) (b : Bytes) : (imageLines address b).length = (b.length + 15) / 16 := by
  unfold imageLines imageEntries
  rw [length_map, length_map, Image.length_byteRows]

/-- **The lines of an image** are scanned as the image is. -/
theorem replaceInLines_eq (t : Template) (address : UInt32) {rows : Nat} (hlen : b.length = 16 * rows) :
    replaceInLines t (imageLines address b) = (visitAll t b (rowOffsets rows)).map (imageLines address) := by
  unfold replaceInLines
  rw [length_imageLines, replaceInLinesOnto_imageLines t address hlen (by omega)]
  rfl

end ObjectHeader
end Firmware
