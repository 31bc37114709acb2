import Firmware.Proofs.BootImage.Contents

/-!
# Reading a written image

The segments of a file are read in the order they stand in. One that only fills space is dropped, and one that carries
on at the end of the one before it is joined to it, so that what is loaded from the file is what the segments that are
read hold (`cells_foldl_addSegment`). With what a layout holds, an image comes back with each of its bytes at its
address (`parse_serialize_image`).
-/

namespace Firmware
namespace BootImage

open List

variable {header : Bytes} {laid : List Segment}

/-! ## Adding segments -/

/-- All chips fill space with the same addresses. -/
theorem isPadding_iff {chip : Chip} (h : chip ∈ chips) (a : UInt32) :
    chip.isPadding a = true ↔ a.toNat ≤ Segment.lastPadding := by
  have hle : (a ≤ 0x10000) ↔ a.toNat ≤ Segment.lastPadding := UInt32.le_iff_toNat_le
  simp only [chips, mem_cons, not_mem_nil, or_false] at h
  rw [← hle]
  rcases h with rfl | rfl | rfl | rfl <;> simp [Chip.isPadding, Chip.isIn]

variable {chip : Chip}

/-- What adding a segment does: nothing where it only fills space, else it carries on the last segment where that one
ends at its address, or is a new one. -/
theorem addSegment_cases (hchip : chip ∈ chips) (segments : List Segment) (s : Segment) :
    s.address.toNat ≤ Segment.lastPadding ∧ addSegment chip segments s.address s.data = segments ∨
    Segment.lastPadding < s.address.toNat ∧ ((∃ last before, segments = last :: before ∧ last.stop = s.address ∧
          addSegment chip segments s.address s.data = { last with data := last.data ++ s.data } :: before) ∨
        ∃ fresh : Segment, fresh.address = s.address ∧ fresh.data = s.data ∧
          addSegment chip segments s.address s.data = fresh :: segments) := by
  by_cases hpadding : chip.isPadding s.address = true
  · exact .inl ⟨(isPadding_iff hchip _).1 hpadding, by rw [addSegment, if_pos hpadding]⟩
  · refine .inr ⟨Nat.lt_of_not_le fun hle => hpadding ((isPadding_iff hchip _).2 hle), ?_⟩
    unfold addSegment
    rw [if_neg hpadding]
    cases segments with
    | nil =>
      exact .inr ⟨⟨s.address, chip.isMapped s.address, chip.isReadOnlyData s.address, s.data⟩, rfl, rfl, rfl⟩
    | cons last before =>
      dsimp only
      by_cases hjoin : last.stop = s.address
      · exact .inl ⟨last, before, rfl, hjoin, if_pos (beq_iff_eq.2 hjoin)⟩
      · exact .inr ⟨⟨s.address, chip.isMapped s.address, chip.isReadOnlyData s.address, s.data⟩, rfl, rfl,
          if_neg fun heq => hjoin (beq_iff_eq.1 heq)⟩

/-- A segment that is read adds what is loaded from it to what the segments read so far hold. -/
theorem cells_addSegment (hchip : chip ∈ chips) {segments : List Segment} (hfits : ∀ t ∈ segments, t.Fits)
    {s : Segment} (hs : s.Fits) :
    (∀ t ∈ addSegment chip segments s.address s.data, t.Fits) ∧
      (addSegment chip segments s.address s.data).reverse.flatMap Segment.cells =
        segments.reverse.flatMap Segment.cells ++ s.loaded := by
  obtain ⟨hpadding, hadd⟩ | ⟨hloaded, ⟨last, before, rfl, hjoin, hadd⟩ | ⟨fresh, haddress, hdata, hadd⟩⟩ :=
    addSegment_cases hchip segments s
  · have hnone : s.loaded = [] := if_neg (Nat.not_lt.2 hpadding)
    rw [hadd, hnone, append_nil]
    exact ⟨hfits, rfl⟩
  · have hlast := hfits last (mem_cons_self ..)
    -- the end of the last segment does not wrap around, so its bytes and those of `s` follow each other
    have hstop : last.address.toNat + last.data.length = s.address.toNat := by rw [← hlast.toNat_stop, hjoin]
    have hcells : Segment.cells { last with data := last.data ++ s.data } = last.cells ++ s.cells := by
      rw [Segment.cells, cellsAt_append, hstop]
      rfl
    rw [hadd]
    constructor
    · rintro t (_ | ⟨_, ht⟩)
      · unfold Segment.Fits at hs ⊢
        dsimp only
        rw [length_append]
        omega
      · exact hfits t (mem_cons_of_mem last ht)
    · simp only [reverse_cons, flatMap_append, flatMap_singleton, hcells, Segment.loaded, if_pos hloaded, append_assoc]
  · have hcells : fresh.cells = s.cells := by rw [Segment.cells, haddress, hdata, ← Segment.cells]
    rw [hadd]
    constructor
    · rintro t (_ | ⟨_, ht⟩)
      · rw [Segment.Fits, haddress, hdata]
        exact hs
      · exact hfits t ht
    · simp only [reverse_cons, flatMap_append, flatMap_singleton, hcells, Segment.loaded, if_pos hloaded]

/-- The segments read from a file hold what is loaded from it, in the order of the file. -/
theorem cells_foldl_addSegment (hchip : chip ∈ chips) (hlaid : ∀ s ∈ laid, s.Fits) {segments : List Segment}
    (hfits : ∀ t ∈ segments, t.Fits) :
    (laid.foldl (fun segments s => addSegment chip segments s.address s.data) segments).reverse.flatMap
      Segment.cells = segments.reverse.flatMap Segment.cells ++ laid.flatMap Segment.loaded := by
  induction laid generalizing segments with
  | nil => simp
  | cons s laid ih =>
    obtain ⟨hnext, hcells⟩ := cells_addSegment hchip hfits (hlaid s (mem_cons_self ..))
    rw [foldl_cons, ih (fun t ht => hlaid t (mem_cons_of_mem s ht)) hnext, hcells, flatMap_cons, append_assoc]

/-! ## Segments in a file -/

/-- A written segment is read. -/
theorem readSegments_succ {s : Segment} (hs : s.data.length < 2 ^ 32) (n : Nat) (segments : List Segment)
    (rest : Bytes) :
    readSegments chip (n + 1) segments (s.encode ++ rest) =
      readSegments chip n (addSegment chip segments s.address s.data) rest := by
  have hlength : s.data.length.toUInt32.toNat = s.data.length := UInt32.toNat_ofNat_of_lt' hs
  -- the head of a segment is two words
  have hfile : s.encode ++ rest =
      Bytes.ofWord32 s.address ++ (Bytes.ofWord32 s.data.length.toUInt32 ++ (s.data ++ rest)) := by
    simp only [Segment.encode, append_assoc]
  have haddress : Bytes.word32At (s.encode ++ rest) 0 = s.address := by
    rw [hfile]
    exact Bytes.word32_ofWord32 ..
  have hsize : Bytes.word32At (s.encode ++ rest) 4 = s.data.length.toUInt32 := by
    rw [hfile]
    exact Bytes.word32At_append rfl ..
  have hdrop : (s.encode ++ rest).drop segmentHeadSize = s.data ++ rest := by
    rw [hfile]
    rfl
  have hhead : ¬ (s.encode ++ rest).length < segmentHeadSize := by
    rw [hfile]
    simp [Bytes.ofWord32, segmentHeadSize]
  rw [readSegments, if_neg hhead]
  simp only [haddress, hsize, hdrop, hlength]
  rw [if_neg (by rw [length_append]; omega), take_left, drop_left]

theorem readSegments_encode (hlaid : ∀ s ∈ laid, s.data.length < 2 ^ 32) (segments : List Segment) (rest : Bytes) :
    readSegments chip laid.length segments (laid.flatMap Segment.encode ++ rest) =
      .ok (laid.foldl (fun segments s => addSegment chip segments s.address s.data) segments).reverse := by
  induction laid generalizing segments with
  | nil => rfl
  | cons s laid ih =>
    rw [flatMap_cons, append_assoc, length_cons, readSegments_succ (hlaid s (mem_cons_self ..)),
      ih fun t ht => hlaid t (mem_cons_of_mem s ht)]
    rfl

/-! ## Files -/

/-- The header in the file of an image that is laid out in `count` segments. -/
def fileHeader (header : Bytes) (count : Nat) (digest : Bool) : Bytes :=
  (header.set 1 count.toUInt8).set digestFlagOffset (if digest then 1 else 0)

theorem length_fileHeader (header : Bytes) (count : Nat) (digest : Bool) :
    (fileHeader header count digest).length = header.length := by
  simp [fileHeader]

/-- Only the number of segments and the note on the digest are changed in the header. -/
theorem getElem?_fileHeader {count : Nat} {digest : Bool} {i : Nat} (hcount : i ≠ 1) (hflag : i ≠ digestFlagOffset) :
    (fileHeader header count digest)[i]? = header[i]? := by
  rw [fileHeader, getElem?_set_ne hflag.symm, getElem?_set_ne hcount.symm]

theorem getElem?_fileHeader_count (h : header.length = headerSize) (count : Nat) (digest : Bool) :
    (fileHeader header count digest)[1]? = some count.toUInt8 := by
  rw [fileHeader, getElem?_set_ne (by decide), getElem?_set_self (by rw [h]; decide)]

theorem word16_fileHeader (header : Bytes) (count : Nat) (digest : Bool) :
    Bytes.word16 ((fileHeader header count digest).drop 12) = Bytes.word16 (header.drop 12) := by
  rw [Bytes.word16_drop, Bytes.word16_drop, getElem?_fileHeader (by decide) (by decide),
    getElem?_fileHeader (by decide) (by decide)]

/-- A file starts with the header and the segments. -/
theorem exists_finish_body (h : header.length = headerSize) (laid : List Segment) (digest : Bool) :
    ∃ rest, finish digest (body header laid) =
      fileHeader header laid.length digest ++ (laid.flatMap Segment.encode ++ rest) := by
  have hbody : ∃ rest, body header laid =
      header.set 1 laid.length.toUInt8 ++ (laid.flatMap Segment.encode ++ rest) := by
    unfold body Bytes.resize
    dsimp only
    rw [take_of_length_le (by omega), append_assoc, append_assoc]
    exact ⟨_, rfl⟩
  obtain ⟨rest, hrest⟩ := hbody
  have hflag : digestFlagOffset < (header.set 1 laid.length.toUInt8).length := by
    rw [length_set, h]
    decide
  unfold finish
  dsimp only
  rw [hrest, set_append_left _ _ hflag, ← fileHeader]
  split
  · rw [append_assoc, append_assoc]
    exact ⟨_, rfl⟩
  · exact ⟨rest, rfl⟩

section

variable (hlength : header.length = headerSize) (hmagic : header[0]? = some magic)
  (hchip : Chip.find? (Bytes.word16 (header.drop 12)) = some chip) (hcount : header[1]? = some laid.length.toUInt8)
  (hfew : laid.length ≤ 255)
include hlength hmagic hchip hcount hfew

/-- Reading finds what stands in the header and goes on with the segments. -/
theorem parse_append_of_length (hlaid : ∀ s ∈ laid, s.data.length < 2 ^ 32) (rest : Bytes) :
    parse (header ++ (laid.flatMap Segment.encode ++ rest)) = .ok ⟨header, chip.name,
        (laid.foldl (fun segments s => addSegment chip segments s.address s.data) []).reverse⟩ := by
  generalize hbehind : laid.flatMap Segment.encode ++ rest = behind
  have hsize : headerSize = 24 := rfl
  have hget : ∀ i < headerSize, (header ++ behind).getD i 0 = (header[i]?).getD 0 := by
    intro i hi
    rw [getD_eq_getElem?_getD, getElem?_append_left (by omega)]
  have hid : Bytes.word16 ((header ++ behind).drop 12) = Bytes.word16 (header.drop 12) := by
    rw [Bytes.word16_drop, Bytes.word16_drop, getElem?_append_left (by omega), getElem?_append_left (by omega)]
  have hnumber : (laid.length.toUInt8).toNat = laid.length := UInt8.toNat_ofNat_of_lt' (by show _ < 256; omega)
  unfold parse
  rw [if_neg (by rw [length_append]; omega), hget 0 (by decide), hmagic, hget 1 (by decide), hcount]
  simp only [hid, hchip, Option.getD_some, bne_self_eq_false, Bool.false_eq_true, if_false, hnumber]
  rw [drop_left' hlength, take_left' hlength, ← hbehind, readSegments_encode hlaid]
  rfl

theorem parse_append (hlaid : ∀ s ∈ laid, s.Fits) (rest : Bytes) :
    parse (header ++ (laid.flatMap Segment.encode ++ rest)) = .ok ⟨header, chip.name,
        (laid.foldl (fun segments s => addSegment chip segments s.address s.data) []).reverse⟩ :=
  parse_append_of_length hlength hmagic hchip hcount hfew (fun s hs => (hlaid s hs).length_lt) rest

end

/-! ## Images -/

/-- An image `parsed` that holds what `img` holds: the header apart from the number of segments and the note on the
digest, each byte at its address and once, and no more than zeros directly behind mapped segments. -/
structure Restores (img parsed : BootImage) : Prop where
  header : ∀ i, i ≠ 1 → i ≠ digestFlagOffset → parsed.header[i]? = img.header[i]?
  bytes : ∀ s ∈ img.segments, ∀ c ∈ s.cells, ∃ t ∈ parsed.segments, c ∈ t.cells
  zeros : ∀ t ∈ parsed.segments, ∀ c ∈ t.cells, (∃ s ∈ img.segments, c ∈ s.cells) ∨
    c.2 = 0 ∧ ∃ s ∈ img.segments, s.isMapped = true ∧ s.address.toNat + s.data.length ≤ c.1 ∧
      c.1 < s.address.toNat + s.data.length + shortestTail
  once : (parsed.segments.flatMap Segment.cells).Perm (contents img.segments)

theorem Restores.of_perm {img parsed : BootImage} (hroom : ∀ s ∈ img.segments, s.HasRoom)
    (hheader : ∀ i, i ≠ 1 → i ≠ digestFlagOffset → parsed.header[i]? = img.header[i]?)
    (honce : (parsed.segments.flatMap Segment.cells).Perm (contents img.segments)) : Restores img parsed := by
  refine ⟨hheader, ?_, ?_, honce⟩
  · intro s hs c hc
    exact mem_flatMap.1 (honce.mem_iff.2 (mem_append_left _ (mem_flatMap.2 ⟨s, hs, hc⟩)))
  · intro t ht c hc
    have hmem := honce.mem_iff.1 (mem_flatMap.2 ⟨t, ht, hc⟩)
    obtain hbyte | hzero := mem_append.1 hmem
    · exact .inl (mem_flatMap.1 hbyte)
    · obtain ⟨s, hs, hc⟩ := mem_flatMap.1 hzero
      obtain ⟨hs, hmapped⟩ := mem_filter.1 hs
      obtain ⟨hvalue, hplace⟩ := Segment.of_mem_cells_tail (hroom s hs).isLoaded.2 hc
      exact .inr ⟨hvalue, s, hs, hmapped, hplace⟩

/-- The file of an image is read back to an image that holds the same. -/
theorem parse_serialize_image {img : BootImage} {digest : Bool} {file : Bytes} {laid : List Segment}
    (hheader : img.header.length = headerSize) (hmagic : img.header[0]? = some magic)
    (hchip : Chip.find? (Bytes.word16 (img.header.drop 12)) = some chip)
    (hroom : ∀ s ∈ img.segments, s.HasRoom) (hfile : img.serialize digest = .ok file)
    (hlaid : padSegments img.segments headerSize = .ok laid) (hfew : laid.length ≤ 255) :
    ∃ parsed, parse file = .ok parsed ∧ parsed.chip = chip.name ∧ Restores img parsed := by
  have hknown : chip ∈ chips := List.mem_of_find?_eq_some hchip
  obtain ⟨hfits, hperm⟩ := perm_loaded_padSegments hroom hlaid
  rw [serialize_eq hheader, hlaid] at hfile
  obtain ⟨rest, hrest⟩ := exists_finish_body hheader laid digest
  obtain rfl : finish digest (body img.header laid) = file := Except.ok.inj hfile
  have hsame : ∀ i, i ≠ 1 → i ≠ digestFlagOffset →
      (fileHeader img.header laid.length digest)[i]? = img.header[i]? := fun i => getElem?_fileHeader
  have hcount : (fileHeader img.header laid.length digest)[1]? = some laid.length.toUInt8 := by
    rw [fileHeader, List.getElem?_set_ne (by decide), List.getElem?_set_self (by rw [hheader]; decide)]
  have hid : Bytes.word16 ((fileHeader img.header laid.length digest).drop 12) =
      Bytes.word16 (img.header.drop 12) := by
    rw [Bytes.word16_drop, Bytes.word16_drop, hsame 12 (by decide) (by decide), hsame 13 (by decide) (by decide)]
  have hparse := parse_append ((length_fileHeader ..).trans hheader)
    ((hsame 0 (by decide) (by decide)).trans hmagic) (hid ▸ hchip) hcount hfew hfits rest
  rw [← hrest] at hparse
  refine ⟨_, hparse, rfl, Restores.of_perm hroom hsame ?_⟩
  rw [cells_foldl_addSegment hknown hfits fun t ht => absurd ht List.not_mem_nil]
  exact hperm

/-- An image with a mapped segment that is extended, and a loose one that is cut in front of the other mapped one. -/
def spreadImage : BootImage :=
  ⟨magic :: List.replicate 23 0, "esp32",
    [⟨0x3F400020, true, true, [1, 2]⟩, ⟨0x3FFB0000, false, false, List.replicate 16 3⟩,
      ⟨0x400D0040, true, false, [4, 5, 6, 7]⟩]⟩

theorem padSegments_spreadImage : padSegments spreadImage.segments headerSize =
      .ok [⟨0x3F400020, true, true, [1, 2, 0, 0]⟩, ⟨0x3FFB0000, false, false, List.replicate 12 3⟩,
        ⟨0x400D0040, true, false, [4, 5, 6, 7]⟩, ⟨0x3FFB000C, false, false, List.replicate 4 3⟩] := by
  have hsorted : byAddress spreadImage.segments = spreadImage.segments := mergeSort_of_pairwise (by decide)
  rw [padSegments, Layout.ofSegments, hsorted]
  cbv

theorem parse_serialize_image_spread :
    ∃ laid file parsed, padSegments spreadImage.segments headerSize = .ok laid ∧
      spreadImage.serialize true = .ok file ∧ parse file = .ok parsed ∧ parsed.chip = "esp32" ∧
      Restores spreadImage parsed := by
  have hfile := serialize_eq (rfl : spreadImage.header.length = headerSize) true
  rw [padSegments_spreadImage] at hfile
  obtain ⟨parsed, hparse, hchip, hrestores⟩ :=
    parse_serialize_image rfl rfl rfl (by decide) hfile padSegments_spreadImage (by decide)
  exact ⟨_, _, parsed, padSegments_spreadImage, hfile, hparse, hchip, hrestores⟩

end BootImage
end Firmware
