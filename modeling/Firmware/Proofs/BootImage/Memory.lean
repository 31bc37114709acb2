import Firmware.Proofs.BootImage.Pieces

/-!
# Memory that an image is loaded to

Addresses have 32 bits and wrap around. In these terms nothing that a layout or a reader does to a segment moves a byte:
the zeros behind a mapped segment, the parts of a loose one and a segment that is joined to the one before it all stand
at the addresses that follow. So an image that was written is read with its memory as it was, whatever its segments
cover (`parse_serialize_memory`). Only a loose segment may not reach around the end of the address space, for what is
cut off behind it would be taken for a piece that fills space.
-/

namespace Firmware
namespace BootImage

open List

variable {laid segments : List Segment} {img : BootImage}

/-! ## Segments -/

/-- Bytes with the addresses that they go to from an address on. -/
def memoryAt (address : UInt32) (data : Bytes) : List (UInt32 × UInt8) :=
  data.mapIdx fun i b => (address + i.toUInt32, b)

theorem memoryAt_append (address : UInt32) (front back : Bytes) : memoryAt address (front ++ back) =
      memoryAt address front ++ memoryAt (address + front.length.toUInt32) back := by
  unfold memoryAt
  rw [mapIdx_append]
  congr 2
  funext i b
  rw [show (i + front.length).toUInt32 = i.toUInt32 + front.length.toUInt32 from UInt32.ofNat_add ..,
    UInt32.add_comm i.toUInt32, UInt32.add_assoc]

theorem mem_memoryAt {address : UInt32} {data : Bytes} {a : UInt32} {b : UInt8} :
    (a, b) ∈ memoryAt address data ↔ ∃ i : Nat, data[i]? = some b ∧ a = address + i.toUInt32 := by
  simp only [memoryAt, mem_mapIdx, Prod.mk.injEq]
  constructor
  · rintro ⟨i, hi, haddress, hbyte⟩
    exact ⟨i, hbyte ▸ getElem?_eq_getElem hi, haddress.symm⟩
  · rintro ⟨i, hi, haddress⟩
    obtain ⟨hlt, hbyte⟩ := List.getElem?_eq_some_iff.1 hi
    exact ⟨i, hlt, haddress.symm, hbyte⟩

namespace Segment

variable {s : Segment}

/-- The bytes of a segment with their addresses. -/
def memory (s : Segment) : List (UInt32 × UInt8) := memoryAt s.address s.data

/-- A segment as it is laid out in a file: a mapped one with the zeros behind it. -/
def completed (s : Segment) : Segment := if s.isMapped then s.extendTail else s

/-- A segment that starts behind the addresses that fill space, and ends in the address space. -/
structure InSpace (s : Segment) : Prop where
  start : lastPadding < s.address.toNat
  stop : s.address.toNat + s.data.length ≤ 2 ^ 32

theorem InSpace.length_lt (h : s.InSpace) : s.data.length < 2 ^ 32 := by
  have hstart := h.start
  have hstop := h.stop
  omega

theorem InSpace.cut (h : s.InSpace) {n : Nat} (hn : n < s.data.length) : (s.front n).InSpace ∧ (s.back n).InSpace := by
  obtain ⟨hstart, hstop⟩ := h
  have hfront : (s.front n).data.length = n := length_front (Nat.le_of_lt hn)
  have hback : (s.back n).data.length = s.data.length - n := length_drop ..
  have haddress : (s.back n).address.toNat = s.address.toNat + n := by
    have hlt : s.address.toNat + n < 2 ^ 32 := by omega
    rw [back, UInt32.toNat_add, UInt32.toNat_ofNat_of_lt' (Nat.lt_of_le_of_lt (Nat.le_add_left ..) hlt),
      Nat.mod_eq_of_lt hlt]
  refine ⟨⟨hstart, ?_⟩, ⟨by omega, by omega⟩⟩
  rw [hfront]
  exact Nat.le_trans (Nat.add_le_add_left (Nat.le_of_lt hn) _) hstop

/-- What is loaded from a piece of a file. -/
def loads (s : Segment) : List (UInt32 × UInt8) := if lastPadding < s.address.toNat then s.memory else []

theorem loads_of_start (h : lastPadding < s.address.toNat) : s.loads = s.memory := if_pos h

/-- Nothing is lost where a segment is cut. -/
theorem loads_cut (h : s.InSpace) {n : Nat} (hn : n < s.data.length) :
    (s.front n).loads ++ (s.back n).loads = s.memory := by
  obtain ⟨hfront, hback⟩ := h.cut hn
  rw [loads_of_start hfront.start, loads_of_start hback.start]
  conv_rhs => rw [memory, ← take_append_drop n s.data, memoryAt_append, length_take_of_le (Nat.le_of_lt hn)]
  rfl

end Segment

/-! ## Layouts -/

/-- The memory that is loaded from the pieces of a layout is that of its segments. -/
theorem Layout.Lays.perm_loads {offset : Nat} {mapped loose : List Segment} (h : Lays offset mapped loose laid)
    (hmapped : ∀ s ∈ mapped, Segment.lastPadding < s.address.toNat) (hloose : ∀ s ∈ loose, s.InSpace) :
    (laid.flatMap Segment.loads).Perm (mapped.flatMap Segment.memory ++ loose.flatMap Segment.memory) := by
  -- on the layout: what is cut off stays loose, so it comes with the rest
  induction h with
  | rest _ loose =>
    rw [flatMap_nil, nil_append, flatMap_congr fun s hs => Segment.loads_of_start (hloose s hs).start]
  | place _ _ ih =>
    obtain ⟨hs, hmapped⟩ := forall_mem_cons.1 hmapped
    rw [flatMap_cons, flatMap_cons, Segment.loads_of_start hs, append_assoc]
    exact (ih hmapped hloose).append_left _
  | zeros _ _ ih => exact ih hmapped hloose
  | whole _ ih =>
    obtain ⟨hfirst, hloose⟩ := forall_mem_cons.1 hloose
    rw [flatMap_cons, flatMap_cons, Segment.loads_of_start hfirst.start]
    exact ((ih hmapped hloose).append_left _).trans (perm_append_comm_assoc ..)
  | @start _ n first _ loose pieces hn _ ih =>
    obtain ⟨hfirst, hloose⟩ := forall_mem_cons.1 hloose
    have hback := (hfirst.cut hn).2
    have hrest := ih hmapped (forall_mem_cons.2 ⟨hback, hloose⟩)
    rw [flatMap_cons, ← Segment.loads_of_start hback.start] at hrest
    rw [flatMap_cons, flatMap_cons, ← Segment.loads_cut hfirst hn, append_assoc]
    exact (hrest.append_left _).trans (perm_append_comm_assoc ..)

/-- What is asked of a segment so that its memory comes through a file. -/
structure Segment.IsLoadable (s : Segment) : Prop where
  start : lastPadding < s.address.toNat
  loose : s.isMapped = false → s.address.toNat + s.data.length ≤ 2 ^ 32
  length : s.completed.data.length < 2 ^ 32

theorem perm_completed (segments : List Segment) : (((byAddress segments).filter (·.isMapped)).map Segment.extendTail ++
      (byAddress segments).filter (!·.isMapped)).Perm (segments.map Segment.completed) := by
  have hmapped : ((byAddress segments).filter (·.isMapped)).map Segment.extendTail =
      ((byAddress segments).filter (·.isMapped)).map Segment.completed :=
    map_congr_left fun s hs => (if_pos (mem_filter.1 hs).2).symm
  have hloose : (byAddress segments).filter (!·.isMapped) =
      ((byAddress segments).filter (!·.isMapped)).map Segment.completed := by
    conv_lhs => rw [← map_id ((byAddress segments).filter (!·.isMapped))]
    apply map_congr_left
    intro s hs
    have hnot : s.isMapped = false := by simpa using (mem_filter.1 hs).2
    simp [Segment.completed, hnot]
  rw [hmapped, hloose, ← map_append]
  exact ((filter_append_perm ..).trans (mergeSort_perm ..)).map _

/-- The pieces of an image hold its memory, and a word can hold the length of each of them. -/
theorem perm_loads_padSegments {offset : Nat} (h : ∀ s ∈ segments, s.IsLoadable)
    (hlaid : padSegments segments offset = .ok laid) :
    (∀ p ∈ laid, p.data.length < 2 ^ 32) ∧
      (laid.flatMap Segment.loads).Perm ((segments.map Segment.completed).flatMap Segment.memory) := by
  have hlays := Layout.lays_of_padSegments hlaid
  have hmem : ∀ s ∈ segments, s.isMapped = false → s.InSpace :=
    fun s hs hloose => ⟨(h s hs).start, (h s hs).loose hloose⟩
  have hloose : ∀ s ∈ (Layout.ofSegments segments offset).loose, s.InSpace :=
    fun s hs => hmem s (of_mem_loose hs).1 (of_mem_loose hs).2
  constructor
  · refine hlays.forall_mem (Q := Segment.InSpace) ?_ hloose ?_ ?_ ?_
    · intro s hs
      obtain ⟨t, ht, hkind, rfl⟩ := of_mem_mapped hs
      have hlength := (h t ht).length
      rwa [Segment.completed, if_pos hkind] at hlength
    · intro n hn
      have hlength : (Segment.zeros n).data.length = n := length_replicate
      rw [hlength]
      exact Nat.lt_trans hn (by decide)
    · exact fun s hs => hs.length_lt
    · exact fun s n hn hs => hs.cut hn
  · refine (hlays.perm_loads ?_ hloose).trans ?_
    · intro s hs
      obtain ⟨t, ht, -, rfl⟩ := of_mem_mapped hs
      rw [Segment.extendTail_eq]
      exact (h t ht).start
    · rw [← flatMap_append]
      exact (perm_completed segments).flatMap_right _

/-! ## Reading -/

variable {chip : Chip}

/-- A piece that is read adds what is loaded from it to the memory of the segments read so far. -/
theorem memory_addSegment (hchip : chip ∈ chips) (segments : List Segment) (s : Segment) :
    (addSegment chip segments s.address s.data).reverse.flatMap Segment.memory =
      segments.reverse.flatMap Segment.memory ++ s.loads := by
  obtain ⟨hpadding, hadd⟩ | ⟨hstart, ⟨last, before, rfl, hjoin, hadd⟩ | ⟨fresh, haddress, hdata, hadd⟩⟩ :=
    addSegment_cases hchip segments s
  · have hnone : s.loads = [] := if_neg (Nat.not_lt.2 hpadding)
    rw [hadd, hnone, append_nil]
  · -- what follows the last segment stands where it stops, also where that is around the end of the address space
    have hmemory : Segment.memory { last with data := last.data ++ s.data } = last.memory ++ s.memory := by
      rw [Segment.memory, memoryAt_append]
      show last.memory ++ memoryAt last.stop s.data = _
      rw [hjoin]
      rfl
    rw [hadd, Segment.loads_of_start hstart]
    simp only [reverse_cons, flatMap_append, flatMap_singleton, hmemory, append_assoc]
  · have hmemory : fresh.memory = s.memory := by rw [Segment.memory, haddress, hdata, ← Segment.memory]
    rw [hadd, Segment.loads_of_start hstart]
    simp only [reverse_cons, flatMap_append, flatMap_singleton, hmemory]

theorem memory_foldl_addSegment (hchip : chip ∈ chips) (laid segments : List Segment) :
    (laid.foldl (fun segments s => addSegment chip segments s.address s.data) segments).reverse.flatMap
      Segment.memory = segments.reverse.flatMap Segment.memory ++ laid.flatMap Segment.loads := by
  induction laid generalizing segments with
  | nil => simp
  | cons s laid ih => rw [foldl_cons, ih, memory_addSegment hchip, flatMap_cons, append_assoc]

section

variable {digest : Bool} {file : Bytes} (hheader : img.header.length = headerSize)
  (hmagic : img.header[0]? = some magic) (hchip : Chip.find? (Bytes.word16 (img.header.drop 12)) = some chip)
include hheader hmagic hchip

/-- The file of an image is read as its header and the pieces that it was laid out in. -/
theorem parse_serialize (hfile : img.serialize digest = .ok file) (hlaid : padSegments img.segments headerSize = .ok laid)
    (hfew : laid.length ≤ 255) (hwords : ∀ s ∈ laid, s.data.length < 2 ^ 32) :
    parse file = .ok ⟨fileHeader img.header laid.length digest, chip.name,
      (laid.foldl (fun segments s => addSegment chip segments s.address s.data) []).reverse⟩ := by
  rw [serialize_eq hheader, hlaid] at hfile
  obtain ⟨rest, hrest⟩ := exists_finish_body hheader laid digest
  obtain rfl : finish digest (body img.header laid) = file := Except.ok.inj hfile
  rw [← word16_fileHeader img.header laid.length digest] at hchip
  rw [hrest]
  exact parse_append_of_length ((length_fileHeader ..).trans hheader)
    ((getElem?_fileHeader (by decide) (by decide)).trans hmagic) hchip
    (getElem?_fileHeader_count hheader laid.length digest) hfew hwords rest

/-- The file of an image is read back with the memory of the image. -/
theorem parse_serialize_memory (hsegments : ∀ s ∈ img.segments, s.IsLoadable) (hfile : img.serialize digest = .ok file)
    (hlaid : padSegments img.segments headerSize = .ok laid) (hfew : laid.length ≤ 255) :
    ∃ parsed, parse file = .ok parsed ∧
      (parsed.segments.flatMap Segment.memory).Perm ((img.segments.map Segment.completed).flatMap Segment.memory) := by
  obtain ⟨hwords, hperm⟩ := perm_loads_padSegments hsegments hlaid
  refine ⟨_, parse_serialize hheader hmagic hchip hfile hlaid hfew hwords, ?_⟩
  rw [memory_foldl_addSegment (mem_of_find?_eq_some hchip)]
  exact hperm

end

/-! ## Images that were read -/

/-- What reading makes sure of: a segment does not start where space is filled, and read-only data is mapped and lies
where all chips have it. -/
structure Segment.IsRead (s : Segment) : Prop where
  start : lastPadding < s.address.toNat
  mapped : s.isReadOnly = true → s.isMapped = true
  readOnly : s.isReadOnly = true → 0x3C000000 ≤ s.address.toNat

theorem toNat_of_isReadOnlyData (h : chip ∈ chips) {a : UInt32} (ha : chip.isReadOnlyData a = true) :
    0x3C000000 ≤ a.toNat := by
  have hle : ∀ {b : UInt32}, b ≤ a → b.toNat ≤ a.toNat := UInt32.le_iff_toNat_le.1
  -- the lowest address of read-only data differs from chip to chip
  simp only [chips, mem_cons, not_mem_nil, or_false] at h
  rcases h with rfl | rfl | rfl | rfl <;>
    simp only [Chip.isReadOnlyData, Chip.isIn, any_cons, any_nil, Bool.or_eq_true, Bool.and_eq_true,
      beq_iff_eq, decide_eq_true_eq, String.reduceEq, false_and, false_or, Bool.false_eq_true, or_false,
      true_and] at ha <;>
    exact Nat.le_trans (by decide) (hle ha.1)

theorem isRead_addSegment (hchip : chip ∈ chips) (h : ∀ s ∈ segments, s.IsRead) (address : UInt32) (data : Bytes) :
    ∀ s ∈ addSegment chip segments address data, s.IsRead := by
  unfold addSegment
  by_cases hpadding : chip.isPadding address = true
  · rw [if_pos hpadding]
    exact h
  · have hfresh : Segment.IsRead ⟨address, chip.isMapped address, chip.isReadOnlyData address, data⟩ := by
      refine ⟨Nat.lt_of_not_le fun hle => hpadding ((isPadding_iff hchip _).2 hle), ?_, toNat_of_isReadOnlyData hchip⟩
      intro hreadOnly
      exact Bool.or_eq_true_iff.2 (.inl hreadOnly)
    rw [if_neg hpadding]
    cases segments with
    | nil => exact forall_mem_cons.2 ⟨hfresh, h⟩
    | cons last before =>
      obtain ⟨hlast, hbefore⟩ := forall_mem_cons.1 h
      dsimp only
      split
      · exact forall_mem_cons.2 ⟨⟨hlast.start, hlast.mapped, hlast.readOnly⟩, hbefore⟩
      · exact forall_mem_cons.2 ⟨hfresh, h⟩

theorem isRead_readSegments (hchip : chip ∈ chips) {n : Nat} {found : List Segment} {b : Bytes}
    (hread : readSegments chip n segments b = .ok found) (h : ∀ s ∈ segments, s.IsRead) : ∀ s ∈ found, s.IsRead := by
  induction n generalizing segments b with
  | zero =>
    obtain rfl := Except.ok.inj hread
    exact fun s hs => h s (mem_reverse.1 hs)
  | succ n ih =>
    rw [readSegments] at hread
    split at hread
    · cases hread
    · dsimp only at hread
      split at hread
      · cases hread
      · exact ih hread (isRead_addSegment hchip h _ _)

/-- What is known of an image that was read. -/
theorem of_parse {b : Bytes} (h : parse b = .ok img) : img.header.length = headerSize ∧ img.header[0]? = some magic ∧
      (∃ chip, Chip.find? (Bytes.word16 (img.header.drop 12)) = some chip) ∧ ∀ s ∈ img.segments, s.IsRead := by
  unfold parse at h
  by_cases hshort : b.length < headerSize
  · rw [if_pos hshort] at h
    exact nomatch h
  have hlength : headerSize ≤ b.length := Nat.le_of_not_lt hshort
  by_cases hmagic : (b.getD 0 0 != magic) = true
  · rw [if_neg hshort, if_pos hmagic] at h
    exact nomatch h
  rw [if_neg hshort, if_neg hmagic] at h
  cases hchip : Chip.find? (Bytes.word16 (b.drop 12)) with
  | none =>
    simp only [hchip] at h
    exact nomatch h
  | some chip =>
    simp only [hchip] at h
    cases hread : readSegments chip (b.getD 1 0).toNat [] (b.drop headerSize) with
    | error f =>
      rw [hread] at h
      exact nomatch h
    | ok found =>
      rw [hread] at h
      obtain rfl := Except.ok.inj h
      have hget : ∀ i < headerSize, (b.take headerSize)[i]? = b[i]? := fun i => getElem?_take_of_lt
      refine ⟨length_take_of_le hlength, ?_, ⟨chip, ?_⟩, ?_⟩
      · rw [hget 0 (by decide)]
        rw [bne_iff_ne, not_not, getD_eq_getElem?_getD] at hmagic
        rw [← hmagic, getElem?_eq_getElem (Nat.lt_of_lt_of_le (by decide) hlength), Option.getD_some]
      · rw [Bytes.word16_drop, hget 12 (by decide), hget 13 (by decide), ← Bytes.word16_drop]
        exact hchip
      · exact isRead_readSegments (mem_of_find?_eq_some hchip) hread fun s hs => absurd hs not_mem_nil

end BootImage
end Firmware
