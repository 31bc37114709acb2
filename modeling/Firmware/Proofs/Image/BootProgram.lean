import Firmware.Proofs.BootImage.Memory
import Firmware.Proofs.Image.Linking
import Firmware.Proofs.Image.ProgramBytes
import Firmware.Proofs.ObjectHeader.FlatScan
import Mathlib.Data.List.Pairwise

/-!
# Programs in boot images

A program is put behind the first segment of read-only data, at an address that was found from that segment alone, and
mapped segments get zeros behind them when the image is written. What an image is loaded with is therefore known: each
segment of the template with what was added behind it (`perm_memory_of_link`). So the program, the address that stands
for the marker and the rest of the template are all there. Nothing keeps what was added clear of the other segments,
and an address may get two different bytes: that is so exactly if a byte that was added differs from one that another
segment has at its address (`holdsProgram_of_link`, `link_conflicting`).
-/

open List

namespace Firmware

namespace BootImage

variable {a : UInt32} {b : UInt8}

/-! ## Segments that agree -/

/-- Whether one of the segments has a byte for an address. -/
def Covers (segments : List Segment) (a : UInt32) (b : UInt8) : Prop := ∃ s ∈ segments, (a, b) ∈ s.memory

/-- Whether no address gets two different bytes. -/
def Agree (segments : List Segment) : Prop := ∀ a b c, Covers segments a b → Covers segments a c → b = c

/-- Whether two segments have no address in common. -/
def Segment.Apart (s u : Segment) : Prop :=
  min (s.address.toNat + s.data.length) (u.address.toNat + u.data.length) ≤ max s.address.toNat u.address.toNat

instance (s u : Segment) : Decidable (s.Apart u) := inferInstanceAs (Decidable (_ ≤ _))

instance : Std.Symm Segment.Apart where
  symm s u h := by
    unfold Segment.Apart at h ⊢
    rwa [Nat.min_comm, Nat.max_comm]

theorem mem_flatMap_memory {segments : List Segment} :
    (a, b) ∈ segments.flatMap Segment.memory ↔ Covers segments a b := mem_flatMap

/-- Within less than the address space an address stands for one byte. -/
theorem eq_of_mem_memoryAt {address : UInt32} {data : Bytes} {c : UInt8} (hlength : data.length < 2 ^ 32)
    (hb : (a, b) ∈ memoryAt address data) (hc : (a, c) ∈ memoryAt address data) : b = c := by
  obtain ⟨i, hi, rfl⟩ := mem_memoryAt.1 hb
  obtain ⟨j, hj, haddress⟩ := mem_memoryAt.1 hc
  have hlt : ∀ {k : Nat} {d : UInt8}, data[k]? = some d → k < 2 ^ 32 :=
    fun hk => Nat.lt_trans (List.getElem?_eq_some_iff.1 hk).1 hlength
  have hsame := congrArg UInt32.toNat ((UInt32.add_right_inj address).1 haddress)
  rw [UInt32.toNat_ofNat_of_lt' (hlt hi), UInt32.toNat_ofNat_of_lt' (hlt hj)] at hsame
  rw [hsame] at hi
  exact Option.some.inj (hi.symm.trans hj)

/-- The addresses of bytes that end in the address space. -/
theorem toNat_of_mem_memoryAt {address : UInt32} {data : Bytes} (hstop : address.toNat + data.length ≤ 2 ^ 32)
    (h : (a, b) ∈ memoryAt address data) : address.toNat ≤ a.toNat ∧ a.toNat < address.toNat + data.length := by
  obtain ⟨i, hi, rfl⟩ := mem_memoryAt.1 h
  have hlt := (List.getElem?_eq_some_iff.1 hi).1
  have haddress : (address + i.toUInt32).toNat = address.toNat + i := by
    rw [UInt32.toNat_add, UInt32.toNat_ofNat_of_lt' (by omega : i < 2 ^ 32), Nat.mod_eq_of_lt (by omega)]
  omega

/-- Only the first segment of read-only data changes. -/
theorem updateReadOnly_eq_map {f : Segment → Segment} {segments : List Segment} {first : Segment}
    (hfirst : segments.find? (·.isReadOnly) = some first)
    (honce : segments.Pairwise fun s u => s = first → u ≠ first) :
    updateReadOnly f segments = segments.map fun s => if s = first then f s else s := by
  induction segments with
  | nil => rfl
  | cons s rest ih =>
    obtain ⟨hs, hrest⟩ := pairwise_cons.1 honce
    rw [updateReadOnly, map_cons]
    by_cases hkind : s.isReadOnly = true
    · rw [find?_cons_of_pos hkind] at hfirst
      obtain rfl := Option.some.inj hfirst
      -- the rest is left as it is, and by `honce` the map leaves it too
      rw [if_pos hkind, if_pos rfl]
      congr 1
      exact (map_id rest).symm.trans (map_congr_left fun u hu => (if_neg (hs u hu rfl)).symm)
    · rw [find?_cons_of_neg hkind] at hfirst
      have hne : s ≠ first := fun h => hkind (h ▸ find?_some hfirst)
      rw [if_neg hkind, if_neg hne, ih hfirst hrest]

/-- The zeros that complete a segment are few. -/
theorem Segment.exists_completed (s : Segment) :
    ∃ n ≤ shortestTail, s.completed = { s with data := s.data ++ List.replicate n 0 } := by
  unfold completed
  split
  · exact ⟨_, Nat.sub_le .., extendTail_eq s⟩
  · exact ⟨0, Nat.zero_le _, by rw [replicate_zero, append_nil]⟩

end BootImage

/-- A buffer is completed to whole words. -/
theorem Bytes.exists_resize_words (b : Bytes) :
    ∃ n ≤ 3, b.resize ((b.length + 3) / 4 * 4) 0 = b ++ List.replicate n 0 := by
  refine ⟨(b.length + 3) / 4 * 4 - b.length, by omega, ?_⟩
  rw [resize, take_of_length_le (by omega)]

theorem alignUp_zero (align : UInt32) : alignUp 0 align = 0 := by
  unfold alignUp
  split
  · rfl
  · rw [UInt32.zero_add]
    apply UInt32.toBitVec_inj.1
    simp

/-! ## Templates -/

namespace Image

open BootImage Template

variable {t : Template} {boot : BootImage} {first s : Segment} {program : Bytes}
variable {i : Nat} {b : UInt8}

/-- A template that is a boot image, whose segments end in the address space and have no address in common. -/
structure HoldsBoot (t : Template) (boot : BootImage) (first : Segment) : Prop where
  parsed : ∃ b, BootImage.parse b = .ok boot
  readOnly : boot.readOnly? = some first
  marker : bootMarker <+: first.data.drop t.markerOffset.toNat
  space : ∀ s ∈ boot.segments, s.address.toNat + s.data.length ≤ 2 ^ 32
  apart : boot.segments.Pairwise Segment.Apart
  /-- Where the read-only data ends with the address space, the program starts over at its beginning. -/
  around : first.stop = 0 → t.codeStart = 0

section

variable (h : HoldsBoot t boot first)
include h

theorem HoldsBoot.marker_le : t.markerOffset.toNat + bootMarker.length ≤ first.data.length := by
  have hle := h.marker.length_le
  have hpos : 0 < bootMarker.length := by decide
  rw [length_drop] at hle
  omega

theorem HoldsBoot.isRead (hs : s ∈ boot.segments) : s.IsRead := by
  obtain ⟨b, hparse⟩ := h.parsed
  exact (of_parse hparse).2.2.2 s hs

theorem HoldsBoot.mem : first ∈ boot.segments := mem_of_find?_eq_some h.readOnly

theorem HoldsBoot.isReadOnly : first.isReadOnly = true := by
  simpa using find?_some h.readOnly

/-- The read-only data that holds the marker is there once. -/
theorem HoldsBoot.once : boot.segments.Pairwise fun s u => s = first → u ≠ first := by
  refine h.apart.imp ?_
  rintro s u hapart rfl rfl
  -- what is apart from itself is empty, and this segment has the marker
  have hle := h.marker_le
  have hpos : 0 < bootMarker.length := by decide
  unfold Segment.Apart at hapart
  omega

end

/-! ## What is loaded -/

/-- What stands in the place of the marker: the address of the program, and zeros. -/
def bootHeader (t : Template) : Bytes := Bytes.ofWord32 t.codeStart ++ List.replicate 13 0

/-- A segment of a template as it is loaded: the first one of read-only data with the program behind it, and a mapped
one with the zeros that complete it. -/
def enlarged (t : Template) (program : Bytes) (first s : Segment) : Segment :=
  (if s = first then extendReadOnly t t.markerOffset.toNat program s else s).completed

/-- The bytes of a segment of a template, with the marker replaced. -/
def patched (t : Template) (first s : Segment) : Bytes :=
  if s = first then s.data.overwrite t.markerOffset.toNat (bootHeader t) else s.data

/-- What is added behind a segment of a template. -/
def added (t : Template) (program : Bytes) (first s : Segment) : List (UInt32 × UInt8) :=
  memoryAt s.stop ((enlarged t program first s).data.drop s.data.length)

theorem length_patched (h : HoldsBoot t boot first) (s : Segment) : (patched t first s).length = s.data.length := by
  unfold patched
  split
  next heq => exact heq ▸ Bytes.length_overwrite h.marker_le
  next => rfl

theorem getElem?_patched_marker (h : HoldsBoot t boot first) (hbyte : (bootHeader t)[i]? = some b) :
    (patched t first first)[t.markerOffset.toNat + i]? = some b := by
  have hfit : t.markerOffset.toNat + (bootHeader t).length ≤ first.data.length := h.marker_le
  rw [patched, if_pos rfl, Bytes.getElem?_overwrite hfit, if_pos (Nat.le_add_right ..), Nat.add_sub_cancel_left, hbyte]
  rfl

theorem getElem?_patched_of_other (h : HoldsBoot t boot first) (hbyte : s.data[i]? = some b)
    (hother : s = first → i < t.markerOffset.toNat ∨ t.markerOffset.toNat + bootMarker.length ≤ i) :
    (patched t first s)[i]? = some b := by
  unfold patched
  split
  next hfirst =>
    have hfit : t.markerOffset.toNat + (bootHeader t).length ≤ s.data.length := hfirst ▸ h.marker_le
    rw [Bytes.getElem?_overwrite hfit]
    obtain hbefore | hbehind := hother hfirst
    · rw [if_neg (Nat.not_le.2 hbefore), hbyte]
    · have hend : (bootHeader t).length ≤ i - t.markerOffset.toNat := Nat.le_sub_of_add_le' hbehind
      rw [if_pos (Nat.le_trans (Nat.le_add_right ..) hbehind), getElem?_eq_none hend, hbyte]
      rfl
  next => exact hbyte

/-- Behind the read-only data come zeros up to the code start, the program, and zeros. -/
theorem exists_enlarged_first (t : Template) (program : Bytes) (first : Segment) :
    ∃ n ≤ 3 + shortestTail, enlarged t program first first = { first with data := patched t first first ++
          (List.replicate (t.codeStart - first.stop).toNat 0 ++ (program ++ List.replicate n 0)) } := by
  have hextend : ∃ n ≤ 3, extendReadOnly t t.markerOffset.toNat program first =
      { first with data := patched t first first ++
          (List.replicate (t.codeStart - first.stop).toNat 0 ++ (program ++ List.replicate n 0)) } := by
    obtain ⟨n, hn, hwords⟩ := Bytes.exists_resize_words (patched t first first ++
      List.replicate (t.codeStart - first.stop).toNat 0 ++ program)
    refine ⟨n, hn, ?_⟩
    rw [← append_assoc, ← append_assoc, ← hwords, patched, if_pos rfl]
    rfl
  obtain ⟨n, hn, hextend⟩ := hextend
  obtain ⟨m, hm, hcompleted⟩ := (extendReadOnly t t.markerOffset.toNat program first).exists_completed
  refine ⟨n + m, Nat.add_le_add hn hm, ?_⟩
  rw [enlarged, if_pos rfl, hcompleted, hextend]
  simp only [append_assoc, replicate_append_replicate]

/-- Other segments get zeros at most. -/
theorem exists_enlarged_of_ne (t : Template) (program : Bytes) (h : s ≠ first) :
    ∃ n ≤ shortestTail, enlarged t program first s = { s with data := patched t first s ++ List.replicate n 0 } := by
  obtain ⟨n, hn, hcompleted⟩ := s.exists_completed
  refine ⟨n, hn, ?_⟩
  rw [enlarged, if_neg h, hcompleted, patched, if_neg h]

theorem memory_enlarged (h : HoldsBoot t boot first) (program : Bytes) (s : Segment) :
    (enlarged t program first s).memory = memoryAt s.address (patched t first s) ++ added t program first s := by
  have hdata : ∃ behind, enlarged t program first s = { s with data := patched t first s ++ behind } := by
    by_cases hs : s = first
    · subst hs
      obtain ⟨n, -, henlarged⟩ := exists_enlarged_first t program s
      exact ⟨_, henlarged⟩
    · obtain ⟨n, -, henlarged⟩ := exists_enlarged_of_ne t program hs
      exact ⟨_, henlarged⟩
  obtain ⟨behind, henlarged⟩ := hdata
  rw [added, henlarged, Segment.memory]
  dsimp only
  rw [drop_left' (length_patched h s), memoryAt_append, length_patched h s]
  rfl

/-- No segment gets as long as the address space. -/
theorem length_enlarged_lt (h : HoldsBoot t boot first) (hstart : ¬ t.codeStart < first.stop)
    (hsmall : program.length < 2 ^ 20) (hs : s ∈ boot.segments) :
    (enlarged t program first s).data.length < 2 ^ 32 := by
  have hspace := h.space s hs
  have hlow := (h.isRead hs).start
  have hpadding : Segment.lastPadding = 65536 := rfl
  have htail : shortestTail = 36 := rfl
  have hpatched := length_patched h s
  by_cases hfirst : s = first
  · subst hfirst
    obtain ⟨n, hn, henlarged⟩ := exists_enlarged_first t program s
    have hhigh := (h.isRead hs).readOnly h.isReadOnly
    -- the gap ends at an address
    have hgap : s.data.length + (t.codeStart - s.stop).toNat + s.address.toNat ≤ 2 ^ 32 := by
      by_cases hin : s.address.toNat + s.data.length < 2 ^ 32
      · have hstop : s.stop.toNat = s.address.toNat + s.data.length := Segment.Fits.toNat_stop hin
        have hcode := t.codeStart.toNat_lt
        rw [UInt32.lt_iff_toNat_lt] at hstart
        rw [UInt32.toNat_sub_of_le _ _ (UInt32.le_iff_toNat_le.2 (Nat.le_of_not_lt hstart))]
        omega
      · -- the data ends with the address space, and the program follows without a gap
        have hstop : s.stop = 0 := by
          apply UInt32.toNat_inj.1
          rw [Segment.stop, UInt32.toNat_add, UInt32.toNat_ofNat_of_lt' (by omega : s.data.length < 2 ^ 32)]
          show _ = 0
          omega
        rw [hstop, h.around hstop]
        show s.data.length + 0 + _ ≤ _
        omega
    rw [henlarged]
    simp only [length_append, length_replicate, hpatched]
    omega
  · obtain ⟨n, hn, henlarged⟩ := exists_enlarged_of_ne t program hfirst
    rw [henlarged]
    simp only [length_append, length_replicate, hpatched]
    omega

/-! ## Linking -/

variable {name : String} {state : BuildState} {words : Words} {short uf2 : Bool} {image : Image}

theorem link_boot_eq {header : Bytes} (hboot : t.boot = some boot) (hsize : sizeEntry words < sizeLimit)
    (hheader : programHeader t = .ok header) (name : String) (state : BuildState) (short uf2 : Bool) :
    link t name state words short uf2 = linkBoot t (payload t state.commSize words) boot := by
  unfold link
  rw [if_neg (Nat.not_le.2 hsize), hheader, hboot]
  rfl

theorem linkBoot_eq (hprogram : ObjectHeader.replaceIn t words.toBytes = .ok program)
    (hfirst : boot.readOnly? = some first) (hmarker : 0 ≤ t.markerOffset)
    (hfit : t.markerOffset.toNat + bootMarker.length ≤ first.data.length)
    (hwrap : wrap64 (t.markerOffset + bootMarker.length) ≤ first.data.length)
    (hstart : ¬ t.codeStart < first.stop) :
    linkBoot t words boot = (BootImage.serialize { boot with
      segments := updateReadOnly (extendReadOnly t t.markerOffset.toNat program) boot.segments }
        ((boot.header[digestFlagOffset]?).any (· != 0))).map .binary := by
  have hinside : ¬ (t.markerOffset < 0 || (first.data.length : Int) < wrap64 (t.markerOffset + bootMarker.length)) =
      true := by
    rw [Bool.or_eq_true, decide_eq_true_eq, decide_eq_true_eq]
    omega
  unfold linkBoot
  rw [hprogram, hfirst]
  dsimp only [bind, Except.bind]
  rw [if_neg hinside, if_neg (Nat.not_lt.2 hfit), if_neg hstart]
  rfl

/-- What is known of a program that is linked into a boot image. -/
theorem of_link_boot (hboot : t.boot = some boot) (hlink : link t name state words short uf2 = .ok image)
    (hprogram : ObjectHeader.replaceIn t (payload t state.commSize words).toBytes = .ok program)
    (hfirst : boot.readOnly? = some first) :
    sizeEntry words < sizeLimit ∧ ¬ t.codeStart < first.stop ∧
      ∃ (img : BootImage) (digest : Bool) (file : Bytes), img.header = boot.header ∧
        img.segments = updateReadOnly (extendReadOnly t t.markerOffset.toNat program) boot.segments ∧
        img.serialize digest = .ok file ∧ image = .binary file := by
  obtain ⟨hsize, header, hheader⟩ := of_link hlink
  refine ⟨hsize, ?_⟩
  rw [link_boot_eq hboot hsize hheader, linkBoot, hprogram, hfirst] at hlink
  dsimp only [bind, Except.bind] at hlink
  split at hlink
  · exact nomatch hlink
  split at hlink
  · exact nomatch hlink
  split at hlink
  · exact nomatch hlink
  next hstart =>
    obtain ⟨file, hfile, hlink⟩ := exists_of_bind_eq_ok hlink
    let segments := updateReadOnly (extendReadOnly t t.markerOffset.toNat program) boot.segments
    exact ⟨hstart, { boot with segments }, _, file, rfl, rfl, hfile, (Except.ok.inj hlink).symm⟩

/-- A program that can be linked is small. -/
theorem length_program_lt (hpadding : t.codePadding = 0) (hsize : sizeEntry words < sizeLimit)
    (hprogram : ObjectHeader.replaceIn t (payload t state.commSize words).toBytes = .ok program) :
    program.length < 2 ^ 20 := by
  have hlength := ObjectHeader.length_of_replaceIn hprogram
  rw [Words.length_toBytes, length_payload, hpadding] at hlength
  have hzero : (0 : UInt32).toNat = 0 := rfl
  rw [hzero] at hlength
  have hslot : commSlot = 20 := rfl
  unfold sizeEntry sizeLimit at hsize
  omega

theorem isLoadable_of_mem (h : HoldsBoot t boot first) (hstart : ¬ t.codeStart < first.stop)
    (hsmall : program.length < 2 ^ 20) (hs : s ∈ boot.segments) :
    (if s = first then extendReadOnly t t.markerOffset.toNat program s else s).IsLoadable := by
  have hlength : (enlarged t program first s).data.length < 2 ^ 32 := length_enlarged_lt h hstart hsmall hs
  have hread := h.isRead hs
  unfold enlarged at hlength
  by_cases hfirst : s = first
  · rw [if_pos hfirst] at hlength ⊢
    refine ⟨hread.start, ?_, hlength⟩
    intro hloose
    have hmapped : s.isMapped = true := hread.mapped (hfirst ▸ h.isReadOnly)
    exact absurd (hloose.symm.trans hmapped) Bool.false_ne_true
  · rw [if_neg hfirst] at hlength ⊢
    exact ⟨hread.start, fun _ => h.space s hs, hlength⟩

/-- An image is loaded with each segment of the template and what was added to it. -/
theorem perm_memory_of_link (h : HoldsBoot t boot first) (hboot : t.boot = some boot) (hpadding : t.codePadding = 0)
    (hlink : link t name state words short uf2 = .ok image)
    (hprogram : ObjectHeader.replaceIn t (payload t state.commSize words).toBytes = .ok program) {laid : List Segment}
    (hlaid : padSegments (updateReadOnly (extendReadOnly t t.markerOffset.toNat program) boot.segments) headerSize =
      .ok laid) (hfew : laid.length ≤ 255) :
    (∀ s ∈ boot.segments, (enlarged t program first s).data.length < 2 ^ 32) ∧
      ∃ file parsed, image = .binary file ∧ BootImage.parse file = .ok parsed ∧
        (parsed.segments.flatMap Segment.memory).Perm
          ((boot.segments.map (enlarged t program first)).flatMap Segment.memory) := by
  obtain ⟨hsize, hstart, img, digest, file, hsame, hsegments, hfile, rfl⟩ :=
    of_link_boot hboot hlink hprogram h.readOnly
  have hsmall := length_program_lt hpadding hsize hprogram
  obtain ⟨b, hparse⟩ := h.parsed
  obtain ⟨hheader, hmagic, ⟨chip, hchip⟩, -⟩ := of_parse hparse
  rw [← hsame] at hheader hmagic hchip
  rw [← hsegments] at hlaid
  have hmap := hsegments.trans (updateReadOnly_eq_map h.readOnly h.once)
  have hloadable : ∀ u ∈ img.segments, u.IsLoadable := by
    intro u hu
    rw [hmap] at hu
    obtain ⟨s, hs, rfl⟩ := mem_map.1 hu
    exact isLoadable_of_mem h hstart hsmall hs
  refine ⟨fun s hs => length_enlarged_lt h hstart hsmall hs, file, ?_⟩
  obtain ⟨parsed, hparsed, hperm⟩ := parse_serialize_memory hheader hmagic hchip hloadable hfile hlaid hfew
  refine ⟨parsed, rfl, hparsed, ?_⟩
  rw [hmap, map_map] at hperm
  exact hperm

/-! ## What is found -/

/-- An image that holds a program and the template it was linked with. -/
structure HoldsProgram (t : Template) (boot : BootImage) (first : Segment) (program : Bytes) (parsed : BootImage) :
    Prop where
  /-- The program stands from the code start on. -/
  code : ∀ (i : Nat) b, program[i]? = some b → Covers parsed.segments (t.codeStart + i.toUInt32) b
  /-- The address of the program and zeros stand where the marker was. -/
  header : ∀ (i : Nat) b, (bootHeader t)[i]? = some b →
    Covers parsed.segments (first.address + (t.markerOffset.toNat + i).toUInt32) b
  /-- All else stands where it was. -/
  rest : ∀ s ∈ boot.segments, ∀ (i : Nat) b, s.data[i]? = some b →
    (s = first → i < t.markerOffset.toNat ∨ t.markerOffset.toNat + bootMarker.length ≤ i) →
    Covers parsed.segments (s.address + i.toUInt32) b
  /-- No address has two different bytes, unless what was added behind a segment differs from another one. -/
  agrees : Agree parsed.segments ↔ ∀ s ∈ boot.segments, ∀ u ∈ boot.segments, s ≠ u → ∀ a b c,
    (a, b) ∈ added t program first s → (a, c) ∈ (enlarged t program first u).memory → b = c

theorem mem_memory_enlarged_of_patched (h : HoldsBoot t boot first) (program : Bytes)
    (hbyte : (patched t first s)[i]? = some b) : (s.address + i.toUInt32, b) ∈ (enlarged t program first s).memory := by
  rw [memory_enlarged h]
  exact mem_append_left _ (mem_memoryAt.2 ⟨i, hbyte, rfl⟩)

theorem mem_memory_enlarged_program (h : HoldsBoot t boot first) (hbyte : program[i]? = some b) :
    (t.codeStart + i.toUInt32, b) ∈ (enlarged t program first first).memory := by
  obtain ⟨n, -, henlarged⟩ := exists_enlarged_first t program first
  have hgap : first.address + (patched t first first).length.toUInt32 +
      (List.replicate (t.codeStart - first.stop).toNat (0 : UInt8)).length.toUInt32 = t.codeStart := by
    rw [length_patched h, length_replicate]
    show first.stop + UInt32.ofNat (t.codeStart - first.stop).toNat = _
    rw [UInt32.ofNat_toNat, UInt32.add_comm, UInt32.sub_add_cancel]
  rw [henlarged, Segment.memory]
  dsimp only
  rw [memoryAt_append, memoryAt_append, memoryAt_append, hgap]
  have hmem : (t.codeStart + i.toUInt32, b) ∈ memoryAt t.codeStart program := mem_memoryAt.2 ⟨i, hbyte, rfl⟩
  exact mem_append_right _ (mem_append_right _ (mem_append_left _ hmem))

/-- Different segments of a template have no address in common, so two bytes for one address come with what was
added. -/
theorem agree_iff (h : HoldsBoot t boot first)
    (hlength : ∀ s ∈ boot.segments, (enlarged t program first s).data.length < 2 ^ 32) :
    Agree (boot.segments.map (enlarged t program first)) ↔ ∀ s ∈ boot.segments, ∀ u ∈ boot.segments, s ≠ u →
      ∀ a b c, (a, b) ∈ added t program first s → (a, c) ∈ (enlarged t program first u).memory → b = c := by
  have hcovers : ∀ {a b}, Covers (boot.segments.map (enlarged t program first)) a b ↔
      ∃ s ∈ boot.segments, (a, b) ∈ (enlarged t program first s).memory := by
    intro a b
    simp only [Covers, mem_map, exists_exists_and_eq_and]
  constructor
  · intro hagree s hs u hu _ a b c hb hc
    refine hagree a b c (hcovers.2 ⟨s, hs, ?_⟩) (hcovers.2 ⟨u, hu, hc⟩)
    rw [memory_enlarged h]
    exact mem_append_right _ hb
  · intro hadded a b c hb hc
    obtain ⟨s, hs, hb⟩ := hcovers.1 hb
    obtain ⟨u, hu, hc⟩ := hcovers.1 hc
    by_cases hsame : s = u
    · subst hsame
      exact eq_of_mem_memoryAt (hlength s hs) hb hc
    -- of two segments, either one of the bytes was added or both stand in the template
    have hb' := hb
    have hc' := hc
    rw [memory_enlarged h] at hb' hc'
    obtain hold | hnew := mem_append.1 hb'
    · obtain hold' | hnew' := mem_append.1 hc'
      · have hapart := h.apart.forall hs hu hsame
        have hspace : ∀ v ∈ boot.segments, v.address.toNat + (patched t first v).length ≤ 2 ^ 32 :=
          fun v hv => (length_patched h v).symm ▸ h.space v hv
        have hats := toNat_of_mem_memoryAt (hspace s hs) hold
        have hatu := toNat_of_mem_memoryAt (hspace u hu) hold'
        rw [length_patched h] at hats hatu
        unfold Segment.Apart at hapart
        omega
      · exact (hadded u hu s hs (Ne.symm hsame) a c b hnew' hb).symm
    · exact hadded s hs u hu hsame a b c hnew hc

theorem holdsBoot_of_parse {target : Target} {e : Extension} (huse : target.useBootImage = true)
    (hparse : Template.parse target e = .ok t) (hboot : t.boot = some boot)
    (hspace : ∀ s ∈ boot.segments, s.address.toNat + s.data.length ≤ 2 ^ 32)
    (hapart : boot.segments.Pairwise Segment.Apart) : t.codePadding = 0 ∧ ∃ first, HoldsBoot t boot first := by
  obtain ⟨first, hfrom⟩ := fromBoot_of_parse huse hparse hboot
  obtain ⟨offset, hoffset, hmarker⟩ := hfrom.marker
  refine ⟨hfrom.padding, first, hfrom.parsed, hfrom.readOnly, ?_, hspace, hapart, ?_⟩
  · rw [hoffset]
    exact hmarker
  · intro hstop
    rw [hfrom.start, hstop, alignUp_zero]

/-- A program that is linked into a boot image of at most 255 segments is found in it together with the template. -/
theorem holdsProgram_of_link {target : Target} {e : Extension} (huse : target.useBootImage = true)
    (hparse : Template.parse target e = .ok t) (hboot : t.boot = some boot)
    (hspace : ∀ s ∈ boot.segments, s.address.toNat + s.data.length ≤ 2 ^ 32)
    (hapart : boot.segments.Pairwise Segment.Apart) (hlink : link t name state words short uf2 = .ok image)
    (hprogram : ObjectHeader.replaceIn t (payload t state.commSize words).toBytes = .ok program) {laid : List Segment}
    (hlaid : padSegments (updateReadOnly (extendReadOnly t t.markerOffset.toNat program) boot.segments) headerSize =
      .ok laid) (hfew : laid.length ≤ 255) :
    ∃ first file parsed, boot.readOnly? = some first ∧ bootMarker <+: first.data.drop t.markerOffset.toNat ∧
      image = .binary file ∧ BootImage.parse file = .ok parsed ∧ HoldsProgram t boot first program parsed := by
  obtain ⟨hpadding, first, h⟩ := holdsBoot_of_parse huse hparse hboot hspace hapart
  obtain ⟨hlength, file, parsed, himage, hparsed, hperm⟩ :=
    perm_memory_of_link h hboot hpadding hlink hprogram hlaid hfew
  have hcovers : ∀ {a b}, Covers parsed.segments a b ↔
      Covers (boot.segments.map (enlarged t program first)) a b :=
    mem_flatMap_memory.symm.trans (hperm.mem_iff.trans mem_flatMap_memory)
  have hfound : ∀ {s a b}, s ∈ boot.segments → (a, b) ∈ (enlarged t program first s).memory →
      Covers parsed.segments a b := fun hs hmem => hcovers.2 ⟨_, List.mem_map_of_mem hs, hmem⟩
  refine ⟨first, file, parsed, h.readOnly, h.marker, himage, hparsed, ?_, ?_, ?_, ?_⟩
  · exact fun i b hbyte => hfound h.mem (mem_memory_enlarged_program h hbyte)
  · exact fun i b hbyte => hfound h.mem (mem_memory_enlarged_of_patched h program (getElem?_patched_marker h hbyte))
  · exact fun s hs i b hbyte hother =>
      hfound hs (mem_memory_enlarged_of_patched h program (getElem?_patched_of_other h hbyte hother))
  · rw [← agree_iff h hlength]
    simp only [Agree, hcovers]

/-! ## Two templates -/

/-- A target with boot images and small pages. -/
def bootTarget : Target := { pagedTarget 0 with nativeType := "vm", pageSize := 0x40, useBootImage := true }

/-- An extension whose template is a boot image in base64. -/
def bootExtension (text : String) : Extension := { bareExtension [] with hex := [text] }

/-- Read-only data with the marker in front. -/
def markedSegment : Segment := ⟨0x3F400020, true, true, bootMarker ++ [0, 0, 0]⟩

/-- An image with such a segment and another one. -/
def markedImage (other : Segment) : BootImage :=
  ⟨magic :: 2 :: List.replicate 22 0, "esp32", [markedSegment, other]⟩

/-- The template of such an image. -/
def markedTemplate (other : Segment) : Template where
  sha := "0123456789abcdef"
  codeStart := 0x3F400040
  codeStartPadded := 0x3F400040
  commBase := 0x20000000
  boot := some (markedImage other)
  markerOffset := 0
  target := bootTarget

/-- The program of the word one, with its size in its slot. -/
def wordProgram : Bytes := 1 :: List.replicate 33 0 ++ 1 :: List.replicate 7 0

theorem replaceIn_wordProgram (other : Segment) :
    ObjectHeader.replaceIn (markedTemplate other) (payload (markedTemplate other) 0 [1]).toBytes = .ok wordProgram := by
  have hbytes : (payload (markedTemplate other) 0 [1]).toBytes = wordProgram := by cbv
  rw [hbytes]
  cbv

/-- The read-only data with the program behind it. -/
def markedData : Segment :=
  ⟨0x3F400020, true, true, [0x40, 0x00, 0x40, 0x3F] ++ List.replicate 28 0 ++ wordProgram ++ [0, 0]⟩

theorem segments_marked (other : Segment) :
    updateReadOnly (extendReadOnly (markedTemplate other) (markedTemplate other).markerOffset.toNat wordProgram)
      (markedImage other).segments = [markedData, other] := by
  cbv

/-- The program can be linked wherever the image can be laid out. -/
theorem exists_link_marked {other : Segment} {laid : List Segment}
    (hlaid : padSegments [markedData, other] headerSize = .ok laid) :
    ∃ image, link (markedTemplate other) "" {} [1] false false = .ok image := by
  have hheader : ∃ header, programHeader (markedTemplate other) = .ok header := by
    have hsame : programHeader (markedTemplate other) = programHeader (markedTemplate (.zeros 0)) := rfl
    rw [hsame]
    exact exists_of_isOk (by decide +kernel)
  obtain ⟨header, hheader⟩ := hheader
  have hfirst : (markedImage other).readOnly? = some markedSegment := rfl
  have hwrap : wrap64 (0 + bootMarker.length) ≤ markedSegment.data.length := by decide
  have hstart : ¬ 0x3F400040 < markedSegment.stop := by decide
  rw [link_boot_eq rfl (by decide) hheader, linkBoot_eq (replaceIn_wordProgram other) hfirst (Int.le_refl 0)
    (Nat.le_add_right 17 3) hwrap hstart, segments_marked, serialize_eq rfl, hlaid]
  exact ⟨_, rfl⟩

/-- A segment that is loaded elsewhere, and the text of the image that has it. -/
def awaySegment : Segment := ⟨0x3FFB0000, false, false, [1, 2, 3, 4]⟩

def awayText : String :=
  "6QIAAAAAAAAAAAAAAAAAAAAAAAAAAAAAIABAPxQAAAABCAEIQkJCQgEIAQg+2OmNVgAAAAAA+z8EAAAAAQIDBA=="

theorem padSegments_away : padSegments [markedData, awaySegment] headerSize = .ok [markedData, awaySegment] := by
  have hsorted : byAddress [markedData, awaySegment] = [markedData, awaySegment] := mergeSort_of_pairwise (by decide)
  rw [padSegments, Layout.ofSegments, hsorted]
  cbv

theorem holdsProgram_of_link_away :
    ∃ (t : Template) (boot : BootImage) (first : Segment) (file : Bytes) (parsed : BootImage),
      Template.parse bootTarget (bootExtension awayText) = .ok t ∧ t.boot = some boot ∧
      link t "" {} [1] false false = .ok (.binary file) ∧ BootImage.parse file = .ok parsed ∧
      HoldsProgram t boot first wordProgram parsed ∧ Agree parsed.segments := by
  have hread : (Template.parse bootTarget (bootExtension awayText)).toOption.map id =
      some (markedTemplate awaySegment) := by decide +kernel
  obtain ⟨t, hparse, rfl⟩ := exists_of_map_toOption hread
  obtain ⟨image, hlink⟩ := exists_link_marked padSegments_away
  have hlaid := padSegments_away
  rw [← segments_marked] at hlaid
  obtain ⟨first, file, parsed, hfirst, -, rfl, hparsed, hholds⟩ := holdsProgram_of_link rfl hparse rfl (by decide)
    (by decide) hlink (replaceIn_wordProgram _) hlaid (by decide)
  refine ⟨_, _, first, file, parsed, hparse, rfl, hlink, hparsed, hholds, hholds.agrees.2 ?_⟩
  obtain rfl : markedSegment = first := Option.some.inj hfirst
  -- as a test of lists, for a quantifier over addresses would be decided by trying them all
  have hclear : ∀ s ∈ [markedSegment, awaySegment], ∀ u ∈ [markedSegment, awaySegment], s ≠ u →
      ((added (markedTemplate awaySegment) wordProgram markedSegment s).all fun p =>
        (enlarged (markedTemplate awaySegment) wordProgram markedSegment u).memory.all fun q => p.1 != q.1) = true := by
    decide +kernel
  intro s hs u hu hne a b c hb hc
  have hother := List.all_eq_true.1 (List.all_eq_true.1 (hclear s hs u hu hne) (a, b) hb) (a, c) hc
  exact absurd rfl (bne_iff_ne.1 hother)

/-- A segment that starts where the program goes, and the text of the image that has it. -/
def closeSegment : Segment := ⟨0x3F400040, true, true, List.replicate 4 0xFF⟩

def closeText : String :=
  "6QIAAAAAAAAAAAAAAAAAAAAAAAAAAAAAIABAPxQAAAABCAEIQkJCQgEIAQg+2OmNVgAAAEAAQD8EAAAA/////w=="

/-- In the file the segment stands a page behind the program. -/
theorem padSegments_close :
    padSegments [markedData, closeSegment] headerSize = .ok [markedData, .zeros 65476, closeSegment] := by
  have hsorted : byAddress [markedData, closeSegment] = [markedData, closeSegment] := mergeSort_of_pairwise (by decide)
  have hfirst : Layout.step ⟨[markedData, closeSegment], [], 24, []⟩ = .ok ⟨[closeSegment], [], 108, [markedData]⟩ := by
    cbv
  have hneeded : paddingNeeded closeSegment 108 = 65476 := by decide
  have hzeros : Layout.step ⟨[closeSegment], [], 108, [markedData]⟩ =
      .ok ⟨[closeSegment], [], 65592, [.zeros 65476, markedData]⟩ := by
    rw [Layout.step_eq_fill (by rw [hneeded]; decide), hneeded]
    have hlength : (Segment.zeros 65476).data.length = 65476 := length_replicate
    show Layout.place _ (Segment.zeros 65476) [closeSegment] [] = _
    rw [Layout.place_eq, hlength]
    rfl
  have hlast : Layout.step ⟨[closeSegment], [], 65592, [.zeros 65476, markedData]⟩ =
      .ok ⟨[], [], 65604, [closeSegment, .zeros 65476, markedData]⟩ := by
    rw [Layout.step_eq_place (by decide), if_pos (by decide), Layout.place_eq]
    rfl
  have hstart : Layout.ofSegments [markedData, closeSegment] headerSize = ⟨[markedData, closeSegment], [], 24, []⟩ := by
    rw [Layout.ofSegments, hsorted]
    cbv
  have hreach : Layout.Reaches ⟨[markedData, closeSegment], [], 24, []⟩
      ⟨[], [], 65604, [closeSegment, .zeros 65476, markedData]⟩ :=
    .step (cons_ne_nil _ _) hfirst <| .step (cons_ne_nil _ _) hzeros <|
      .step (cons_ne_nil _ _) hlast (.refl _)
  rw [padSegments, hstart, hreach.run_eq, Layout.run_of_nil rfl]
  rfl

/-- Linking succeeds where the program and a segment of the template have different bytes for an address. -/
theorem link_conflicting :
    ∃ (t : Template) (boot : BootImage) (laid : List Segment) (file : Bytes) (parsed : BootImage),
      bootTarget.useBootImage = true ∧ bootTarget.pageSize.toNat = 2 ^ 6 ∧
      Template.parse bootTarget (bootExtension closeText) = .ok t ∧ t.boot = some boot ∧
      (∀ s ∈ boot.segments, s.address.toNat + s.data.length ≤ 2 ^ 32) ∧ boot.segments.Pairwise Segment.Apart ∧
      padSegments (updateReadOnly (extendReadOnly t t.markerOffset.toNat wordProgram) boot.segments) headerSize =
        .ok laid ∧ laid.length ≤ 255 ∧ link t "" {} [1] false false = .ok (.binary file) ∧
      BootImage.parse file = .ok parsed ∧ ¬ Agree parsed.segments := by
  have hread : (Template.parse bootTarget (bootExtension closeText)).toOption.map id =
      some (markedTemplate closeSegment) := by decide +kernel
  obtain ⟨t, hparse, rfl⟩ := exists_of_map_toOption hread
  have hspace : ∀ s ∈ (markedImage closeSegment).segments, s.address.toNat + s.data.length ≤ 2 ^ 32 := by decide
  have hapart : (markedImage closeSegment).segments.Pairwise Segment.Apart := by decide
  obtain ⟨hpadding, first, h⟩ := holdsBoot_of_parse rfl hparse rfl hspace hapart
  obtain rfl : markedSegment = first := Option.some.inj h.readOnly
  obtain ⟨image, hlink⟩ := exists_link_marked padSegments_close
  have hlaid := padSegments_close
  rw [← segments_marked] at hlaid
  obtain ⟨-, file, parsed, rfl, hparsed, hperm⟩ :=
    perm_memory_of_link h rfl hpadding hlink (replaceIn_wordProgram _) hlaid (by decide)
  refine ⟨_, _, _, file, parsed, rfl, rfl, hparse, rfl, hspace, hapart, hlaid, by decide, hlink, hparsed, ?_⟩
  have hcovers : ∀ {s a b}, s ∈ (markedImage closeSegment).segments →
      (a, b) ∈ (enlarged (markedTemplate closeSegment) wordProgram markedSegment s).memory →
      Covers parsed.segments a b :=
    fun hs hmem => mem_flatMap_memory.1 (hperm.mem_iff.2 (List.mem_flatMap.2 ⟨_, List.mem_map_of_mem hs, hmem⟩))
  have hprogram : Covers parsed.segments 0x3F400040 1 :=
    hcovers h.mem (mem_memory_enlarged_program h (rfl : wordProgram[0]? = some 1))
  have hother : Covers parsed.segments 0x3F400040 0xFF := by
    have hmem : closeSegment ∈ (markedImage closeSegment).segments := List.mem_cons_of_mem _ (List.mem_singleton.2 rfl)
    have hne : closeSegment ≠ markedSegment := by decide
    exact hcovers hmem (mem_memory_enlarged_of_patched h wordProgram
      (getElem?_patched_of_other h (rfl : closeSegment.data[0]? = some 0xFF) fun heq => absurd heq hne))
  exact fun hagree => absurd (hagree _ _ _ hprogram hother) (by decide)

end Image
end Firmware
