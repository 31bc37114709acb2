import Firmware.Executable.Blob
import Firmware.Proofs.Bytes
import Firmware.Proofs.Template.Scan

/-!
# Programs behind a blob

A program goes behind a blob, at the next multiple of the alignment, and nothing else is changed in a flat binary. In an
executable, the first program header that is not in use is turned into one that loads the program (`patch_of_parse`).
The headers are those of the file: what reading gives is tied to the bytes of the program header table (`Describes`), so
that the place of the spare header is known to lie inside the file.
-/

open List

namespace Firmware
namespace Executable

/-! ## Fields -/

/-- A field is read from the bytes it takes. -/
theorem Field.read_take (f : Field) (order : ByteOrder) (record : Bytes) {n : Nat} (h : f.offset + f.size ≤ n) :
    f.read order (record.take n) = f.read order record := by
  have hbytes : ((record.take n).drop f.offset).take f.size = (record.drop f.offset).take f.size := by
    rw [drop_take, take_take, Nat.min_eq_left (by omega)]
  unfold Field.read Bytes.number
  rw [hbytes]

/-- What can be read at a place is what stands there; only nothing can be read outside the file. -/
theorem of_bytesAt? {file b : Bytes} {offset n : Nat} (h : bytesAt? file offset n = some b) :
    b = (file.drop offset).take n ∧ b.length = n ∧ (n ≠ 0 → offset + n ≤ file.length) := by
  unfold bytesAt? at h
  split at h
  next hzero =>
    obtain rfl := Option.some.inj h
    obtain rfl : n = 0 := beq_iff_eq.1 hzero
    exact ⟨by rw [take_zero], rfl, fun hne => absurd rfl hne⟩
  next hpos =>
    dsimp only at h
    split at h
    next hlength =>
      obtain rfl := Option.some.inj h
      have hn := beq_iff_eq.1 hlength
      refine ⟨rfl, hn, fun hne => ?_⟩
      rw [length_take, length_drop] at hn
      omega
    next => exact nomatch h

theorem of_required {α : Type} {part : Option α} {x : α} (h : required part = .ok x) : part = some x := by
  cases part with
  | none => exact nomatch h
  | some y =>
    obtain rfl := Except.ok.inj h
    rfl

/-! ## Program headers -/

/-- A program header of a 32-bit file. -/
structure ProgramHeader where
  type : Nat
  offset : Nat
  address : Nat
  fileSize : Nat
  memorySize : Nat
deriving DecidableEq, Repr

/-- The program header that stands at the start of some bytes. -/
def ProgramHeader.read (order : ByteOrder) (b : Bytes) : ProgramHeader where
  type := narrowLayout.programType.read order b
  offset := narrowLayout.programFileOffset.read order b
  address := narrowLayout.programAddress.read order b
  fileSize := narrowLayout.programFileSize.read order b
  memorySize := narrowLayout.programMemorySize.read order b

/-- Where a program header stands in the file. -/
def Header.entryAt (h : Header) (i : Nat) : Nat := h.programOffset + i * h.programEntrySize

/-- The program headers in the bytes of a file. -/
def Header.table (h : Header) (file : Bytes) : List ProgramHeader :=
  (List.range h.segments.length).map fun i => ProgramHeader.read h.order (file.drop (h.entryAt i))

/-- Whether a header is what a 32-bit file says: the place and the size of the program headers stand in the file
header, as their number does unless it does not fit there; they lie inside the file; and the segments are those of the
table. -/
structure Header.Describes (h : Header) (file : Bytes) : Prop where
  order : orderOf? (file.getD 5 0) = some h.order
  programOffset : h.programOffset = narrowLayout.programOffset.read h.order file
  programEntrySize : h.programEntrySize = narrowLayout.programEntrySize.read h.order file
  count : narrowLayout.programCount.read h.order file ≠ extended →
    h.segments.length = narrowLayout.programCount.read h.order file
  inside : ∀ i < h.segments.length, narrowLayout.programSize ≤ h.programEntrySize ∧
    h.entryAt i + h.programEntrySize ≤ file.length
  segments : h.segments = (h.table file).map fun p => ⟨p.type, p.address, p.memorySize⟩

/-- The program headers are read from the rows of the table. -/
theorem of_readSegments? {order : ByteOrder} {file : Bytes} {offset size count : Nat} {segments : List Segment}
    (h : readSegments? narrowLayout order file offset size count = some segments) :
    segments.length = count ∧ (0 < count → narrowLayout.programSize ≤ size ∧ offset + count * size ≤ file.length) ∧
      segments = (List.range count).map fun i =>
        let p := ProgramHeader.read order (file.drop (offset + i * size))
        ⟨p.type, p.address, p.memorySize⟩ := by
  unfold readSegments? at h
  split at h
  next => exact nomatch h
  next hsize =>
  obtain ⟨table, htable, h⟩ := Option.bind_eq_some_iff.1 h
  dsimp only at h
  split at h
  next =>
    obtain ⟨htable, hlength, hinside⟩ := of_bytesAt? htable
    obtain rfl := Option.some.inj h
    have hpositive : 0 < count → narrowLayout.programSize ≤ size := by
      intro hcount
      simpa [hcount] using hsize
    have hsize : 0 < count → 0 < size := fun hcount => Nat.lt_of_lt_of_le (by decide) (hpositive hcount)
    rw [Bytes.rows_of_length hlength hsize, map_map]
    refine ⟨by rw [length_map, length_range], fun hcount => ⟨hpositive hcount, ?_⟩, ?_⟩
    · exact hinside (Nat.mul_ne_zero (by omega) (Nat.ne_of_gt (hsize hcount)))
    · refine map_congr_left fun i hi => ?_
      have hi : i < count := mem_range.1 hi
      have hfits : i * size + size ≤ count * size := by
        rw [← Nat.succ_mul]
        exact Nat.mul_le_mul_right size hi
      have hrow : (table.drop (i * size)).take size = (file.drop (offset + i * size)).take size := by
        rw [htable, drop_take, take_take, drop_drop, Nat.min_eq_left (by omega)]
      have hentry := hpositive (Nat.lt_of_le_of_lt (Nat.zero_le i) hi)
      simp only [Function.comp_apply, hrow, ProgramHeader.read]
      rw [Field.read_take _ _ _ (Nat.le_trans (by decide) hentry),
        Field.read_take _ _ _ (Nat.le_trans (by decide) hentry),
        Field.read_take _ _ _ (Nat.le_trans (by decide) hentry)]
  next => exact nomatch h

namespace Counts

theorem programs_of_sectionsFrom? {l : Layout} {order : ByteOrder} {first : Bytes} {c c' : Counts}
    (h : sectionsFrom? l order first c = some c') : c'.programs = c.programs := by
  unfold sectionsFrom? at h
  split at h
  next =>
    obtain rfl := Option.some.inj h
    rfl
  dsimp only at h
  split at h
  next => exact nomatch h
  split at h
  next =>
    obtain rfl := Option.some.inj h
    rfl
  split at h
  next => exact nomatch h
  next =>
    obtain rfl := Option.some.inj h
    rfl

/-- The number of program headers is the one in the file header unless that says that it does not fit there. -/
theorem programs_of_resolve? {l : Layout} {order : ByteOrder} {file : Bytes} {offset : Nat} {c c' : Counts}
    (h : resolve? l order file offset c = some c') (hfits : c.programs ≠ extended) : c'.programs = c.programs := by
  unfold resolve? at h
  split at h
  next => exact nomatch h
  split at h
  next => exact nomatch h
  split at h
  next =>
    obtain rfl := Option.some.inj h
    rfl
  next =>
    obtain ⟨first, -, h⟩ := Option.bind_eq_some_iff.1 h
    split at h
    next => exact nomatch h
    next =>
      obtain ⟨mid, hmid, h⟩ := Option.bind_eq_some_iff.1 h
      have hprograms := programs_of_sectionsFrom? hmid
      rw [programsFrom?, if_pos (by simpa [hprograms] using hfits)] at h
      obtain rfl := Option.some.inj h
      exact hprograms

end Counts

/-- A header that was read describes its file. -/
theorem Header.describes_of_parse {file : Bytes} {h : Header} (hparse : Header.parse file = .ok h)
    (hwidth : h.width = .narrow) : h.Describes file := by
  obtain ⟨width, -, hparse⟩ := exists_of_bind_eq_ok hparse
  obtain ⟨order, horder, hparse⟩ := exists_of_bind_eq_ok hparse
  obtain ⟨first, hfirst, hparse⟩ := exists_of_bind_eq_ok hparse
  dsimp only at hparse
  split at hparse
  next => exact nomatch hparse
  next =>
  obtain ⟨counts, hcounts, hparse⟩ := exists_of_bind_eq_ok hparse
  obtain ⟨segments, hsegments, hparse⟩ := exists_of_bind_eq_ok hparse
  obtain ⟨_, -, hparse⟩ := exists_of_bind_eq_ok hparse
  obtain rfl := Except.ok.inj hparse
  obtain rfl : width = .narrow := hwidth
  obtain ⟨hlength, hinside, hsegments⟩ := of_readSegments? (of_required hsegments)
  -- the fields of the file header lie in the bytes that were taken for it
  have hread : ∀ f : Field, f.offset + f.size ≤ narrowLayout.headerSize → f.read order first = f.read order file := by
    intro f hf
    rw [(of_bytesAt? (of_required hfirst)).1, drop_zero]
    exact f.read_take order file hf
  refine ⟨of_required horder, hread _ (by decide), hread _ (by decide), fun hfits => ?_, fun i hi => ?_, ?_⟩
  · rw [← hread _ (by decide)] at hfits ⊢
    exact hlength.trans (Counts.programs_of_resolve? (of_required hcounts) hfits)
  · have hi : i < counts.programs := hlength ▸ hi
    obtain ⟨hsize, hfit⟩ := hinside (by omega)
    refine ⟨hsize, Nat.le_trans ?_ hfit⟩
    rw [Header.entryAt, Nat.add_assoc, ← Nat.succ_mul]
    exact Nat.add_le_add_left (Nat.mul_le_mul_right _ hi) _
  · rw [Header.table, map_map, hlength]
    exact hsegments

end Executable

namespace Blob

open Executable

/-! ## Memory -/

/-- Where segments end that do not reach the end of the address space. -/
theorem memoryEnd_le_iff {segments : List Segment}
    (hends : ∀ s ∈ segments, s.type = loadType → s.address + s.memorySize < 2 ^ 32) (m : Nat) :
    (memoryEnd segments).toNat ≤ m ↔ ∀ s ∈ segments, s.type = loadType → s.address + s.memorySize ≤ m := by
  -- on the segments, where `acc` is the end of those in front
  have hfold : ∀ (acc : UInt32) (loaded : List Segment), (∀ s ∈ loaded, s.address + s.memorySize < 2 ^ 32) →
      ((loaded.foldl (fun acc s => max acc (s.address + s.memorySize).toUInt32) acc).toNat ≤ m ↔
        acc.toNat ≤ m ∧ ∀ s ∈ loaded, s.address + s.memorySize ≤ m) := by
    intro acc loaded hloaded
    induction loaded generalizing acc with
    | nil => simp
    | cons s rest ih =>
      obtain ⟨hs, hrest⟩ := forall_mem_cons.1 hloaded
      have hend : (s.address + s.memorySize).toUInt32.toNat = s.address + s.memorySize := UInt32.toNat_ofNat_of_lt' hs
      have hmax : (max acc (s.address + s.memorySize).toUInt32).toNat ≤ m ↔
          acc.toNat ≤ m ∧ s.address + s.memorySize ≤ m := by
        show (if acc ≤ (s.address + s.memorySize).toUInt32 then (s.address + s.memorySize).toUInt32
          else acc).toNat ≤ m ↔ _
        by_cases hle : acc ≤ (s.address + s.memorySize).toUInt32
        · rw [if_pos hle, hend]
          have hnat := UInt32.le_iff_toNat_le.1 hle
          omega
        · rw [if_neg hle]
          have hnat : ¬ acc.toNat ≤ (s.address + s.memorySize).toUInt32.toNat :=
            fun h => hle (UInt32.le_iff_toNat_le.2 h)
          omega
      rw [foldl_cons, ih _ hrest, hmax, forall_mem_cons, and_assoc]
  unfold memoryEnd
  rw [hfold 0 _ (by simpa using hends)]
  simp

/-- The program is loaded behind all segments. -/
theorem isLeast_memoryStart {h : Header} {data : Bytes} {align : UInt32} {k : Nat} (halign : align.toNat = 2 ^ k)
    (hh : h.Describes data)
    (hends : ∀ p ∈ h.table data, p.type = loadType → p.address + p.memorySize + align.toNat < 2 ^ 32) :
    IsLeast {m | align.toNat ∣ m ∧ ∀ p ∈ h.table data, p.type = loadType → p.address + p.memorySize ≤ m}
      (alignUp (memoryEnd h.segments) align).toNat := by
  have hle : ∀ m, (memoryEnd h.segments).toNat ≤ m ↔
      ∀ p ∈ h.table data, p.type = loadType → p.address + p.memorySize ≤ m := by
    intro m
    have hsegments : ∀ s ∈ h.segments, s.type = loadType → s.address + s.memorySize < 2 ^ 32 := by
      rw [hh.segments, forall_mem_map]
      intro p hp hload
      have hend := hends p hp hload
      dsimp only
      omega
    rw [memoryEnd_le_iff hsegments, hh.segments, forall_mem_map]
  have hbound : (memoryEnd h.segments).toNat ≤ 2 ^ 32 - align.toNat := by
    refine (hle _).2 fun p hp hload => ?_
    have hend := hends p hp hload
    omega
  have hsize := align.toNat_lt
  simp only [← hle]
  exact isLeast_alignUp halign (by omega)

/-! ## Patching -/

theorem findIdx?_segments {h : Header} {data : Bytes} (hh : h.Describes data) :
    h.segments.findIdx? (·.type == nullType) = (h.table data).findIdx? (·.type == nullType) := by
  have hfind := congrArg (List.findIdx? (·.type == nullType)) hh.segments
  rwa [findIdx?_map] at hfind

theorem length_loadHeader (b : Blob) (size : UInt32) : (b.loadHeader size).length = headerSize := by
  unfold loadHeader
  cases b.order <;> rfl

/-- The header that loads a program is read again. -/
theorem read_loadHeader (b : Blob) (size : UInt32) (rest : Bytes) :
    ProgramHeader.read b.order (b.loadHeader size ++ rest) =
      ⟨loadType, b.fileStart.toNat, b.memoryStart.toNat, size.toNat, size.toNat⟩ := by
  have hword : ∀ i w, [loadType.toUInt32, b.fileStart, b.memoryStart, b.memoryStart, size, size, loadFlags, 4][i]? =
      some w → (⟨4 * i, 4⟩ : Field).read b.order (b.loadHeader size ++ rest) = w.toNat :=
    fun i w hw => Bytes.number_drop_flatMap b.order _ rest hw
  unfold ProgramHeader.read
  rw [ProgramHeader.mk.injEq]
  exact ⟨hword 0 _ rfl, hword 1 _ rfl, hword 2 _ rfl, hword 4 _ rfl, hword 5 _ rfl⟩

/-- Whether `image` has the program `prog` at `start`, behind zeros that follow the first `stop` bytes. -/
structure Extends (image prog : Bytes) (stop start : Nat) : Prop where
  length : image.length = start + prog.length
  program : image.drop start = prog
  gap : ∀ i, stop ≤ i → i < start → image[i]? = some 0

theorem extends_resize (data prog : Bytes) {start : Nat} (hstart : data.length ≤ start) :
    Extends (data.resize start 0 ++ prog) prog data.length start := by
  refine ⟨by rw [length_append, Bytes.length_resize], drop_left' (Bytes.length_resize ..), ?_⟩
  intro i hstop hi
  rw [getElem?_append_left (by rwa [Bytes.length_resize]), Bytes.resize_of_le hstart,
    getElem?_append_right hstop, getElem?_replicate, if_pos (by omega)]

/-- What is written inside the first bytes leaves the rest. -/
theorem Extends.overwrite {image prog : Bytes} {stop start off : Nat} {src : Bytes} (h : Extends image prog stop start)
    (hsrc : off + src.length ≤ stop) (hstop : stop ≤ start) : Extends (image.overwrite off src) prog stop start := by
  have hlength := h.length
  have hin : off + src.length ≤ image.length := by omega
  refine ⟨by rw [Bytes.length_overwrite hin, hlength], ?_, fun i hi hlt => ?_⟩
  · rw [← h.program]
    refine ext_getElem? fun i => ?_
    rw [getElem?_drop, getElem?_drop, Bytes.getElem?_overwrite_outside hin (by omega)]
  · rw [Bytes.getElem?_overwrite_outside hin (by omega)]
    exact h.gap i hi hlt

section Patch

variable {data prog res : Bytes} {align : UInt32} {b : Blob} {k : Nat}

/-- The place of the program is the least multiple of the alignment behind the template. -/
theorem isLeast_fileStart (halign : align.toNat = 2 ^ k) (hsize : data.length + align.toNat < 2 ^ 32) :
    IsLeast {m | align.toNat ∣ m ∧ data.length ≤ m} (alignUp data.length.toUInt32 align).toNat := by
  have hlength : data.length.toUInt32.toNat = data.length := UInt32.toNat_ofNat_of_lt' (by show _ < 4294967296; omega)
  have hleast := isLeast_alignUp (v := data.length.toUInt32) halign (by omega)
  rwa [hlength] at hleast

/-- In an executable, the first header of the table that is not in use is overwritten, and it lies inside the file. -/
theorem patch_ofHeader {h : Header} (hh : h.Describes data) (hpatch : (ofHeader h data align).patch prog = .ok res) :
    ∃ i, (h.table data).findIdx? (·.type == nullType) = some i ∧ (ofHeader h data align).spareHeader = h.entryAt i ∧
      h.entryAt i + headerSize ≤ data.length ∧
      res = (data.resize (ofHeader h data align).fileStart.toNat 0 ++ prog).overwrite (h.entryAt i)
        ((ofHeader h data align).loadHeader prog.length.toUInt32) := by
  unfold patch at hpatch
  rw [if_neg (by simp [ofHeader])] at hpatch
  have hsegments := findIdx?_segments hh
  cases hfind : (h.table data).findIdx? (·.type == nullType) with
  | none =>
    have hspare : (ofHeader h data align).spareHeader = -1 := by
      simp only [ofHeader, hsegments, hfind]
    rw [if_pos (by rw [hspare]; decide)] at hpatch
    exact nomatch hpatch
  | some i =>
    have hspare : (ofHeader h data align).spareHeader = (h.entryAt i : Nat) := by
      simp only [ofHeader, hsegments, hfind, Header.entryAt]
      push_cast
      rfl
    have hi : i < h.segments.length := by
      obtain ⟨hi, -⟩ := findIdx?_eq_some_iff_getElem.1 hfind
      simpa [Header.table] using hi
    obtain ⟨hentry, hinside⟩ := hh.inside i hi
    have hheader : headerSize ≤ h.programEntrySize := hentry
    refine ⟨i, rfl, hspare, by omega, ?_⟩
    rw [if_neg (by rw [hspare]; exact Int.not_lt.2 (Int.natCast_nonneg _)), hspare, Int.toNat_natCast] at hpatch
    dsimp only at hpatch
    split at hpatch
    next => exact (Except.ok.inj hpatch).symm
    next => exact nomatch hpatch

/-- **Programs behind a blob.** A program is put behind a blob at the least multiple of the alignment, with zeros in
between. Nothing else changes in a flat binary; in an executable, only the first program header that is not in use,
which is made to load the program behind all other segments. -/
theorem patch_of_parse (halign : align.toNat = 2 ^ k) (hsize : data.length + align.toNat < 2 ^ 32)
    (hparse : parse data align = .ok b) (hpatch : b.patch prog = .ok res) :
    IsLeast {m | align.toNat ∣ m ∧ data.length ≤ m} b.fileStart.toNat ∧
    Extends res prog data.length b.fileStart.toNat ∧
    b.isExecutable = magic.isPrefixOf data ∧
    (b.isExecutable = false → res.take data.length = data ∧ b.memoryStart = b.fileStart) ∧
    (b.isExecutable = true → ∃ h i, Header.parse data = .ok h ∧ h.Describes data ∧
      (h.table data).findIdx? (·.type == nullType) = some i ∧
      b.spareHeader = h.entryAt i ∧ h.entryAt i + headerSize ≤ data.length ∧
      (∀ j < data.length, j < h.entryAt i ∨ h.entryAt i + headerSize ≤ j → res[j]? = data[j]?) ∧
      ProgramHeader.read h.order (res.drop (h.entryAt i)) =
        ⟨loadType, b.fileStart.toNat, b.memoryStart.toNat, prog.length % 2 ^ 32, prog.length % 2 ^ 32⟩ ∧
      ((∀ p ∈ h.table data, p.type = loadType → p.address + p.memorySize + align.toNat < 2 ^ 32) →
        IsLeast {m | align.toNat ∣ m ∧ ∀ p ∈ h.table data, p.type = loadType → p.address + p.memorySize ≤ m}
          b.memoryStart.toNat)) := by
  have hstart := isLeast_fileStart halign hsize
  have hextends := extends_resize data prog hstart.1.2
  unfold parse at hparse
  split at hparse
  next hmagic =>
    split at hparse
    next => exact nomatch hparse
    obtain ⟨h, hheader, hparse⟩ := exists_of_bind_eq_ok hparse
    split at hparse
    next => exact nomatch hparse
    next hwidth =>
    obtain rfl := Except.ok.inj hparse
    have hh := Header.describes_of_parse hheader hwidth
    obtain ⟨i, hfind, hspare, hinside, rfl⟩ := patch_ofHeader hh hpatch
    have hfits := hinside
    rw [← length_loadHeader (ofHeader h data align) prog.length.toUInt32] at hfits
    have hin := Nat.le_trans hfits (hextends.length ▸ Nat.le_trans hstart.1.2 (Nat.le_add_right _ _))
    refine ⟨hstart, hextends.overwrite hfits hstart.1.2, hmagic.symm, fun hflat => (nomatch hflat), fun _ => ?_⟩
    refine ⟨h, i, hheader, hh, hfind, hspare, hinside, fun j hj hother => ?_, ?_, isLeast_memoryStart halign hh⟩
    · rw [← length_loadHeader (ofHeader h data align) prog.length.toUInt32] at hother
      refine (Bytes.getElem?_overwrite_outside hin hother).trans ?_
      rw [List.getElem?_append_left (by rw [Bytes.length_resize]; exact Nat.lt_of_lt_of_le hj hstart.1.2),
        Bytes.resize_of_le hstart.1.2, List.getElem?_append_left hj]
    · refine (congrArg _ (Bytes.drop_overwrite hin)).trans ?_
      exact read_loadHeader (ofHeader h data align) _ _
  next hflat =>
    obtain rfl := Except.ok.inj hparse
    obtain rfl := Except.ok.inj hpatch
    refine ⟨hstart, hextends, ?_, fun _ => ⟨?_, rfl⟩, fun h => nomatch h⟩
    · exact (Bool.eq_false_iff.2 hflat).symm
    · rw [Bytes.resize_of_le hstart.1.2, List.append_assoc, List.take_left]

end Patch

/-- A file with the high bytes of its words first, one segment that is loaded, and two program headers that are not in
use. -/
def spareFile : Bytes :=
  magic ++ [1, 2, 1] ++ List.replicate 9 0 ++ [0, 2, 0, 40] ++ [1, 0x8000, 52, 0, 0].flatMap (Bytes.ofWord32In .big) ++
    [0, 52, 0, 32, 0, 3, 0, 0, 0, 0, 0, 0] ++
    [1, 0, 0x8000, 0x8000, 52, 0x123, 5, 4].flatMap (Bytes.ofWord32In .big) ++ List.replicate 64 0

theorem patch_of_parse_spare :
    ∃ b res, parse spareFile 16 = .ok b ∧ b.patch [1, 2, 3] = .ok res ∧ Extends res [1, 2, 3] 148 160 ∧
      b.spareHeader = 84 ∧ (∀ j < 148, j < 84 ∨ 116 ≤ j → res[j]? = spareFile[j]?) ∧
      ProgramHeader.read .big (res.drop 84) = ⟨loadType, 160, 0x8130, 3, 3⟩ ∧
      IsLeast {m | 16 ∣ m ∧ 0x8123 ≤ m} b.memoryStart.toNat := by
  have hread : (parse spareFile 16).toOption.map (fun b => (b.isExecutable, b.fileStart, b.memoryStart, b.spareHeader,
      (b.patch [1, 2, 3]).isOk)) = some (true, 160, 0x8130, 84, true) := by decide +kernel
  have htable : (Header.parse spareFile).toOption.map (fun h => (h.order, h.table spareFile)) =
      some (.big, [⟨1, 0, 0x8000, 52, 0x123⟩, ⟨0, 0, 0, 0, 0⟩, ⟨0, 0, 0, 0, 0⟩]) := by decide +kernel
  obtain ⟨b, hparse, hfacts⟩ := exists_of_map_toOption hread
  simp only [Prod.mk.injEq] at hfacts
  obtain ⟨hexecutable, hfile, hmemory, hspare, hok⟩ := hfacts
  obtain ⟨res, hpatch⟩ := exists_of_isOk hok
  obtain ⟨-, hextends, -, -, hheader⟩ := patch_of_parse (k := 4) rfl (by decide +kernel) hparse hpatch
  obtain ⟨h, i, hh, -, -, hi, -, hsame, hload, hleast⟩ := hheader hexecutable
  obtain ⟨h', hh', hfields⟩ := exists_of_map_toOption htable
  obtain rfl := Except.ok.inj (hh.symm.trans hh')
  simp only [Prod.mk.injEq] at hfields
  obtain ⟨horder, htable⟩ := hfields
  obtain hentry : h.entryAt i = 84 := Int.ofNat.inj (hi.symm.trans hspare)
  rw [hentry] at hsame hload
  rw [horder, hfile, hmemory] at hload
  rw [hfile] at hextends
  simp only [htable] at hleast
  refine ⟨b, res, hparse, hpatch, hextends, hspare, hsame, hload, ?_⟩
  simpa [loadType] using hleast (by decide)

end Blob
end Firmware
