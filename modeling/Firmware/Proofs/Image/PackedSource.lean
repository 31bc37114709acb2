import Firmware.Proofs.Build.Leftovers
import Firmware.Proofs.Image.Header
import Firmware.Proofs.Image.Rewriting

/-!
# Recovering packed source

Packed source that is kept out of flash goes into records of a type of its own, behind a record that sets the upper half
of their addresses. `packedContents` puts the data of such records where they say, and `Source.unpack?` reads packed
source from there by its two lengths. The lower half of an address has 16 bits, and the records of packed source do not
set the upper half again, so rows behind the first 64 KB come around to where the first ones are. The source is
recovered exactly if it fits in front of that (`run_unpack`).
-/

namespace Firmware

open List Option

/-! ## Reading memory -/

namespace Journal

variable {j : Journal}

/-- The `n` bytes from an address on, if all of them were written. -/
def bytesFrom? (j : Journal) : UInt32 → Nat → Option Bytes
  | _, 0 => some []
  | a, n + 1 => do
    let b ← j.byteAt? a
    let rest ← bytesFrom? j (a + 1) n
    return b :: rest

theorem add_toUInt32_succ (a : UInt32) (k : Nat) : a + (k + 1).toUInt32 = a + 1 + k.toUInt32 := by
  rw [Nat.add_comm, UInt32.add_assoc]
  congr 1
  exact UInt32.ofNat_add ..

theorem bytesFrom?_of_forall {a : UInt32} {n : Nat} {b : Bytes} (hlength : b.length = n)
    (h : ∀ k < n, j.byteAt? (a + k.toUInt32) = b[k]?) : j.bytesFrom? a n = some b := by
  induction n generalizing a b with
  | zero =>
    rw [eq_nil_of_length_eq_zero hlength]
    rfl
  | succ n ih =>
    obtain ⟨x, rest, rfl⟩ := exists_cons_of_length_eq_add_one hlength
    have hfirst := h 0 (by omega)
    have hrest : j.bytesFrom? (a + 1) n = some rest := by
      refine ih (by simpa using hlength) fun k hk => ?_
      rw [← add_toUInt32_succ, h (k + 1) (by omega), getElem?_cons_succ]
    have hzero : a + (0 : Nat).toUInt32 = a := UInt32.add_zero a
    rw [hzero] at hfirst
    rw [bytesFrom?, hfirst, hrest]
    rfl

theorem of_bytesFrom? {a : UInt32} {n : Nat} {b : Bytes} (h : j.bytesFrom? a n = some b) :
    b.length = n ∧ ∀ k < n, j.byteAt? (a + k.toUInt32) ≠ none := by
  induction n generalizing a b with
  | zero =>
    obtain rfl := Option.some.inj h
    exact ⟨rfl, fun k hk => absurd hk (Nat.not_lt_zero k)⟩
  | succ n ih =>
    obtain ⟨x, hx, h⟩ := bind_eq_some_iff.1 h
    obtain ⟨rest, hrest, h⟩ := bind_eq_some_iff.1 h
    obtain rfl := Option.some.inj h
    obtain ⟨hlength, hbytes⟩ := ih hrest
    refine ⟨by rw [length_cons, hlength], fun k hk => ?_⟩
    cases k with
    | zero =>
      have hzero : a + (0 : Nat).toUInt32 = a := UInt32.add_zero a
      rw [hzero, hx]
      exact some_ne_none x
    | succ k =>
      rw [add_toUInt32_succ]
      exact hbytes k (by omega)

end Journal

/-! ## Records of packed source -/

namespace IntelHex

/-- What records of packed source put where; a record that sets a base holds for all that follow. -/
def Record.packedJournal (base : UInt32) : List Record → Journal
  | [] => []
  | r :: rest =>
    (if r.type = packedSourceType then [⟨base + r.address.toUInt32, r.data⟩] else []) ++
      packedJournal (r.base?.getD base) rest

/-- What the records of packed source among lines put where. -/
def packedContents (lines : List String) : Journal :=
  Record.packedJournal 0 (lines.filterMap fun line => (Record.parse line).toOption)

/-- Whether a line is a record of packed source. -/
def HoldsSource (line : String) : Prop := ∃ r, Record.parse line = .ok r ∧ r.type = packedSourceType

theorem Record.packedJournal_append (base : UInt32) (rs qs : List Record) :
    packedJournal base (rs ++ qs) = packedJournal base rs ++ packedJournal (baseAfter base rs) qs := by
  induction rs generalizing base with
  | nil => rfl
  | cons r rest ih => rw [cons_append, packedJournal, packedJournal, baseAfter, ih, append_assoc]

theorem Record.packedJournal_eq_nil {rs : List Record} (h : ∀ r ∈ rs, r.type ≠ packedSourceType) (base : UInt32) :
    packedJournal base rs = [] := by
  induction rs generalizing base with
  | nil => rfl
  | cons r rest ih =>
    obtain ⟨hr, hrest⟩ := forall_mem_cons.1 h
    rw [packedJournal, if_neg hr, ih hrest]
    rfl

/-- Lines that hold no packed source put nothing anywhere. -/
theorem packedJournal_of_lines {lines : List String} (h : ∀ line ∈ lines, ¬ HoldsSource line) (base : UInt32) :
    Record.packedJournal base (lines.filterMap fun line => (Record.parse line).toOption) = [] := by
  apply Record.packedJournal_eq_nil
  intro r hr htype
  obtain ⟨line, hline, hparse⟩ := mem_filterMap.1 hr
  refine h line hline ⟨r, ?_, htype⟩
  cases hrecord : Record.parse line with
  | error f =>
    rw [hrecord] at hparse
    exact nomatch hparse
  | ok r' =>
    rw [hrecord] at hparse
    rw [Option.some.inj hparse]

theorem holdsSource_line (e : Entry) : HoldsSource e.line ↔ e.type = packedSourceType := by
  unfold HoldsSource
  rw [Entry.parse_line]
  constructor
  · rintro ⟨r, hr, htype⟩
    obtain rfl := Except.ok.inj hr
    exact htype
  · exact fun htype => ⟨e.record, rfl, htype⟩

theorem not_holdsSource_data (address : UInt16) {data : Bytes} (h : data.length < 256) :
    ¬ HoldsSource (renderRecord dataType address data) := by
  rw [← Entry.line_ofData address data h, holdsSource_line]
  exact (by decide : dataType ≠ packedSourceType)

theorem not_holdsSource_linear (upper : UInt32) : ¬ HoldsSource (linearRecord upper) := by
  rw [← Entry.line_ofUpper, holdsSource_line]
  exact (by decide : linearType ≠ packedSourceType)

/-- Data that is written over does not become packed source. -/
theorem Rewritten.not_holdsSource {line line' : String} (h : Rewritten line line') (hline : ¬ HoldsSource line) :
    ¬ HoldsSource line' := by
  cases h with
  | same => exact hline
  | data b b' hbytes hdata hlength hhead =>
    rintro ⟨r, hr, htype⟩
    have hthird := type_of_parse hr (bytes_render b')
    have hheld := Rewritten.holdsData_append hdata hlength hhead (-(Bytes.sum b'))
    unfold holdsData at hheld
    rw [hthird, htype, Bool.and_eq_true] at hheld
    exact absurd hheld.2 (by decide)

theorem Rewritten.forall_not_holdsSource {lines lines' : List String} (h : List.Forall₂ Rewritten lines lines')
    (hlines : ∀ line ∈ lines, ¬ HoldsSource line) : ∀ line ∈ lines', ¬ HoldsSource line := by
  induction h with
  | nil => exact hlines
  | cons hline hrest ih =>
    obtain ⟨hfirst, hlines⟩ := forall_mem_cons.1 hlines
    exact forall_mem_cons.2 ⟨hline.not_holdsSource hfirst, ih hlines⟩

/-- A line that ends a file is no record of packed source. -/
theorem not_holdsSource_of_isEnd {line : String} (h : isEnd line = true) : ¬ HoldsSource line := by
  rintro ⟨r, hr, htype⟩
  obtain ⟨b, hbytes, -⟩ := exists_of_bind_eq_ok hr
  have hthird := type_of_parse hr hbytes
  rw [type_of_isEnd h hbytes, htype] at hthird
  exact absurd (Option.some.inj hthird) (by decide : endType ≠ packedSourceType)

end IntelHex

namespace Source

open IntelHex

/-- Where packed source starts. -/
def packedAddress : UInt32 := 0x20000000

/-- Reads packed source: the bytes of its description and its blob, by the two lengths behind the magic. -/
def unpack? (j : Journal) : Option (Bytes × Bytes) := do
  let head ← j.bytesFrom? packedAddress 16
  if packedMagic.isPrefixOf head then
    let description := (Bytes.word16 (head.drop 8)).toNat
    let blob := (Bytes.word16 (head.drop 10)).toNat
    let rest ← j.bytesFrom? (packedAddress + 16) (description + blob)
    return (rest.take description, rest.drop description)
  else none

theorem word16_ofWord16 (w : UInt16) (rest : Bytes) : Bytes.word16 (Bytes.ofWord16 w ++ rest) = w := by
  show w.toUInt8.toUInt16 ||| ((w >>> 8).toUInt8.toUInt16 <<< 8) = w
  rw [UInt16.or_comm, join_bytes16]

/-- What stands in front of the description. -/
def packedHead (description blob : Nat) : Bytes :=
  packedMagic ++ (Bytes.ofWord16 description.toUInt16 ++ (Bytes.ofWord16 blob.toUInt16 ++ [0, 0, 0, 0]))

theorem length_packedHead (description blob : Nat) : (packedHead description blob).length = 16 := rfl

theorem pack_eq (description : String) (blob : Bytes) :
    ∃ pad, pack description blob = packedHead (Utf8.encode description).length blob.length ++
        (Utf8.encode description ++ blob ++ pad) ∧
      (pack description blob).length = (16 + (Utf8.encode description).length + blob.length + 1) / 2 * 2 := by
  have hlength : (packedMagic ++ Bytes.ofWord16 (Utf8.encode description).length.toUInt16 ++
      Bytes.ofWord16 blob.length.toUInt16 ++ [0, 0, 0, 0] ++ Utf8.encode description ++ blob).length =
        16 + (Utf8.encode description).length + blob.length := by
    simp only [packedMagic, Bytes.ofWord16, length_append, length_cons, length_nil]
  unfold pack
  dsimp only
  split
  next hodd =>
    have hodd := beq_iff_eq.1 hodd
    refine ⟨[0], by simp [packedHead], ?_⟩
    rw [length_append, hlength, length_cons, length_nil]
    omega
  next heven =>
    have heven : ¬ _ = 1 := fun h => heven (beq_iff_eq.2 h)
    refine ⟨[], by simp [packedHead], ?_⟩
    rw [hlength]
    omega

/-- Packed source is read from memory that has it, if its lengths fit into 16 bits. -/
theorem unpack?_of_memory {j : Journal} {m blob rest : Bytes} (hm : m.length < 65536) (hblob : blob.length < 65536)
    (h : ∀ k < 16 + (m.length + blob.length),
      j.byteAt? (packedAddress + k.toUInt32) = (packedHead m.length blob.length ++ (m ++ blob ++ rest))[k]?) :
    unpack? j = some (m, blob) := by
  have hhead : j.bytesFrom? packedAddress 16 = some (packedHead m.length blob.length) := by
    refine Journal.bytesFrom?_of_forall rfl fun k hk => ?_
    rw [h k (by omega), getElem?_append_left hk]
  have hbody : j.bytesFrom? (packedAddress + 16) (m.length + blob.length) = some (m ++ blob) := by
    refine Journal.bytesFrom?_of_forall (length_append ..) fun k hk => ?_
    have haddress : packedAddress + 16 + k.toUInt32 = packedAddress + (16 + k).toUInt32 := by
      rw [UInt32.add_assoc]
      congr 1
      exact (UInt32.ofNat_add 16 k).symm
    rw [haddress, h (16 + k) (by omega), getElem?_append_right (by rw [length_packedHead]; omega),
      length_packedHead, Nat.add_sub_cancel_left, getElem?_append_left (by rw [length_append]; exact hk)]
  have hdescription : (Bytes.word16 ((packedHead m.length blob.length).drop 8)).toNat = m.length := by
    show (Bytes.word16 (Bytes.ofWord16 m.length.toUInt16 ++ _)).toNat = _
    rw [word16_ofWord16]
    exact UInt16.toNat_ofNat_of_lt' hm
  have hlength : (Bytes.word16 ((packedHead m.length blob.length).drop 10)).toNat = blob.length := by
    show (Bytes.word16 (Bytes.ofWord16 blob.length.toUInt16 ++ _)).toNat = _
    rw [word16_ofWord16]
    exact UInt16.toNat_ofNat_of_lt' hblob
  have hmagic : packedMagic.isPrefixOf (packedHead m.length blob.length) = true :=
    List.isPrefixOf_iff_prefix.2 (List.prefix_append ..)
  unfold unpack?
  simp only [hhead, bind_eq_bind, bind_some, hmagic, if_true, hdescription, hlength, hbody]
  rw [take_left, drop_left]
  rfl

/-- All of what is read was written. -/
theorem of_unpack? {j : Journal} {m blob : Bytes} (h : unpack? j = some (m, blob)) :
    ∀ k < m.length + blob.length, j.byteAt? (packedAddress + 16 + k.toUInt32) ≠ none := by
  obtain ⟨head, -, h⟩ := bind_eq_some_iff.1 h
  split at h
  next =>
    obtain ⟨rest, hrest, h⟩ := bind_eq_some_iff.1 h
    obtain ⟨hlength, hbytes⟩ := Journal.of_bytesFrom? hrest
    obtain ⟨rfl, rfl⟩ := Prod.mk.inj (Option.some.inj h)
    rw [← length_append, take_append_drop, hlength]
    exact hbytes
  next => exact nomatch h

end Source

/-! ## The lines of packed source -/

namespace Image

open IntelHex IntelHex.Entry Source

/-- The record of a row of packed source. -/
def sourceEntry (i : Nat) (row : Bytes) : Entry where
  type := packedSourceType
  address := (16 * i).toUInt16
  data := Bytes.resize row 16 0
  length_lt := by
    rw [Bytes.length_resize]
    decide
  address_eq := fun htype => absurd htype (by decide)

/-- The records of packed source. -/
def sourceEntries (source : Bytes) : List Entry :=
  ofUpper packedSourceUpper :: (Bytes.rows 16 source).mapIdx sourceEntry

theorem packedSourceRecords_eq (source : Bytes) : packedSourceRecords source = (sourceEntries source).map line := by
  refine congrArg (List.cons _) (ext_getElem? fun i => ?_)
  rw [getElem?_map, getElem?_mapIdx, getElem?_mapIdx, Option.map_map]
  rfl

theorem isEnd_of_mem_packedSourceRecords {source : Bytes} :
    ∀ line ∈ packedSourceRecords source, isEnd line = false := by
  rw [packedSourceRecords_eq]
  intro line hline
  obtain ⟨e, he, rfl⟩ := mem_map.1 hline
  rw [isEnd_line, decide_eq_false_iff_not]
  rintro ⟨htype, -⟩
  obtain rfl | he := mem_cons.1 he
  · exact absurd htype (by decide : linearType ≠ endType)
  · obtain ⟨i, hi, rfl⟩ := mem_mapIdx.1 he
    exact absurd htype (by decide : packedSourceType ≠ endType)

/-- The rows of packed source, where the 16 bits of their addresses put them. -/
def sourceRows (source : Bytes) : Journal :=
  (Bytes.rows 16 source).mapIdx fun i row =>
    ⟨packedAddress + (16 * i).toUInt16.toUInt32, Bytes.resize row 16 0⟩

theorem packedJournal_sourceEntries (base : UInt32) (source : Bytes) :
    Record.packedJournal base ((sourceEntries source).map record) = sourceRows source := by
  -- a record of packed source leaves the base alone
  have hrows : ∀ es : List Entry, (∀ e ∈ es, e.type = packedSourceType) →
      Record.packedJournal packedAddress (es.map record) =
        es.map fun e => (⟨packedAddress + e.address.toUInt32, e.data⟩ : Write) := by
    intro es hes
    induction es with
    | nil => rfl
    | cons e rest ih =>
      obtain ⟨he, hrest⟩ := forall_mem_cons.1 hes
      have hbase : e.record.base? = none := by
        unfold Record.base?
        show (if e.data.length = 2 then if e.type = segmentType then _ else if e.type = linearType then _ else _
          else _) = _
        rw [he]
        split <;> rfl
      rw [map_cons, Record.packedJournal, hbase, getD_none, ih hrest, if_pos (show e.record.type = _ from he)]
      rfl
  have htypes : ∀ e ∈ (Bytes.rows 16 source).mapIdx sourceEntry, e.type = packedSourceType := by
    intro e he
    obtain ⟨i, hi, rfl⟩ := mem_mapIdx.1 he
    rfl
  have hupper : (ofUpper packedSourceUpper).record.base? = some packedAddress := base?_ofUpper (by decide)
  unfold sourceEntries
  rw [map_cons, Record.packedJournal, hupper, getD_some, hrows _ htypes]
  refine ext_getElem? fun i => ?_
  unfold sourceRows
  rw [if_neg (by decide : (ofUpper packedSourceUpper).record.type ≠ packedSourceType), nil_append,
    getElem?_map, getElem?_mapIdx, getElem?_mapIdx, Option.map_map]
  rfl

/-- Rows in the first 64 KB are where they belong. -/
theorem byteAt?_sourceRows {source : Bytes} (h : source.length ≤ 65536) {k : Nat} (hk : k < (wholeRows source).length) :
    (sourceRows source).byteAt? (packedAddress + k.toUInt32) = (wholeRows source)[k]? := by
  have hrows : sourceRows source = rowJournal (byteRows packedAddress source) := by
    have hlength := length_byteRows packedAddress source
    rw [byteRows, length_mapIdx] at hlength
    refine ext_getElem? fun i => ?_
    rw [sourceRows, rowJournal, byteRows, getElem?_map, getElem?_mapIdx, getElem?_mapIdx, Option.map_map]
    by_cases hi : i < (Bytes.rows 16 source).length
    · have hoffset : (16 * i).toUInt16.toUInt32 = (16 * i).toUInt32 := by
        apply UInt32.toNat_inj.1
        rw [UInt16.toNat_toUInt32, UInt16.toNat_ofNat_of_lt' (by show _ < 65536; omega),
          UInt32.toNat_ofNat_of_lt' (by show _ < 4294967296; omega)]
      rw [getElem?_eq_getElem hi, map_some, map_some, hoffset]
      rfl
    · rw [getElem?_eq_none (Nat.not_lt.1 hi)]
      rfl
  have hwhole := length_wholeRows source
  have hdistance : packedAddress + k.toUInt32 - packedAddress = k.toUInt32 := by
    rw [UInt32.add_comm, UInt32.add_sub_cancel]
  rw [hrows, byteAt?_rowJournal packedAddress (by omega), Write.byteAt?, hdistance,
    UInt32.toNat_ofNat_of_lt' (by show _ < 4294967296; omega)]

/-- No row reaches behind the first 64 KB. -/
theorem byteAt?_sourceRows_end (source : Bytes) : (sourceRows source).byteAt? (packedAddress + 65536) = none := by
  apply Journal.byteAt?_eq_none
  intro w hw
  obtain ⟨i, hi, rfl⟩ := mem_mapIdx.1 hw
  have haddress : (packedAddress + (16 * i).toUInt16.toUInt32).toNat = 0x20000000 + 16 * i % 65536 := by
    rw [UInt32.toNat_add, UInt16.toNat_toUInt32]
    show (0x20000000 + 16 * i % 65536) % 4294967296 = _
    omega
  have hstop : Write.stop ⟨packedAddress + (16 * i).toUInt16.toUInt32, Bytes.resize ((Bytes.rows 16 source)[i]) 16 0⟩ =
      0x20000000 + 16 * i % 65536 + 16 := by
    rw [Write.stop, haddress, Bytes.length_resize]
  refine Write.byteAt?_eq_none (by rw [hstop]; omega) (.inr ?_)
  rw [hstop]
  show _ ≤ 0x20010000
  omega

theorem packedContents_append (front : List String) (source : Bytes) {back : List String}
    (hback : ∀ line ∈ back, isEnd line = true) :
    packedContents (front ++ packedSourceRecords source ++ back) = packedContents front ++ sourceRows source := by
  unfold packedContents
  rw [filterMap_append, filterMap_append, Record.packedJournal_append, Record.packedJournal_append,
    packedSourceRecords_eq, records_map_line, packedJournal_sourceEntries,
    packedJournal_of_lines fun line hline => not_holdsSource_of_isEnd (hback line hline), append_nil]

/-- Packed source of at most 64 KB is read back, whatever was there before. -/
theorem unpack?_of_le {description : String} {blob : Bytes}
    (h : 16 + (Utf8.encode description).length + blob.length ≤ 65536) (j : Journal) :
    unpack? (j ++ sourceRows (pack description blob)) = some (Utf8.encode description, blob) := by
  obtain ⟨pad, hpack, hlength⟩ := pack_eq description blob
  have hrows := length_wholeRows (pack description blob)
  have hmemory : ∀ k < 16 + ((Utf8.encode description).length + blob.length),
      (j ++ sourceRows (pack description blob)).byteAt? (packedAddress + k.toUInt32) =
        (packedHead (Utf8.encode description).length blob.length ++ (Utf8.encode description ++ blob ++ pad))[k]? := by
    intro k hk
    have hin : k < (pack description blob).length := by omega
    rw [Journal.byteAt?_append, byteAt?_sourceRows (by omega) (by omega), wholeRows, getElem?_append_left hin,
      ← hpack, getElem?_eq_getElem hin, some_or]
  exact unpack?_of_memory (by omega) (by omega) hmemory

/-- Packed source is read back exactly if it has at most 64 KB: behind that nothing is written. -/
theorem unpack?_sourceRows (description : String) (blob : Bytes) :
    unpack? (sourceRows (pack description blob)) = some (Utf8.encode description, blob) ↔
      16 + (Utf8.encode description).length + blob.length ≤ 65536 := by
  refine ⟨fun h => Nat.not_lt.1 fun hlong => ?_, fun h => unpack?_of_le h []⟩
  exact of_unpack? h 65520 (by omega) (byteAt?_sourceRows_end _)

/-! ## Images with packed source -/

section Lines

variable {t : Template} {s : BuildState} {source : Bytes}

/-- Packed source stands at the end of the lines, but for a line that ends the file. -/
theorem wrapRecords_packed (hpacked : s.packedSource = some source) (lines : List String) :
    ∃ front back, wrapRecords t s lines = front ++ packedSourceRecords source ++ back ∧
      (∀ line ∈ back, isEnd line = true) ∧
      ∀ line ∈ front, line ∈ lines ∨
        line ∈ (s.checksumBlock.map (checksumRecords t.target.flashChecksumAddress)).getD [] := by
  have hblock : ∃ lines', (∀ line ∈ lines', line ∈ lines ∨
        line ∈ (s.checksumBlock.map (checksumRecords t.target.flashChecksumAddress)).getD []) ∧
      wrapRecords t s lines = if t.target.moveHexEnd then moveEnd (lines' ++ packedSourceRecords source)
        else lines' ++ packedSourceRecords source := by
    unfold wrapRecords
    rw [hpacked]
    cases s.checksumBlock with
    | none => exact ⟨lines, fun line hline => .inl hline, rfl⟩
    | some block =>
      refine ⟨_, fun line hline => ?_, rfl⟩
      simp only [insertBeforeEnd, mem_append] at hline
      obtain (hline | hline) | hline := hline
      · exact .inl ((takeWhile_sublist _).mem hline)
      · exact .inr hline
      · exact .inl ((dropWhile_sublist _).mem hline)
  obtain ⟨lines', hlines', heq⟩ := hblock
  rw [heq]
  by_cases hmove : t.target.moveHexEnd = true
  · rw [if_pos hmove]
    -- the first line that ends the file goes behind the packed source, if there is one
    obtain hnone | ⟨before, last, behind, rfl, hbefore, hlast⟩ := exists_end_or_none lines'
    · refine ⟨lines', [], ?_, fun line hline => absurd hline not_mem_nil, hlines'⟩
      have hall : ∀ line ∈ lines' ++ packedSourceRecords source, isEnd line = false :=
        forall_isEnd_append hnone isEnd_of_mem_packedSourceRecords
      simpa [moveEnd] using moveEnd_of_none hall []
    · refine ⟨before ++ behind, [last], ?_, fun line hline => ?_, fun line hline => ?_⟩
      · rw [append_assoc, cons_append, moveEnd_of_end hbefore hlast]
        simp only [append_assoc]
      · rw [mem_singleton.1 hline]
        exact hlast
      · apply hlines'
        obtain hline | hline := mem_append.1 hline
        · exact mem_append_left _ hline
        · exact mem_append_right _ (mem_cons_of_mem _ hline)
  · rw [if_neg hmove]
    exact ⟨lines', [], (append_nil _).symm, fun line hline => absurd hline not_mem_nil, hlines'⟩

/-! What else goes into an image holds no packed source, if the template holds none. -/

theorem not_holdsSource_rowRecordsOnto {rows : List (UInt32 × Bytes)} (hrows : ∀ row ∈ rows, row.2.length < 256)
    (upper : UInt32) {acc : List String} (hacc : ∀ line ∈ acc, ¬ HoldsSource line) :
    ∀ line ∈ rowRecordsOnto upper acc rows, ¬ HoldsSource line := by
  induction rows generalizing upper acc with
  | nil =>
    intro line hline
    exact hacc line (mem_reverse.1 hline)
  | cons row rest ih =>
    obtain ⟨hrow, hrest⟩ := forall_mem_cons.1 hrows
    have hrecord := not_holdsSource_data row.1.toUInt16 hrow
    unfold rowRecordsOnto
    dsimp only
    split
    · exact ih hrest _ (forall_mem_cons.2 ⟨hrecord, hacc⟩)
    · exact ih hrest _
        (forall_mem_cons.2 ⟨hrecord, forall_mem_cons.2 ⟨not_holdsSource_linear _, hacc⟩⟩)

theorem not_holdsSource_programRecords (address : UInt32) (words : Words) :
    ∀ line ∈ programRecords address words, ¬ HoldsSource line := by
  refine not_holdsSource_rowRecordsOnto (fun row hrow => ?_) _ (fun line hline => absurd hline not_mem_nil)
  rw [length_of_mem_byteRows hrow]
  decide

theorem not_holdsSource_checksumRecords (address : UInt32) (block : Words) :
    ∀ line ∈ checksumRecords address block, ¬ HoldsSource line := by
  refine forall_mem_cons.2 ⟨not_holdsSource_linear _, fun line hline => ?_⟩
  obtain ⟨i, hi, rfl⟩ := mem_mapIdx.1 hline
  apply not_holdsSource_data
  have hrow := getElem?_eq_getElem hi
  rw [Bytes.getElem?_rows (by decide)] at hrow
  split at hrow
  · rw [← Option.some.inj hrow, length_take]
    omega
  · exact nomatch hrow

theorem not_holdsSource_leadingRecords {header : Bytes} {row : Nat} {lines leading : List String}
    (hheader : header.length < 256) (hshort : Short lines) (hlines : ∀ line ∈ lines, ¬ HoldsSource line)
    (h : leadingRecords t header row lines = .ok leading) : ∀ line ∈ leading, ¬ HoldsSource line := by
  obtain ⟨lines', hreplace, h⟩ := exists_of_bind_eq_ok h
  have hrewritten := ObjectHeader.replaceInLines_rewritten hshort hreplace
  split at h
  next =>
    obtain rfl := Except.ok.inj h
    intro line hline
    obtain hline | rfl := mem_or_eq_of_mem_set hline
    · exact Rewritten.forall_not_holdsSource hrewritten hlines line hline
    · exact not_holdsSource_data _ hheader
  next => exact nomatch h

/-- An image has the packed source of the state, and besides it only what the template has. -/
theorem packedContents_of_link {name : String} {words : Words} {image : Image} (hlines : HasLines t)
    (hpacked : s.packedSource = some source) (hlink : link t name s words false false = .ok image) :
    ∃ lines j, image = .records lines ∧ packedContents lines = j ++ sourceRows source ∧
      (Short t.lines → (∀ line ∈ t.lines, ¬ HoldsSource line) → j = []) := by
  obtain ⟨header, leading, hheader, hleading, hall⟩ := link_leading hlines hlink
  obtain ⟨front, back, hwrap, hback, hfront⟩ := wrapRecords_packed (t := t) hpacked
    (leading ++ programRecords t.codeStart (payload t s.commSize words) ++ t.lines.drop t.codeStartLine.toNat)
  refine ⟨front ++ packedSourceRecords source ++ back, packedContents front, ?_,
    packedContents_append front source hback, fun hshort hnone => packedJournal_of_lines (fun line hline => ?_) 0⟩
  · rw [← hwrap]
    exact Except.ok.inj (hlink.symm.trans (hall s))
  · obtain hline | hline := hfront line hline
    · obtain hline | hline := mem_append.1 hline
      · obtain hline | hline := mem_append.1 hline
        · refine not_holdsSource_leadingRecords (by rw [length_programHeader hheader]; decide) (fun line hline => ?_)
            (fun line hline => ?_) hleading line hline
          · exact hshort line (mem_of_mem_take hline)
          · exact hnone line (mem_of_mem_take hline)
        · exact not_holdsSource_programRecords _ _ line hline
      · exact hnone line (mem_of_mem_drop hline)
    · cases hblock : s.checksumBlock with
      | none =>
        rw [hblock] at hline
        exact absurd hline not_mem_nil
      | some block =>
        rw [hblock] at hline
        exact not_holdsSource_checksumRecords _ _ line hline

end Lines

end Image

/-! ## Builds that keep source out of flash -/

namespace Build

open IntelHex

variable {t : Template} {p : Program} {s : BuildState} {blob : Bytes}

/-- Whether a program's source is kept, but not in flash. -/
structure KeepsOut (t : Target) (p : Program) (blob : Bytes) : Prop where
  embedSource : p.embedSource = some blob
  large : t.noSourceInFlash = true ∨ Source.largestInFlash ≤ (Source.pack p.embedMeta blob).length

theorem packedSource_of_prepare (h : KeepsOut t.target p blob) {source : Bytes} {s' : BuildState}
    (hprepare : prepare t p s = (.ok source, s')) : s'.packedSource = some (Source.pack p.embedMeta blob) := by
  have hembed : ∀ s, embedSource t.target p s =
      ("", { s with packedSource := some (Source.pack p.embedMeta blob) }) := by
    have hlarge : ¬ (!t.target.noSourceInFlash && decide ((Source.pack p.embedMeta blob).length <
        Source.largestInFlash)) = true := by
      rw [Bool.and_eq_true, decide_eq_true_iff]
      rintro ⟨hnot, hsmall⟩
      obtain hset | hlarge := h.large
      · rw [hset] at hnot
        exact nomatch hnot
      · exact Nat.not_lt.2 hlarge hsmall
    intro s
    unfold embedSource
    rw [h.embedSource]
    dsimp only
    rw [if_neg hlarge]
  unfold prepare at hprepare
  dsimp only at hprepare
  split at hprepare
  next => exact nomatch (Prod.mk.inj hprepare).1
  next text htext =>
    rw [hembed] at hprepare
    dsimp only at hprepare
    split at hprepare
    · rw [← (Prod.mk.inj hprepare).2]
    · rw [← (Prod.mk.inj hprepare).2]

/-- A build that keeps source out of flash links with a state that has it. -/
theorem exists_link_of_run {f : Assembler Id} (h : KeepsOut t.target p blob) {r : BuildResult}
    (hrun : (run f t p s).1 = .ok r) :
    ∃ s' words, s'.packedSource = some (Source.pack p.embedMeta blob) ∧
      Image.link t p.name s' words false t.target.useUf2 = .ok r.image := by
  unfold run at hrun
  split at hrun
  next => exact nomatch hrun
  next source s' hprepare =>
    have hpacked := packedSource_of_prepare h hprepare
    cases hassemble : f source t with
    | error e =>
      simp only [hassemble] at hrun
      exact nomatch hrun
    | ok a =>
      simp only [hassemble] at hrun
      obtain ⟨e, hfinish⟩ | ⟨words, block, hfinish⟩ := finish_cases t p source a
      · exact nomatch (hfinish s').symm.trans hrun
      · obtain ⟨image, hlink, rfl⟩ := exists_of_map_eq_ok ((hfinish s').symm.trans hrun)
        refine ⟨_, words, ?_, hlink⟩
        exact hpacked

/-- A build that keeps source out of flash puts it into record lines, and the template puts nothing else there unless it
holds packed source itself. -/
theorem packedContents_of_run {f : Assembler Id} {r : BuildResult} (hlines : Image.HasLines t)
    (huf2 : t.target.useUf2 = false) (hkeeps : KeepsOut t.target p blob) (hrun : (run f t p s).1 = .ok r) :
    ∃ lines j, r.image = .records lines ∧ packedContents lines = j ++ Image.sourceRows (Source.pack p.embedMeta blob) ∧
      (Short t.lines → (∀ line ∈ t.lines, ¬ HoldsSource line) → j = []) := by
  obtain ⟨s', words, hpacked, hlink⟩ := exists_link_of_run hkeeps hrun
  rw [huf2] at hlink
  exact Image.packedContents_of_link hlines hpacked hlink

/-- **Packed source in record lines.** Source that a build keeps out of flash is recovered from the record lines of the
image if it has at most 64 KB with what stands in front of it. If it has more, it is not, unless the template holds
packed source too. -/
theorem run_unpack {f : Assembler Id} {r : BuildResult} (hlines : Image.HasLines t) (huf2 : t.target.useUf2 = false)
    (hkeeps : KeepsOut t.target p blob) (hrun : (run f t p s).1 = .ok r) :
    ∃ lines, r.image = .records lines ∧
      (16 + (Utf8.encode p.embedMeta).length + blob.length ≤ 65536 →
        Source.unpack? (packedContents lines) = some (Utf8.encode p.embedMeta, blob)) ∧
      (Short t.lines → (∀ line ∈ t.lines, ¬ HoldsSource line) →
        65536 < 16 + (Utf8.encode p.embedMeta).length + blob.length →
        Source.unpack? (packedContents lines) ≠ some (Utf8.encode p.embedMeta, blob)) := by
  obtain ⟨lines, j, himage, hcontents, hnone⟩ := packedContents_of_run hlines huf2 hkeeps hrun
  refine ⟨lines, himage, fun hle => ?_, fun hshort htemplate hlong hunpack => ?_⟩
  · rw [hcontents]
    exact Image.unpack?_of_le hle j
  · rw [hcontents, hnone hshort htemplate, List.nil_append] at hunpack
    exact Nat.not_lt.2 ((Image.unpack?_sourceRows _ _).1 hunpack) hlong

/-- A target that keeps all source out of flash. -/
def keepingTarget : Target := { Template.pagedTarget 0x1011C with noSourceInFlash := true, moveHexEnd := true }

theorem run_unpack_small :
    ∃ (t : Template) (r : BuildResult) (lines : List String),
      Template.parse keepingTarget (Template.bareExtension Template.splitFile) = .ok t ∧
      (run wordAssembler t { embedMeta := "é", embedSource := some [7, 8, 9] } {}).1 = .ok r ∧
      r.image = .records lines ∧ Source.unpack? (packedContents lines) = some ([0xC3, 0xA9], [7, 8, 9]) := by
  have hread : (Template.parse keepingTarget (Template.bareExtension Template.splitFile)).toOption.map (fun t =>
        (t.boot, t.isVm, t.blob, t.target.useUf2, t.target.noSourceInFlash,
          (run wordAssembler t { embedMeta := "é", embedSource := some [7, 8, 9] } {}).1.isOk)) =
      some (none, false, none, false, true, true) := by decide +kernel
  obtain ⟨t, hparse, hfacts⟩ := exists_of_map_toOption hread
  simp only [Prod.mk.injEq] at hfacts
  obtain ⟨hboot, hvm, hblob, huf2, hout, hok⟩ := hfacts
  obtain ⟨r, hrun⟩ := exists_of_isOk hok
  obtain ⟨lines, himage, hunpack, -⟩ := run_unpack ⟨hboot, hvm, hblob⟩ huf2 ⟨rfl, .inl hout⟩ hrun
  exact ⟨t, r, lines, hparse, hrun, himage, hunpack (by decide)⟩

/-- A template of short lines, none of which holds packed source. -/
def isSourceFree (t : Template) : Bool :=
  t.lines.all fun line => decide ((Utf8.encode line).length ≤ largestBuffer) &&
    (Record.parse line).toOption.all fun r => r.type != packedSourceType

theorem of_isSourceFree (h : isSourceFree t = true) : Short t.lines ∧ ∀ line ∈ t.lines, ¬ HoldsSource line := by
  have hline := fun line hline => Bool.and_eq_true_iff.1 (all_eq_true.1 h line hline)
  refine ⟨fun line hmem => of_decide_eq_true (hline line hmem).1, fun line hmem => ?_⟩
  rintro ⟨r, hr, htype⟩
  have hother := (hline line hmem).2
  rw [hr] at hother
  exact bne_iff_ne.1 hother htype

/-- A program with a source of zeros that has more than 64 KB with what stands in front of it. -/
def largeProgram : Program := { embedSource := some (List.replicate 65521 0) }

/-- More than 64 KB are not recovered: the last row stands where the first one did. -/
theorem run_unpack_large :
    ∃ (t : Template) (r : BuildResult) (lines : List String),
      Template.parse { keepingTarget with moveHexEnd := false } (Template.bareExtension Template.splitFile) = .ok t ∧
      (run wordAssembler t largeProgram {}).1 = .ok r ∧
      r.image = .records lines ∧
      Source.unpack? (packedContents lines) ≠ some (Utf8.encode largeProgram.embedMeta, List.replicate 65521 0) := by
  have hread : (Template.parse { keepingTarget with moveHexEnd := false }
        (Template.bareExtension Template.splitFile)).toOption.map (fun t =>
        (t.boot, t.isVm, t.blob, t.target.useUf2, t.target.noSourceInFlash,
          isSourceFree t && (run wordAssembler t largeProgram {}).1.isOk)) =
      some (none, false, none, false, true, true) := by decide +kernel
  obtain ⟨t, hparse, hfacts⟩ := exists_of_map_toOption hread
  simp only [Prod.mk.injEq] at hfacts
  obtain ⟨hboot, hvm, hblob, huf2, hout, hok⟩ := hfacts
  obtain ⟨hfree, hok⟩ := Bool.and_eq_true_iff.1 hok
  obtain ⟨r, hrun⟩ := exists_of_isOk hok
  obtain ⟨lines, j, himage, hcontents, hnone⟩ := packedContents_of_run ⟨hboot, hvm, hblob⟩ huf2 ⟨rfl, .inl hout⟩ hrun
  refine ⟨t, r, lines, hparse, hrun, himage, fun hunpack => ?_⟩
  obtain ⟨hshort, htemplate⟩ := of_isSourceFree hfree
  rw [hcontents, hnone hshort htemplate, List.nil_append] at hunpack
  have hle := (Image.unpack?_sourceRows _ _).1 hunpack
  rw [List.length_replicate] at hle
  omega

end Build

end Firmware
