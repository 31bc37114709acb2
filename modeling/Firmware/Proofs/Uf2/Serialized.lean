import Firmware.Proofs.Uf2.Pages
import Mathlib.Data.List.Induction

/-!
# Block files that are read back

A serialized block file consists of one block for each page, which reads back with what the page has in it
(`parse_serialize`). So the blocks of a file have the bytes of its pages (`byteAt?_parse_serialize`).
-/

namespace Firmware
namespace Uf2

open BlockFile List

variable {f : BlockFile} {p : Page}

/-- Whether the payload of a block goes to an address. -/
def Block.Spans (b : Block) (a : UInt32) : Prop := (a - b.address).toNat < b.payload.toNat

instance (b : Block) (a : UInt32) : Decidable (b.Spans a) := inferInstanceAs (Decidable (_ < _))

/-- The byte that a block has for an address. -/
def Block.byteAt? (b : Block) (a : UInt32) : Option UInt8 := b.data[(a - b.address).toNat]?

/-- Whether a block has the address and the bytes of a page. -/
structure Block.Shows (b : Block) (p : Page) : Prop where
  address : b.address = p.number <<< 8
  payload : b.payload = payloadSize.toUInt32
  data : b.data = p.data

/-! ## One block -/

theorem length_encodePage (h : p.data.length = payloadSize) (total index : Nat) :
    (encodePage total index p).length = blockSize := by
  unfold encodePage
  rw [length_append, length_append, length_append, h, Bytes.length_resize]
  rfl

/-- What is read from the block of a page. The word behind the numbers stands for the size of a file or for a family,
and for both where both flags are set. -/
def blockOf (total index : Nat) (p : Page) : Block :=
  let isFile := p.flags &&& flagFile != 0
  { flags := p.flags
    address := p.number <<< 8
    payload := payloadSize.toUInt32
    number := index.toUInt32
    total := total.toUInt32
    fileSize := if isFile then p.word else 0
    family := if p.flags &&& flagFamily != 0 then p.word else 0
    fileName :=
      if isFile then
        (p.fileName.resize (blockSize - 4 - (payloadOffset + payloadSize)) 0 ++ Bytes.ofWord32 magicEnd).takeWhile
          (· != 0)
      else []
    data := p.data }

/-- The block of a page reads back. -/
theorem parse?_encodePage (h : p.data.length = payloadSize) (total index : Nat) :
    Block.parse? (encodePage total index p) = some (blockOf total index p) := by
  let ws : List UInt32 := [magicStart0, magicStart1, p.flags, p.number <<< 8, payloadSize.toUInt32, index.toUInt32,
    total.toUInt32, p.word]
  let name := p.fileName.resize (blockSize - 4 - (payloadOffset + payloadSize)) 0
  have hlength : name.length = blockSize - 4 - (payloadOffset + payloadSize) := Bytes.length_resize ..
  have hfields : encodePage total index p =
      ws.flatMap Bytes.ofWord32 ++ (p.data ++ (name ++ Bytes.ofWord32 magicEnd)) := by
    simp only [encodePage, ws, name, append_assoc]
  -- eight words, the payload, a name and the last word: each field is found behind those in front of it
  have hlead : (ws.flatMap Bytes.ofWord32).length = payloadOffset := rfl
  have hend : Bytes.word32At (encodePage total index p) (blockSize - 4) = magicEnd := by
    have hfront : (ws.flatMap Bytes.ofWord32 ++ (p.data ++ name)).length = blockSize - 4 := by
      rw [length_append, length_append, hlead, h, hlength]
      rfl
    have hsplit : encodePage total index p =
        (ws.flatMap Bytes.ofWord32 ++ (p.data ++ name)) ++ (Bytes.ofWord32 magicEnd ++ []) := by
      rw [hfields]
      simp only [append_assoc, append_nil]
    rw [hsplit]
    exact Bytes.word32At_append hfront magicEnd []
  have hword : ∀ {i : Nat} {w : UInt32}, ws[i]? = some w → Bytes.word32At (encodePage total index p) (4 * i) = w := by
    intro i w hi
    rw [hfields]
    exact Bytes.word32At_flatMap ws _ hi
  have hpayload : (encodePage total index p).drop payloadOffset = p.data ++ (name ++ Bytes.ofWord32 magicEnd) := by
    rw [hfields, drop_left' hlead]
  have hname : (encodePage total index p).drop (payloadOffset + payloadSize) = name ++ Bytes.ofWord32 magicEnd := by
    rw [← drop_drop, hpayload, drop_left' h]
  have hmagic : Block.parse? (encodePage total index p) = some (Block.ofBytes (encodePage total index p)) := by
    unfold Block.parse?
    rw [length_encodePage h, hend, (hword (i := 0) rfl : Bytes.word32At _ 0 = magicStart0),
      (hword (i := 1) rfl : Bytes.word32At _ 4 = magicStart1)]
    rfl
  rw [hmagic]
  have hstated : (if largestPayload < payloadSize.toUInt32.toNat then payloadSize.toUInt32 else payloadSize.toUInt32) =
      payloadSize.toUInt32 := rfl
  have hsize : payloadSize.toUInt32.toNat = payloadSize := rfl
  unfold Block.ofBytes blockOf
  dsimp only
  rw [(hword (i := 2) rfl : Bytes.word32At _ 8 = p.flags), (hword (i := 3) rfl : Bytes.word32At _ 12 = p.number <<< 8),
    (hword (i := 4) rfl : Bytes.word32At _ 16 = payloadSize.toUInt32),
    (hword (i := 5) rfl : Bytes.word32At _ 20 = index.toUInt32),
    (hword (i := 6) rfl : Bytes.word32At _ 24 = total.toUInt32), (hword (i := 7) rfl : Bytes.word32At _ 28 = p.word),
    hstated, hsize, hpayload, hname, take_left' h]

/-! ## All blocks -/

theorem exists_of_mem_finalPages (hp : p ∈ f.finalPages) : ∃ q ∈ f.pages, q.number = p.number ∧ q.data = p.data := by
  unfold finalPages at hp
  split at hp
  · exact ⟨p, hp, rfl, rfl⟩
  · obtain ⟨q, hq, rfl⟩ := mem_map.1 hp
    exact ⟨q, hq, rfl, rfl⟩

theorem exists_mem_finalPages (hp : p ∈ f.pages) : ∃ q ∈ f.finalPages, q.number = p.number ∧ q.data = p.data := by
  unfold finalPages
  split
  · exact ⟨p, hp, rfl, rfl⟩
  · exact ⟨_, mem_map.2 ⟨p, hp, rfl⟩, rfl, rfl⟩

theorem BlockFile.Sound.size_finalPages (h : f.Sound) (hp : p ∈ f.finalPages) : p.data.length = payloadSize := by
  obtain ⟨q, hq, -, hdata⟩ := exists_of_mem_finalPages hp
  rw [← hdata]
  exact h.size q hq

theorem parse_serialize_of_size (h : ∀ p ∈ f.finalPages, p.data.length = payloadSize) :
    parse f.serialize = f.finalPages.mapIdx (blockOf f.finalPages.length) := by
  have hlength : ∀ c ∈ f.finalPages.mapIdx (encodePage f.finalPages.length), c.length = blockSize := by
    intro c hc
    obtain ⟨i, hi, rfl⟩ := mem_mapIdx.1 hc
    exact length_encodePage (h _ (getElem_mem hi)) ..
  -- blocks have one size, so cutting the file into rows gives them back
  unfold parse serialize
  rw [Bytes.rows_flatten (by decide) hlength]
  generalize f.finalPages.length = total
  generalize hpages : f.finalPages = pages at h
  clear hpages hlength
  induction pages using List.reverseRecOn with
  | nil => rfl
  | append_singleton pages p ih =>
    rw [mapIdx_concat, mapIdx_concat, filterMap_append, ih fun q hq => h q (mem_append_left _ hq), filterMap_cons,
      parse?_encodePage (h p (by simp))]
    rfl

/-- A serialized file has one block for each page, in their order. -/
theorem parse_serialize (h : f.Sound) : parse f.serialize = f.finalPages.mapIdx (blockOf f.finalPages.length) :=
  parse_serialize_of_size fun _ hp => h.size_finalPages hp

theorem shows_blockOf (total index : Nat) (p : Page) : (blockOf total index p).Shows p := ⟨rfl, rfl, rfl⟩

/-- Every block of a serialized file shows one of its pages. -/
theorem exists_page_of_mem_parse (h : f.Sound) {b : Block} (hb : b ∈ parse f.serialize) : ∃ p ∈ f.pages, b.Shows p := by
  rw [parse_serialize h] at hb
  obtain ⟨i, hi, rfl⟩ := mem_mapIdx.1 hb
  have hshows := shows_blockOf f.finalPages.length i f.finalPages[i]
  obtain ⟨p, hp, hnumber, hdata⟩ := exists_of_mem_finalPages (getElem_mem hi)
  exact ⟨p, hp, by rw [hshows.address, ← hnumber], hshows.payload, by rw [hshows.data, ← hdata]⟩

/-- Every page of a file has a block. -/
theorem exists_mem_parse_of_page (h : f.Sound) (hp : p ∈ f.pages) : ∃ b ∈ parse f.serialize, b.Shows p := by
  obtain ⟨q, hq, hnumber, hdata⟩ := exists_mem_finalPages hp
  obtain ⟨i, hi, rfl⟩ := getElem_of_mem hq
  have hshows := shows_blockOf f.finalPages.length i f.finalPages[i]
  rw [parse_serialize h]
  refine ⟨_, mem_mapIdx.2 ⟨i, hi, rfl⟩, ?_, hshows.payload, ?_⟩
  · rw [hshows.address, hnumber]
  · rw [hshows.data, hdata]

/-! ## Bytes -/

/-- A block that shows a page has the bytes of the file there. -/
theorem byteAt?_of_shows (h : f.Sound) (hp : p ∈ f.pages) {b : Block} (hb : b.Shows p) (a : UInt32) :
    (b.Spans a ↔ pageOf a = p.number) ∧ (b.Spans a → b.byteAt? a = f.byteAt? a) := by
  have hbound := h.bound p hp
  have haddress : b.address.toNat = p.number.toNat * 256 := by
    rw [hb.address, h.toNat_pageStart hp]
  have hpayload : b.payload.toNat = 256 := by
    rw [hb.payload]
    rfl
  have ha := a.toNat_lt
  have hspans : b.Spans a ↔ pageOf a = p.number := by
    unfold Block.Spans
    rw [hpayload, toNat_sub_address, haddress, ← UInt32.toNat_inj, toNat_pageOf]
    split <;> omega
  refine ⟨hspans, fun hin => ?_⟩
  have hpage := hspans.1 hin
  have hfind : f.find? (pageOf a) = some p := by
    rw [hpage]
    exact h.find?_number hp
  have hoffset : (a - b.address).toNat = pageOffset a := by
    rw [← UInt32.toNat_inj, toNat_pageOf] at hpage
    rw [toNat_sub_address, haddress, pageOffset_eq, if_pos (by omega)]
    omega
  unfold Block.byteAt? BlockFile.byteAt?
  rw [hfind, hoffset, hb.data]
  rfl

/-- **Reading back.** A block of a serialized file has the bytes of the file, and what the file has is in a
block. -/
theorem byteAt?_parse_serialize (h : f.Sound) {a : UInt32} {v : UInt8} (ha : f.byteAt? a = some v) :
    (∃ b ∈ parse f.serialize, b.Spans a) ∧ ∀ b ∈ parse f.serialize, b.Spans a → b.byteAt? a = some v := by
  constructor
  · obtain ⟨p, hfind, -⟩ := Option.bind_eq_some_iff.1 ha
    have hp := mem_of_find?_eq_some hfind
    have hnumber : p.number = pageOf a := by
      have hfound := find?_some hfind
      simpa using hfound
    obtain ⟨b, hb, hshows⟩ := exists_mem_parse_of_page h hp
    exact ⟨b, hb, (byteAt?_of_shows h hp hshows a).1.2 hnumber.symm⟩
  · intro b hb hspans
    obtain ⟨p, hp, hshows⟩ := exists_page_of_mem_parse h hb
    rw [(byteAt?_of_shows h hp hshows a).2 hspans, ha]

end Uf2
end Firmware
