import Firmware.Proofs.Uf2.Gaps

/-!
# Reading from parsed blocks

Bytes are read from parsed blocks one by one, and the block that had the last byte is asked first. That makes no
difference where blocks that cover one address have the same byte for it (`readOnto_eq`), as the blocks of a file do. A
block covers the addresses up to the end of its payload, and that end has 32 bits: for the last page of the address space
it is zero, and the block of that page covers nothing (`covers_iff_of_shows`). So what was written is read from the blocks
of a file, but for the last page, which reads as if nothing had been written there (`read_parse_writes_iff`).
-/

namespace Firmware

open Uf2 BlockFile List

namespace Uf2

variable {blocks : List Block} {a : UInt32}

/-! ## Blocks in order -/

/-- Whether blocks that cover one address have the same byte for it. -/
def Consistent (blocks : List Block) : Prop :=
  ∀ b ∈ blocks, ∀ c ∈ blocks, ∀ a, b.covers a → c.covers a → b.byteAt? a = c.byteAt? a

/-- The byte of a block for an address, zero if there is no block. -/
def byteOf (block : Option Block) (a : UInt32) : UInt8 := (block.bind (·.byteAt? a)).getD 0

/-- The byte of the first block that covers an address, zero if none does. -/
def firstByte (blocks : List Block) (a : UInt32) : UInt8 := byteOf (blocks.find? (·.covers a)) a

/-- The block that an address is read from, after another one was read from `current`. -/
def nextBlock (blocks : List Block) (current : Option Block) (a : UInt32) : Option Block :=
  match current with
  | some b => if b.covers a then some b else blocks.find? (·.covers a)
  | none => blocks.find? (·.covers a)

theorem covers_of_find? {b : Block} (h : blocks.find? (·.covers a) = some b) : b.covers a := by
  have hfound := find?_some h
  exact hfound

theorem readOnto_succ (blocks : List Block) (current : Option Block) (a : UInt32) (acc : Bytes) (n : Nat) :
    readOnto blocks current a acc (n + 1) =
      readOnto blocks (nextBlock blocks current a) (a + 1) (byteOf (nextBlock blocks current a) a :: acc) n := by
  have hbyte : (match nextBlock blocks current a with
      | some b => b.data.getD (a - b.address).toNat 0
      | none => 0) = byteOf (nextBlock blocks current a) a := by
    unfold byteOf
    cases nextBlock blocks current a with
    | none => rfl
    | some b => exact getD_eq_getElem?_getD
  rw [← hbyte]
  rfl

section

variable (h : Consistent blocks) {current : Option Block} (hcurrent : ∀ b ∈ current, b ∈ blocks) (a : UInt32)
include h hcurrent

/-- Wherever the search starts, it comes to a block of the file, with the byte of the first block that covers the
address. -/
theorem nextBlock_spec :
    (∀ b ∈ nextBlock blocks current a, b ∈ blocks) ∧ byteOf (nextBlock blocks current a) a = firstByte blocks a := by
  have hfound : ∀ b ∈ blocks.find? (·.covers a), b ∈ blocks := fun b hb => mem_of_find?_eq_some hb
  unfold nextBlock
  cases current with
  | none => exact ⟨hfound, rfl⟩
  | some b =>
    have hb := hcurrent b rfl
    by_cases hcovers : b.covers a
    · dsimp only
      rw [if_pos hcovers]
      refine ⟨fun c hc => Option.some.inj hc ▸ hb, ?_⟩
      -- the first block that covers the address may be another one
      cases hfind : blocks.find? (·.covers a) with
      | none => exact absurd hcovers (find?_eq_none.1 hfind b hb)
      | some c =>
        have hsame := h b hb c (hfound c hfind) a hcovers (covers_of_find? hfind)
        rw [firstByte, hfind, byteOf, byteOf, Option.bind_some, Option.bind_some, hsame]
    · dsimp only
      rw [if_neg hcovers]
      exact ⟨hfound, rfl⟩

/-- **Reading from blocks.** Every byte is that of the first block that covers its address. -/
theorem readOnto_eq (acc : Bytes) (n : Nat) :
    readOnto blocks current a acc n = acc.reverse ++ (List.range n).map fun i => firstByte blocks (a + i.toUInt32) := by
  -- on the number of bytes; the invariant is that the block that was asked last is one of the blocks
  induction n generalizing current a acc with
  | zero => rw [readOnto, range_zero, map_nil, append_nil]
  | succ n ih =>
    obtain ⟨hnext, hbyte⟩ := nextBlock_spec h hcurrent a
    have hstart : a + (0 : Nat).toUInt32 = a := UInt32.add_zero a
    rw [readOnto_succ, ih hnext, hbyte, reverse_cons, append_assoc, range_succ_eq_map, map_cons, map_map, hstart]
    refine congrArg (acc.reverse ++ firstByte blocks a :: ·) (map_congr_left fun i _ => ?_)
    show firstByte blocks (a + 1 + i.toUInt32) = firstByte blocks (a + (i + 1).toUInt32)
    rw [Nat.add_comm i 1, address_add]
    rfl

end

theorem read_eq (h : Consistent blocks) {n : Nat} (hn : n ≤ largestBuffer) (a : UInt32) :
    Uf2.read blocks a n = .ok ((List.range n).map fun i => firstByte blocks (a + i.toUInt32)) := by
  have hfits : (decide ((n : Int) < 0) || decide ((largestBuffer : Int) < n)) = false := by
    rw [Bool.or_eq_false_iff, decide_eq_false_iff_not, decide_eq_false_iff_not]
    omega
  unfold Uf2.read
  rw [hfits, if_neg Bool.false_ne_true, Int.toNat_natCast, readOnto_eq h (fun _ hb => absurd hb (Option.not_mem_none _))]
  rfl

/-! ## The blocks of a file -/

/-- The last page of the address space. -/
def topPage : UInt32 := 0xFFFFFF

variable {f : BlockFile}

/-- A block covers the addresses of its page, unless the page is the last one. -/
theorem covers_iff_of_shows (h : f.Sound) {p : Page} (hp : p ∈ f.pages) {b : Block} (hb : b.Shows p) (a : UInt32) :
    b.covers a ↔ pageOf a = p.number ∧ p.number ≠ topPage := by
  have hbound := h.bound p hp
  have ha := a.toNat_lt
  have haddress : b.address.toNat = p.number.toNat * 256 := by
    rw [hb.address, h.toNat_pageStart hp]
  have hstop : (b.address + b.payload).toNat = (p.number.toNat * 256 + 256) % 2 ^ 32 := by
    rw [UInt32.toNat_add, haddress, hb.payload]
    rfl
  have htop : topPage.toNat = 2 ^ 24 - 1 := rfl
  unfold Block.covers
  rw [Bool.and_eq_true, decide_eq_true_eq, decide_eq_true_eq, UInt32.le_iff_toNat_le, UInt32.lt_iff_toNat_lt, haddress,
    hstop, ← UInt32.toNat_inj, toNat_pageOf, Ne, ← UInt32.toNat_inj, htop]
  omega

theorem byteAt?_of_covers (h : f.Sound) {b : Block} (hb : b ∈ parse f.serialize) (hcovers : b.covers a) :
    pageOf a ≠ topPage ∧ b.byteAt? a = f.byteAt? a := by
  obtain ⟨p, hp, hshows⟩ := exists_page_of_mem_parse h hb
  obtain ⟨hpage, htop⟩ := (covers_iff_of_shows h hp hshows a).1 hcovers
  obtain ⟨hspans, hbyte⟩ := byteAt?_of_shows h hp hshows a
  exact ⟨hpage ▸ htop, hbyte (hspans.2 hpage)⟩

theorem consistent_parse_serialize (h : f.Sound) : Consistent (parse f.serialize) := by
  intro b hb c hc a hcovers hcovers'
  rw [(byteAt?_of_covers h hb hcovers).2, (byteAt?_of_covers h hc hcovers').2]

/-- The blocks of a file have its bytes, but for those of the last page of the address space. -/
theorem firstByte_parse_serialize (h : f.Sound) (a : UInt32) :
    firstByte (parse f.serialize) a = if pageOf a = topPage then 0 else (f.byteAt? a).getD 0 := by
  unfold firstByte
  cases hfind : (parse f.serialize).find? (·.covers a) with
  | none =>
    split
    next => rfl
    next htop =>
      cases hbyte : f.byteAt? a with
      | none => rfl
      | some v =>
        -- the byte stands in a page, whose block would cover it
        obtain ⟨⟨b, hb, hspans⟩, -⟩ := byteAt?_parse_serialize h hbyte
        obtain ⟨p, hp, hshows⟩ := exists_page_of_mem_parse h hb
        have hpage := (byteAt?_of_shows h hp hshows a).1.1 hspans
        have hcovers := (covers_iff_of_shows h hp hshows a).2 ⟨hpage, hpage ▸ htop⟩
        exact absurd hcovers (find?_eq_none.1 hfind b hb)
  | some b =>
    obtain ⟨htop, hbyte⟩ := byteAt?_of_covers h (mem_of_find?_eq_some hfind) (covers_of_find? hfind)
    rw [if_neg htop, byteOf, Option.bind_some, hbyte]

/-! ## What was written -/

/-- The byte that flash has at an address after writes, where it was erased in the pages that they need and zero
elsewhere. -/
def flashByte (ws : List FlaggedWrite) (a : UInt32) : UInt8 :=
  if pageOf a ∈ touchedPages ws then lastByte ws a else 0

section Written

variable {ws : List FlaggedWrite} (hfit : ∀ w ∈ ws, w.stop ≤ 2 ^ 32)

include hfit

theorem getD_byteAt?_named (family : UInt32) (fileName : Bytes) (a : UInt32) :
    (((named family fileName).writeFlagged ws).byteAt? a).getD 0 = flashByte ws a := by
  obtain ⟨hsound, hreflects⟩ := (records_named family fileName).writeFlagged hfit
  have hpages := mem_pageNumbers_named hfit family fileName a
  generalize (named family fileName).writeFlagged ws = f at hsound hreflects hpages
  unfold flashByte
  split
  next hpage =>
    obtain ⟨v, hv⟩ := hsound.exists_byteAt? (hpages.2 hpage)
    rw [hv]
    exact ((hreflects a v).1 hv).2.symm
  next hpage =>
    have hfind := find?_eq_none_iff.2 (mt hpages.1 hpage)
    rw [byteAt?, hfind]
    rfl

/-- What is read from the blocks of a file that was written is what flash has, but for zeros in the last page of the
address space. -/
theorem read_parse_writes (family : UInt32) (fileName : Bytes) {a : UInt32} {n : Nat} (hn : a.toNat + n ≤ 2 ^ 32) :
    ∃ b, Uf2.read (parse ((named family fileName).writeFlagged ws).serialize) a n = .ok b ∧ b.length = n ∧
      ∀ i < n, b[i]? = some
        (if pageOf (a + i.toUInt32) = topPage then 0 else flashByte ws (a + i.toUInt32)) := by
  have hsound := ((records_named family fileName).writeFlagged hfit).sound
  have hbuffer : n ≤ largestBuffer := Nat.le_trans (Nat.le_trans (Nat.le_add_left ..) hn) (by decide)
  refine ⟨_, read_eq (consistent_parse_serialize hsound) hbuffer a, by simp, fun i hi => ?_⟩
  rw [getElem?_map, getElem?_range hi, Option.map_some, firstByte_parse_serialize hsound, getD_byteAt?_named hfit]

/-- **Reading written blocks.** After writes that do not reach around the end of flash, what is read from the blocks of
the serialized file are the bytes that were written last, with erased ones in the rest of the pages that the writes need
and zeros elsewhere, but only zeros from the last page of the address space. So flash is read back exactly if it has
zeros at those addresses in the last page that are asked for. -/
theorem read_parse_writes_iff (family : UInt32) (fileName : Bytes) {a : UInt32} {n : Nat} (hn : a.toNat + n ≤ 2 ^ 32) :
    ∃ b, Uf2.read (parse ((named family fileName).writeFlagged ws).serialize) a n = .ok b ∧ b.length = n ∧
      (∀ i < n, b[i]? = some
        (if pageOf (a + i.toUInt32) = topPage then 0 else flashByte ws (a + i.toUInt32))) ∧
      ((∀ i < n, b[i]? = some (flashByte ws (a + i.toUInt32))) ↔
        ∀ i < n, pageOf (a + i.toUInt32) = topPage → flashByte ws (a + i.toUInt32) = 0) := by
  obtain ⟨b, hread, hlength, hbytes⟩ := read_parse_writes hfit family fileName hn
  refine ⟨b, hread, hlength, hbytes, forall₂_congr fun i hi => ?_⟩
  rw [hbytes i hi, Option.some.injEq, ite_eq_right_iff]
  exact imp_congr_right fun _ => eq_comm

end Written

/-- A write that reaches from one page into the next, and one to another page, with a page between them. -/
theorem read_parse_spaced :
    ∃ b, Uf2.read (parse ((named 0xe48bff56 []).writeFlagged spacedWrites).serialize) 0x1FD 0x204 = .ok b ∧
      b.length = 0x204 ∧ b[0]? = some 0xFF ∧ b[1]? = some 1 ∧ b[4]? = some 4 ∧ b[0x103]? = some 0 ∧
      b[0x203]? = some 5 := by
  have hfit : ∀ w ∈ spacedWrites, w.stop ≤ 2 ^ 32 := by decide
  obtain ⟨b, hread, hlength, hbytes, -⟩ :=
    read_parse_writes_iff hfit 0xe48bff56 [] (by decide : (0x1FD : UInt32).toNat + 0x204 ≤ 2 ^ 32)
  refine ⟨b, hread, hlength, ?_, ?_, ?_, ?_, ?_⟩
  all_goals
    rw [hbytes _ (by decide)]
    decide

/-- A byte at the end of the address space. -/
def topWrites : List FlaggedWrite := [⟨⟨0xFFFFFFFF, [7]⟩, 0⟩]

/-- It is not read from the block that has it. -/
theorem read_parse_top :
    Uf2.read (parse ((named 0 []).writeFlagged topWrites).serialize) 0xFFFFFFFF 1 = .ok [0] ∧
      pageOf 0xFFFFFFFF ∈ touchedPages topWrites ∧ lastByte topWrites 0xFFFFFFFF = 7 := by
  have hfit : ∀ w ∈ topWrites, w.stop ≤ 2 ^ 32 := by decide
  obtain ⟨b, hread, hlength, hbytes⟩ :=
    read_parse_writes hfit 0 [] (by decide : (0xFFFFFFFF : UInt32).toNat + 1 ≤ 2 ^ 32)
  obtain ⟨v, rfl⟩ := List.length_eq_one_iff.1 hlength
  obtain rfl : v = 0 := Option.some.inj (hbytes 0 (by decide))
  exact ⟨hread, by decide, by decide⟩

end Uf2
end Firmware
