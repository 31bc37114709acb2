import Firmware.Proofs.Uf2.Pages

/-!
# Block files as memory

Reading from a block file and writing into pages that it has, byte by byte. What is read is what stands in the file, and
erased bytes where a page is missing (`Sound.read_eq`). What is written over bytes of the file takes their place, and
all others stay (`Sound.byteAt?_write`).
-/

namespace Firmware
namespace Uf2.BlockFile

open List

variable {f : BlockFile} {a : UInt32} {n d : Nat}

/-! ## Reading -/

/-- The bytes of a block file from an address on, erased ones where it has none. -/
def bytesAt (f : BlockFile) (a : UInt32) (n : Nat) : Bytes :=
  (List.range n).map fun d => (f.byteAt? (a + d.toUInt32)).getD eraseValue

theorem length_bytesAt (f : BlockFile) (a : UInt32) (n : Nat) : (f.bytesAt a n).length = n := by
  unfold bytesAt
  rw [length_map, length_range]

theorem getElem?_bytesAt (f : BlockFile) (a : UInt32) (hd : d < n) :
    (f.bytesAt a n)[d]? = some ((f.byteAt? (a + d.toUInt32)).getD eraseValue) := by
  unfold bytesAt
  rw [getElem?_map, getElem?_range hd]
  rfl

theorem bytesAt_add (f : BlockFile) (a : UInt32) (n m : Nat) :
    f.bytesAt a (n + m) = f.bytesAt a n ++ f.bytesAt (a + n.toUInt32) m := by
  unfold bytesAt
  rw [range_add, map_append, map_map]
  refine congrArg _ (map_congr_left fun d _ => ?_)
  show (f.byteAt? (a + (n + d).toUInt32)).getD _ = _
  rw [UInt32.add_assoc]
  exact congrArg (fun x => (f.byteAt? (a + x)).getD eraseValue) (UInt32.ofNat_add ..)

/-- Addresses that do not leave the page of the first one. -/
theorem pageOf_add (h : pageOffset a + d < payloadSize) :
    pageOf (a + d.toUInt32) = pageOf a ∧ pageOffset (a + d.toUInt32) = pageOffset a + d := by
  have ha := a.toNat_lt
  have hsize : payloadSize = 256 := rfl
  rw [pageOffset_eq] at h
  have hadd : (a + d.toUInt32).toNat = a.toNat + d := by
    rw [UInt32.toNat_add, UInt32.toNat_ofNat_of_lt' (by show d < 4294967296; omega)]
    omega
  rw [pageOf_eq_iff, pageOffset_eq, pageOffset_eq, hadd]
  omega

/-- A file that has a byte has its page. -/
theorem exists_page (h : (f.byteAt? a).isSome) : ∃ p, f.find? (pageOf a) = some p := by
  obtain ⟨b, hb⟩ := Option.isSome_iff_exists.1 h
  obtain ⟨p, hp, -⟩ := Option.bind_eq_some_iff.1 hb
  exact ⟨p, hp⟩

section

variable (h : f.Sound) {p : Page} (hp : f.find? (pageOf a) = some p) (hn : pageOffset a + n ≤ payloadSize)
include h hp hn

/-- What is read within one page. -/
theorem Sound.take_page : (p.data.drop (pageOffset a)).take n = f.bytesAt a n := by
  have hlength := h.size p (mem_of_find?_eq_some hp)
  refine ext_getElem? fun d => ?_
  by_cases hd : d < n
  · obtain ⟨hpage, hoffset⟩ := pageOf_add (a := a) (d := d) (by omega)
    have hlt : pageOffset a + d < p.data.length := by omega
    rw [getElem?_take_of_lt hd, getElem?_drop, getElem?_bytesAt f a hd, byteAt?, hpage, hp, hoffset,
      Option.bind_some, getElem?_eq_getElem hlt, Option.getD_some]
  · rw [getElem?_take_eq_none (by omega), getElem?_eq_none (by rw [length_bytesAt]; omega)]

theorem Sound.read_within : f.read a n = some (f.bytesAt a n) := by
  rw [read, hp]
  dsimp only
  rw [Nat.min_eq_left (by omega), if_pos (by simp), h.take_page hp hn]

end

/-- A page that is missing reads as erased. -/
theorem bytesAt_of_missing (hp : f.find? (pageOf a) = none) (hn : pageOffset a + n ≤ payloadSize) :
    f.bytesAt a n = List.replicate n eraseValue := by
  refine ext_getElem? fun d => ?_
  by_cases hd : d < n
  · obtain ⟨hpage, -⟩ := pageOf_add (a := a) (d := d) (by omega)
    rw [getElem?_bytesAt f a hd, byteAt?, hpage, hp, getElem?_replicate, if_pos hd]
    rfl
  · rw [getElem?_eq_none (by rw [length_bytesAt]; omega), getElem?_eq_none (by rw [length_replicate]; omega)]

/-- **Reading.** What is read of up to a page is what stands in the file, with erased bytes for a second page that is
missing. -/
theorem Sound.read_eq (h : f.Sound) {p : Page} (hp : f.find? (pageOf a) = some p) (hn : n ≤ payloadSize) :
    f.read a n = some (f.bytesAt a n) := by
  have hoff := pageOffset_lt a
  by_cases hfits : pageOffset a + n ≤ payloadSize
  · exact h.read_within hp hfits
  · -- what is left starts the next page
    obtain ⟨room, hroom⟩ : ∃ room, room = payloadSize - pageOffset a := ⟨_, rfl⟩
    have hsize : payloadSize = 256 := rfl
    have hnext : pageOffset (a + room.toUInt32) = 0 := by
      have ha := a.toNat_lt
      rw [pageOffset_eq] at hroom hoff ⊢
      rw [UInt32.toNat_add, UInt32.toNat_ofNat_of_lt' (by show room < 4294967296; omega)]
      omega
    have hsum : f.bytesAt a n = f.bytesAt a room ++ f.bytesAt (a + room.toUInt32) (n - room) := by
      rw [← bytesAt_add, show room + (n - room) = n by omega]
    rw [read, hp]
    dsimp only
    rw [← hroom, Nat.min_eq_right (by omega), if_neg (by simp; omega), h.take_page hp (by omega), hsum]
    cases hp' : f.find? (pageOf (a + room.toUInt32)) with
    | none =>
      rw [bytesAt_of_missing hp' (by omega), read, hp']
    | some p' => rw [h.read_within hp' (by omega)]

/-! ## Writing -/

variable {w : Write}

/-- Writing into a page that the file has. -/
theorem Sound.byteAt?_writePage_of_find? (h : f.Sound) (hw : w.InPage) {p : Page}
    (hp : f.find? (pageOf w.address) = some p) (flags a : UInt32) :
    (f.writePage w.address w.data flags).byteAt? a = (w.byteAt? a).or (f.byteAt? a) := by
  rw [byteAt?_writePage h hw]
  by_cases hpage : pageOf a = pageOf w.address
  · have hlength := h.size p (mem_of_find?_eq_some hp)
    have hlt : pageOffset a < p.data.length := hlength ▸ pageOffset_lt a
    have hbyte : f.byteAt? a = some p.data[pageOffset a] := by
      rw [byteAt?, hpage, hp, Option.bind_some, getElem?_eq_getElem hlt]
    rw [if_pos hpage, hbyte]
    cases w.byteAt? a <;> rfl
  · rw [if_neg hpage, hw.byteAt?_other hpage, Option.none_or]

theorem Sound.byteAt?_foldl_writePage (h : f.Sound) {pieces : Journal} (hpieces : ∀ w ∈ pieces, w.InPage)
    (hthere : ∀ w ∈ pieces, (f.byteAt? w.address).isSome) (flags : UInt32) :
    (pieces.foldl (fun f w => f.writePage w.address w.data flags) f).Sound ∧
      ∀ a, (pieces.foldl (fun f w => f.writePage w.address w.data flags) f).byteAt? a =
        (pieces.byteAt? a).or (f.byteAt? a) := by
  induction pieces generalizing f with
  | nil => exact ⟨h, fun a => rfl⟩
  | cons w rest ih =>
    have hw := hpieces w (mem_cons_self ..)
    obtain ⟨p, hp⟩ := exists_page (hthere w (mem_cons_self ..))
    have hbytes := h.byteAt?_writePage_of_find? hw hp flags
    have hthere' : ∀ v ∈ rest, ((f.writePage w.address w.data flags).byteAt? v.address).isSome := by
      intro v hv
      rw [hbytes, Option.isSome_or, hthere v (mem_cons_of_mem w hv), Bool.or_true]
    obtain ⟨hsound, hall⟩ := ih (h.writePage hw flags) (fun v hv => hpieces v (mem_cons_of_mem w hv)) hthere'
    refine ⟨hsound, fun a => ?_⟩
    rw [foldl_cons, hall, hbytes, Journal.byteAt?_cons, Option.or_assoc]

/-- A piece of a write starts where the write puts a byte. -/
theorem isSome_byteAt?_of_mem_pieces (hne : w.data ≠ []) (hlen : w.data.length ≤ 2 ^ 32) {v : Write}
    (hv : v ∈ pieces w) : ∃ a, pageOf a = pageOf v.address ∧ (w.byteAt? a).isSome := by
  have htouches : Journal.Touches (pieces w) v.address := ⟨v, hv, v.address, rfl, .inl rfl⟩
  obtain ⟨u, hu, a, hpage, hstart⟩ := (((pieces_spec w hlen).2 v.address).2).1 htouches
  obtain rfl := mem_singleton.1 hu
  refine ⟨a, hpage, ?_⟩
  obtain rfl | hsome := hstart
  · unfold Write.byteAt?
    rw [UInt32.sub_self, UInt32.toNat_zero, getElem?_eq_getElem (length_pos_iff.2 hne)]
    rfl
  · exact hsome

/-- **Writing.** What is written over bytes of the file takes their place, and the others stay. -/
theorem Sound.byteAt?_write (h : f.Sound) (hne : w.data ≠ []) (hlen : w.data.length ≤ 2 ^ 32)
    (hthere : ∀ a, (w.byteAt? a).isSome → (f.byteAt? a).isSome) (flags : UInt32) :
    (f.write w.address w.data flags).Sound ∧
      ∀ a, (f.write w.address w.data flags).byteAt? a = (w.byteAt? a).or (f.byteAt? a) := by
  obtain ⟨hpages, hsame⟩ := pieces_spec w hlen
  have hpieces : ∀ v ∈ pieces w, (f.byteAt? v.address).isSome := by
    intro v hv
    obtain ⟨a, hpage, hsome⟩ := isSome_byteAt?_of_mem_pieces hne hlen hv
    obtain ⟨p, hp⟩ := exists_page (hthere a hsome)
    have hlength := h.size p (mem_of_find?_eq_some hp)
    have hlt : pageOffset v.address < p.data.length := hlength ▸ pageOffset_lt v.address
    rw [byteAt?, ← hpage, hp, Option.bind_some, getElem?_eq_getElem hlt]
    rfl
  obtain ⟨hsound, hbytes⟩ := h.byteAt?_foldl_writePage hpages hpieces flags
  rw [write_eq]
  refine ⟨hsound, fun a => ?_⟩
  rw [hbytes, (hsame a).1]
  rfl

end Uf2.BlockFile
end Firmware
