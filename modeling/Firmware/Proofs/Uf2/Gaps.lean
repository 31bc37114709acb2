import Firmware.Proofs.Uf2.Memory
import Firmware.Proofs.Uf2.RoundTrip

/-!
# Reading across missing pages

A block file is read page by page, and what is read behind a page is none if the next one is missing. So a missing page
ends what is read: all bytes from there on come out as erased, also those of pages that follow it (`Sound.read_eq_readable`).
What was written is read back exactly if nothing but erased bytes was written behind such a gap (`readSigned_writes_iff`).
-/

namespace Firmware

open Uf2 BlockFile List

/-- Addresses are counted on in steps. -/
theorem address_add (a : UInt32) (m n : Nat) : a + (m + n).toUInt32 = a + m.toUInt32 + n.toUInt32 := by
  rw [UInt32.add_assoc]
  exact congrArg (a + ·) (UInt32.ofNat_add m n)

namespace Uf2

/-- Whether all pages from that of an address to that of the `i`-th byte behind it are among the given ones. -/
def Unbroken (pages : List UInt32) (a : UInt32) (i : Nat) : Prop := ∀ k ≤ i, pageOf (a + k.toUInt32) ∈ pages

instance (pages : List UInt32) (a : UInt32) (i : Nat) : Decidable (Unbroken pages a i) :=
  inferInstanceAs (Decidable (∀ k ≤ i, _))

namespace BlockFile

variable {f : BlockFile} {pages : List UInt32} {a : UInt32} {i m n : Nat}

/-! ## The pages that are read -/

/-- The number of bytes from an address to the end of its page. -/
def room (a : UInt32) : Nat := payloadSize - pageOffset a

theorem pageOffset_add_room (a : UInt32) : pageOffset a + room a = payloadSize := by
  have hoff := pageOffset_lt a
  unfold room
  omega

theorem unbroken_of_lt_room (h : pageOf a ∈ pages) (hi : i < room a) : Unbroken pages a i := by
  intro k hk
  have hroom := pageOffset_add_room a
  rwa [(pageOf_add (by omega)).1]

theorem not_unbroken_of_missing (h : pageOf a ∉ pages) (i : Nat) : ¬ Unbroken pages a i := by
  intro hall
  have hfirst := hall 0 (Nat.zero_le i)
  exact h (by simpa using hfirst)

/-- Behind its first page, what is read goes on as if it started with the next one. -/
theorem unbroken_room_add (h : pageOf a ∈ pages) (i : Nat) :
    Unbroken pages a (room a + i) ↔ Unbroken pages (a + (room a).toUInt32) i := by
  constructor
  · intro hall k hk
    rw [← address_add]
    exact hall (room a + k) (by omega)
  · intro hall k hk
    by_cases hlt : k < room a
    · exact unbroken_of_lt_room h hlt k (Nat.le_refl k)
    · have hrest := hall (k - room a) (by omega)
      rwa [← address_add, show room a + (k - room a) = k by omega] at hrest

/-! ## The bytes that are read -/

/-- The bytes of a file from an address on up to a page that is missing, and erased ones from there on. -/
def readable (f : BlockFile) (a : UInt32) (n : Nat) : Bytes :=
  (List.range n).map fun i =>
    if Unbroken f.pageNumbers a i then (f.byteAt? (a + i.toUInt32)).getD eraseValue else eraseValue

theorem length_readable (f : BlockFile) (a : UInt32) (n : Nat) : (f.readable a n).length = n := by
  rw [readable, length_map, length_range]

theorem getElem?_readable (f : BlockFile) (a : UInt32) (hi : i < n) : (f.readable a n)[i]? = some
      (if Unbroken f.pageNumbers a i then (f.byteAt? (a + i.toUInt32)).getD eraseValue else eraseValue) := by
  rw [readable, getElem?_map, getElem?_range hi]
  rfl

theorem readable_of_missing (h : pageOf a ∉ f.pageNumbers) (n : Nat) :
    f.readable a n = List.replicate n eraseValue := by
  refine ext_getElem? fun i => ?_
  by_cases hi : i < n
  · rw [getElem?_readable f a hi, if_neg (not_unbroken_of_missing h i), getElem?_replicate, if_pos hi]
  · rw [getElem?_eq_none (by rw [length_readable]; omega), getElem?_eq_none (by rw [length_replicate]; omega)]

/-- Within the first page all bytes of the file are read. -/
theorem readable_of_le_room (h : pageOf a ∈ f.pageNumbers) (hn : n ≤ room a) : f.readable a n = f.bytesAt a n := by
  refine map_congr_left fun i hi => ?_
  exact if_pos (unbroken_of_lt_room h (Nat.lt_of_lt_of_le (mem_range.1 hi) hn))

theorem readable_room_add (h : pageOf a ∈ f.pageNumbers) (m : Nat) :
    f.readable a (room a + m) = f.bytesAt a (room a) ++ f.readable (a + (room a).toUInt32) m := by
  rw [← readable_of_le_room h (Nat.le_refl _)]
  unfold readable
  rw [range_add, map_append, map_map]
  refine congrArg _ (map_congr_left fun i _ => ?_)
  show (if Unbroken _ a (room a + i) then _ else _) = _
  rw [address_add]
  exact if_congr (unbroken_room_add h i) rfl rfl

/-- **Reading across pages.** What is read is what stands in the file up to the first page that is missing. -/
theorem Sound.read_eq_readable (h : f.Sound) (hp : pageOf a ∈ f.pageNumbers) (n : Nat) :
    f.read a n = some (f.readable a n) := by
  -- on the number of bytes, of which a page takes off at least one
  induction n using Nat.strongRecOn generalizing a with
  | ind n ih =>
    have hroom := pageOffset_add_room a
    have hoff := pageOffset_lt a
    cases hfind : f.find? (pageOf a) with
    | none => exact absurd hp (find?_eq_none_iff.1 hfind)
    | some p =>
      by_cases hn : n ≤ room a
      · rw [h.read_within hfind (by omega), readable_of_le_room hp hn]
      · obtain ⟨m, rfl⟩ : ∃ m, n = room a + m := ⟨n - room a, by omega⟩
        have hcount : min (room a + m) (payloadSize - pageOffset a) = room a := Nat.min_eq_right (Nat.le_add_right ..)
        rw [read, hfind]
        dsimp only
        rw [hcount, if_neg (by simp; omega), h.take_page hfind (by omega), Nat.add_sub_cancel_left,
          readable_room_add hp]
        -- a next page that is missing ends the reading, and else it goes on with what is left
        by_cases hnext : pageOf (a + (room a).toUInt32) ∈ f.pageNumbers
        · rw [ih m (by omega) hnext]
        · rw [read, find?_eq_none_iff.2 hnext, readable_of_missing hnext]

/-- Reading gives none exactly from a page that is missing, whatever length is asked for. -/
theorem Sound.readSigned_eq_none_iff (h : f.Sound) (m : Int) :
    f.readSigned a m = .ok none ↔ pageOf a ∉ f.pageNumbers := by
  unfold readSigned
  constructor
  · intro hnone hp
    rw [h.read_eq_readable hp] at hnone
    split at hnone <;> exact nomatch hnone
  · intro hp
    have hfind := find?_eq_none_iff.2 hp
    rw [read, hfind, if_neg (by simp)]

theorem Sound.readSigned_eq (h : f.Sound) (hp : pageOf a ∈ f.pageNumbers) (hn : n ≤ largestBuffer) :
    f.readSigned a n = .ok (some (f.readable a n)) := by
  unfold readSigned
  have hfits : (decide ((n : Int) < 0) || decide ((largestBuffer : Int) < n)) = false := by
    rw [Bool.or_eq_false_iff, decide_eq_false_iff_not, decide_eq_false_iff_not]
    omega
  rw [hfits, Bool.false_and, if_neg Bool.false_ne_true, Int.toNat_natCast, h.read_eq_readable hp]

/-! ## Written files -/

/-- A file has all bytes of its pages. -/
theorem Sound.exists_byteAt? (h : f.Sound) (hp : pageOf a ∈ f.pageNumbers) : ∃ v, f.byteAt? a = some v := by
  cases hfind : f.find? (pageOf a) with
  | none => exact absurd hp (find?_eq_none_iff.1 hfind)
  | some p =>
    have hlt : pageOffset a < p.data.length := by
      rw [h.size p (mem_of_find?_eq_some hfind)]
      exact pageOffset_lt a
    exact ⟨p.data[pageOffset a], by rw [byteAt?, hfind, Option.bind_some, getElem?_eq_getElem hlt]⟩

/-- A file that reflects writes has the pages that they need. -/
theorem Records.mem_pageNumbers {j : Journal} (h : f.Records j) : pageOf a ∈ f.pageNumbers ↔ j.Touches a := by
  constructor
  · intro hp
    obtain ⟨v, hv⟩ := h.sound.exists_byteAt? hp
    exact ((h.reflects a v).1 hv).1
  · intro htouches
    by_contra hp
    obtain ⟨p, hfind⟩ := exists_page (Option.isSome_of_eq_some ((h.reflects a _).2 ⟨htouches, rfl⟩))
    exact nomatch (find?_eq_none_iff.2 hp).symm.trans hfind

/-- A new file with a name. -/
def named (family : UInt32) (fileName : Bytes) : BlockFile := { new family with fileName }

theorem records_named (family : UInt32) (fileName : Bytes) : (named family fileName).Records [] where
  sound := ⟨nodup_nil, fun _ hp => (nomatch hp), fun _ hp => (nomatch hp)⟩
  reflects := reflects_new family

end BlockFile

/-- The byte that was written last at an address, or an erased one. -/
def lastByte (ws : List FlaggedWrite) (a : UInt32) : UInt8 := ((journalOf ws).byteAt? a).getD eraseValue

section Written

variable {ws : List FlaggedWrite} (hfit : ∀ w ∈ ws, w.stop ≤ 2 ^ 32)

include hfit

theorem touches_journalOf {a : UInt32} : (journalOf ws).Touches a ↔ pageOf a ∈ touchedPages ws := by
  rw [mem_touchedPages hfit]
  simp only [Journal.Touches, Write.Touches, journalOf, mem_map, exists_exists_and_eq_and]

theorem mem_pageNumbers_named (family : UInt32) (fileName : Bytes) (a : UInt32) :
    pageOf a ∈ ((named family fileName).writeFlagged ws).pageNumbers ↔ pageOf a ∈ touchedPages ws :=
  ((records_named family fileName).writeFlagged hfit).mem_pageNumbers.trans (touches_journalOf hfit)

/-- What is read from a page that was needed: the bytes that were written last, or erased ones, up to the first page that
was not needed, and only erased ones from there on. -/
theorem readSigned_writes (family : UInt32) (fileName : Bytes) {a : UInt32} {n : Nat} (hn : a.toNat + n ≤ 2 ^ 32)
    (hp : pageOf a ∈ touchedPages ws) :
    ∃ b, ((named family fileName).writeFlagged ws).readSigned a n = .ok (some b) ∧ b.length = n ∧ ∀ i < n, b[i]? = some
        (if Unbroken (touchedPages ws) a i then lastByte ws (a + i.toUInt32) else eraseValue) := by
  obtain ⟨hsound, hreflects⟩ := (records_named family fileName).writeFlagged hfit
  have hpages := mem_pageNumbers_named hfit family fileName
  generalize (named family fileName).writeFlagged ws = f at hsound hreflects hpages
  have hbuffer : n ≤ largestBuffer := Nat.le_trans (Nat.le_trans (Nat.le_add_left ..) hn) (by decide)
  refine ⟨f.readable a n, hsound.readSigned_eq ((hpages a).2 hp) hbuffer, length_readable f a n, fun i hi => ?_⟩
  have hunbroken : Unbroken f.pageNumbers a i ↔ Unbroken (touchedPages ws) a i := forall₂_congr fun k _ => hpages _
  rw [getElem?_readable f a hi, hreflects.getD_eq]
  exact congrArg some (if_congr hunbroken rfl rfl)

/-- **Reading what was written.** After writes that do not reach around the end of flash, reading gives none exactly
from pages that they do not need. From any other page it gives as many bytes as are asked for. Up to the first page that
the writes do not need these are the bytes that were written last, or erased ones, and from there on all are erased. So
the bytes that were written last are read back exactly if only erased ones were written behind such a page. -/
theorem readSigned_writes_iff (family : UInt32) (fileName : Bytes) {a : UInt32} {n : Nat} (hn : a.toNat + n ≤ 2 ^ 32) :
    (∀ m, ((named family fileName).writeFlagged ws).readSigned a m = .ok none ↔ pageOf a ∉ touchedPages ws) ∧
    (pageOf a ∈ touchedPages ws →
      ∃ b, ((named family fileName).writeFlagged ws).readSigned a n = .ok (some b) ∧ b.length = n ∧
        (∀ i < n, b[i]? = some
          (if Unbroken (touchedPages ws) a i then lastByte ws (a + i.toUInt32) else eraseValue)) ∧
        ((∀ i < n, b[i]? = some (lastByte ws (a + i.toUInt32))) ↔
          ∀ i < n, ¬ Unbroken (touchedPages ws) a i → lastByte ws (a + i.toUInt32) = eraseValue)) := by
  constructor
  · intro m
    have hsound := ((records_named family fileName).writeFlagged hfit).sound
    rw [hsound.readSigned_eq_none_iff, mem_pageNumbers_named hfit]
  · intro hp
    obtain ⟨b, hread, hlength, hbytes⟩ := readSigned_writes hfit family fileName hn hp
    refine ⟨b, hread, hlength, hbytes, forall₂_congr fun i hi => ?_⟩
    rw [hbytes i hi, Option.some.injEq, ite_eq_left_iff]
    exact imp_congr_right fun _ => eq_comm

end Written

/-- Writes to three pages, of which the first two adjoin and the last one does not. -/
def spacedWrites : List FlaggedWrite := [⟨⟨0x1FE, [1, 2, 3, 4]⟩, 0⟩, ⟨⟨0x400, [5]⟩, 0⟩]

/-- Across pages that adjoin, what was written is read, with erased bytes behind it. -/
theorem readSigned_adjoining :
    (∃ b, ((named 0 []).writeFlagged spacedWrites).readSigned 0x1FF 4 = .ok (some b) ∧ b.length = 4 ∧
      b[0]? = some 2 ∧ b[1]? = some 3 ∧ b[2]? = some 4 ∧ b[3]? = some 0xFF) ∧
    ((named 0 []).writeFlagged spacedWrites).readSigned 0x300 4 = .ok none := by
  have hfit : ∀ w ∈ spacedWrites, w.stop ≤ 2 ^ 32 := by decide
  obtain ⟨-, hall⟩ := readSigned_writes_iff hfit 0 [] (by decide : (0x1FF : UInt32).toNat + 4 ≤ 2 ^ 32)
  obtain ⟨b, hread, hlength, hbytes, -⟩ := hall (by decide)
  obtain ⟨hnone, -⟩ := readSigned_writes_iff hfit 0 [] (by decide : (0x300 : UInt32).toNat + 4 ≤ 2 ^ 32)
  refine ⟨⟨b, hread, hlength, ?_, ?_, ?_, ?_⟩, (hnone 4).2 (by decide)⟩
  all_goals
    rw [hbytes _ (by decide)]
    decide

/-- A byte that was written behind the page that is missing is read as erased. -/
theorem readSigned_behind_gap :
    ∃ b, pageOf 0x1FF ∈ touchedPages spacedWrites ∧
      ((named 0 []).writeFlagged spacedWrites).readSigned 0x1FF 0x202 = .ok (some b) ∧
      lastByte spacedWrites (0x1FF + 0x201) = 5 ∧ b[0x201]? = some 0xFF := by
  have hfit : ∀ w ∈ spacedWrites, w.stop ≤ 2 ^ 32 := by decide
  have hp : pageOf 0x1FF ∈ touchedPages spacedWrites := by decide
  obtain ⟨b, hread, -, hbytes⟩ := readSigned_writes hfit 0 [] (by decide : (0x1FF : UInt32).toNat + 0x202 ≤ 2 ^ 32) hp
  have hgap : ¬ Unbroken (touchedPages spacedWrites) 0x1FF 0x201 := fun h => absurd (h 0x101 (by decide)) (by decide)
  refine ⟨b, hp, hread, by decide, ?_⟩
  rw [hbytes 0x201 (by decide), if_neg hgap]
  rfl

end Uf2
end Firmware
