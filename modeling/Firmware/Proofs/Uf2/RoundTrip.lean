import Firmware.Proofs.Uf2.Serialized
import Mathlib.Data.List.Nodup
import Mathlib.Data.List.Perm.Subperm

/-!
# Writing block files and reading them back

After any writes, a block file lists the pages that they need, each once and in the order in which they are first
needed, and what is read from the serialized file is one block for each of them, with the bytes that were written last
(`parse_serialize_writes`).

Every write is cut into pieces that lie in one page. What a piece does to the list of pages is to put its page at the end
or nothing (`Lists.writePage`); all else about the order of pages and their flags is about lists.
-/

namespace Firmware

open Uf2 BlockFile List

/-- A write, with flags for the pages that it makes. -/
structure FlaggedWrite extends Write where
  flags : UInt32
deriving DecidableEq, Repr

/-- The numbers of the pages that a write needs, going up from its address. -/
def Write.pages (w : Write) : List UInt32 :=
  let first := w.address.toNat / 256
  let last := max w.address.toNat (w.stop - 1) / 256
  (List.range' first (last + 1 - first)).map Nat.toUInt32

/-- The pages that writes need, each at the place of the first write that needs it. -/
def touchedPages (ws : List FlaggedWrite) : List UInt32 := (ws.flatMap (·.pages)).eraseDups

/-- The writes without their flags. -/
def journalOf (ws : List FlaggedWrite) : Journal := ws.map (·.toWrite)

namespace Uf2

/-- Writes in order. -/
def BlockFile.writeFlagged (f : BlockFile) (ws : List FlaggedWrite) : BlockFile :=
  ws.foldl (fun f w => f.write w.address w.data w.flags) f

/-- The flags of a page that a write makes in a file for a family. -/
def flagsFor (family flags : UInt32) : UInt32 := if family = 0 then flags else flags ||| flagFamily

/-- What the block of a page says about the file that it belongs to and about the page: it has the flags of the first
write that needs the page, and the bytes of the last ones. -/
structure Block.Tells (b : Block) (family : UInt32) (ws : List FlaggedWrite) (index : Nat) (page : UInt32) : Prop where
  number : b.number.toNat = index
  total : b.total.toNat = (touchedPages ws).length
  address : b.address.toNat = page.toNat * 256
  payload : b.payload.toNat = 256
  family_eq : b.family = family
  fileSize : b.fileSize = 0
  fileName : b.fileName = []
  flags : ∃ w, ws.find? (fun w => page ∈ w.pages) = some w ∧ b.flags = flagsFor family w.flags
  length : b.data.length = 256
  data : ∀ off < 256, b.data[off]? =
    some (((journalOf ws).byteAt? (b.address + off.toUInt32)).getD eraseValue)

end Uf2

/-! ## Pages of a write -/

namespace Write

theorem toNat_toUInt32_page {a : UInt32} {n : Nat} (h : n ≤ a.toNat / 256) : n.toUInt32.toNat = n := by
  have ha := a.toNat_lt
  exact UInt32.toNat_ofNat_of_lt' (by show n < 4294967296; omega)

/-- The pages of a write are those of its address and of its bytes. -/
theorem mem_pages {w : Write} (h : w.stop ≤ 2 ^ 32) {n : UInt32} :
    n ∈ w.pages ↔ ∃ a, pageOf a = n ∧ (a = w.address ∨ (w.byteAt? a).isSome) := by
  have haddress := w.address.toNat_lt
  have hstop : w.stop = w.address.toNat + w.data.length := rfl
  unfold pages
  simp only [mem_map, mem_range'_1]
  constructor
  · rintro ⟨k, ⟨hfirst, hlast⟩, rfl⟩
    -- the first byte in the page, which is in front of the write for its first page
    by_cases hk : k = w.address.toNat / 256
    · refine ⟨w.address, ?_, .inl rfl⟩
      apply UInt32.toNat_inj.1
      rw [toNat_pageOf, hk, toNat_toUInt32_page (Nat.le_refl _)]
    · have hlt : k * 256 < 4294967296 := by omega
      have hnat : (k * 256).toUInt32.toNat = k * 256 := UInt32.toNat_ofNat_of_lt' hlt
      refine ⟨(k * 256).toUInt32, ?_, .inr ?_⟩
      · apply UInt32.toNat_inj.1
        rw [toNat_pageOf, hnat, UInt32.toNat_ofNat_of_lt' (by show k < 4294967296; omega)]
        omega
      · rw [isSome_byteAt? h, hnat]
        omega
  · rintro ⟨a, rfl, ha⟩
    have hpage := toNat_pageOf a
    refine ⟨a.toNat / 256, ?_, ?_⟩
    · obtain rfl | ha := ha
      · omega
      · rw [isSome_byteAt? h] at ha
        omega
    · rw [← hpage]
      exact UInt32.ofNat_toNat

end Write

namespace Uf2.BlockFile

/-- The pieces that a write is cut into go to its pages, one piece for each. -/
theorem map_pageOf_pieces (w : Write) (h : w.stop ≤ 2 ^ 32) : (pieces w).map (fun p => pageOf p.address) = w.pages := by
  have hoff := pageOffset_eq w.address
  have hstop : w.stop = w.address.toNat + w.data.length := rfl
  have hsize : payloadSize = 256 := rfl
  have hpage : (w.address.toNat / 256).toUInt32 = pageOf w.address := by
    rw [← toNat_pageOf]
    exact UInt32.ofNat_toNat
  rw [pieces_eq]
  split
  next hfit =>
    unfold Write.pages
    dsimp only
    rw [show max w.address.toNat (w.stop - 1) / 256 + 1 - w.address.toNat / 256 = 1 by omega]
    simp [hpage]
  next hcut =>
    -- what is left starts with the next page and ends where the write does
    let n := payloadSize - pageOffset w.address
    have hn : n.toUInt32.toNat = n := UInt32.toNat_ofNat_of_lt' (by show n < 4294967296; omega)
    have haddress : (w.address + n.toUInt32).toNat = w.address.toNat + n := by
      rw [UInt32.toNat_add, hn, Nat.mod_eq_of_lt (by omega)]
    have hrest := w.stop_drop (n := n) (by omega) h
    have ih := map_pageOf_pieces ⟨w.address + n.toUInt32, w.data.drop n⟩ (by rw [hrest]; exact h)
    rw [map_cons]
    refine Eq.trans (congrArg (pageOf w.address :: ·) ih) ?_
    unfold Write.pages
    simp only [hrest, haddress]
    rw [show max w.address.toNat (w.stop - 1) / 256 + 1 - w.address.toNat / 256 =
        (max (w.address.toNat + n) (w.stop - 1) / 256 + 1 - (w.address.toNat + n) / 256) + 1 by omega,
      range'_succ, map_cons, hpage, show w.address.toNat / 256 + 1 = (w.address.toNat + n) / 256 by omega]
termination_by w.data.length
decreasing_by
  have hlt := pageOffset_lt w.address
  simp only [length_drop]
  omega

/-! ## The list of pages -/

/-- Writes that lie in one page each, in order. -/
def writePages (f : BlockFile) (cs : List FlaggedWrite) : BlockFile :=
  cs.foldl (fun f c => f.writePage c.address c.data c.flags) f

/-- The pieces of flagged writes; each has the flags of its write. -/
def flaggedPieces (ws : List FlaggedWrite) : List FlaggedWrite :=
  ws.flatMap fun w => (pieces w.toWrite).map fun p => ⟨p, w.flags⟩

theorem writeFlagged_eq (f : BlockFile) (ws : List FlaggedWrite) :
    f.writeFlagged ws = f.writePages (flaggedPieces ws) := by
  induction ws generalizing f with
  | nil => rfl
  | cons w rest ih =>
    unfold writeFlagged at ih ⊢
    rw [foldl_cons, ih, write_eq]
    unfold writePages flaggedPieces
    rw [flatMap_cons, foldl_append, foldl_map]

/-- Whether the pages of a file are those of writes that lie in one page each: in the order in which they come up, and
with the flags of the write that made them. -/
structure Lists (f : BlockFile) (family : UInt32) (cs : List FlaggedWrite) : Prop where
  fileName : f.fileName = []
  family_eq : f.family = family
  numbers : f.pageNumbers = (cs.map fun c => pageOf c.address).eraseDups
  page : ∀ p ∈ f.pages, p.word = family ∧
    ∃ c, cs.find? (fun c => pageOf c.address = p.number) = some c ∧ p.flags = flagsFor family c.flags

theorem lists_new (family : UInt32) : (new family).Lists family [] where
  fileName := rfl
  family_eq := rfl
  numbers := rfl
  page := fun _ hp => nomatch hp

theorem find?_eq_none_iff {f : BlockFile} {number : UInt32} : f.find? number = none ↔ number ∉ f.pageNumbers := by
  unfold find? pageNumbers
  simp [find?_eq_none]

/-- A piece puts its page behind the others unless it is there. -/
theorem pageNumbers_writePage (f : BlockFile) (w : Write) (flags : UInt32) :
    (f.writePage w.address w.data flags).pageNumbers =
      if pageOf w.address ∈ f.pageNumbers then f.pageNumbers else f.pageNumbers ++ [pageOf w.address] := by
  have hnumbers : (f.writePage w.address w.data flags).pageNumbers =
      (f.withPage (pageOf w.address) flags).map (·.number) :=
    map_number_updatePage _ (overlay w) (fun _ => rfl) _
  rw [hnumbers]
  unfold withPage
  by_cases hfind : f.find? (pageOf w.address) = none
  · rw [if_neg (by simp [hfind]), if_neg (find?_eq_none_iff.1 hfind), map_append]
    rfl
  · rw [if_pos (Option.isSome_iff_ne_none.2 hfind), if_pos]
    · rfl
    · exact not_not.1 fun hnot => hfind (find?_eq_none_iff.2 hnot)

theorem eraseDups_concat (numbers : List UInt32) (n : UInt32) :
    (numbers ++ [n]).eraseDups = if n ∈ numbers then numbers.eraseDups else numbers.eraseDups ++ [n] := by
  rw [eraseDups_append]
  by_cases hmem : n ∈ numbers <;> simp [List.removeAll, eraseDups_cons, hmem]

section

variable {f : BlockFile} {family : UInt32} {cs : List FlaggedWrite} (h : f.Lists family cs)
include h

theorem Lists.writePage (c : FlaggedWrite) : (f.writePage c.address c.data c.flags).Lists family (cs ++ [c]) where
  fileName := h.fileName
  family_eq := h.family_eq
  numbers := by
    rw [pageNumbers_writePage f c.toWrite, map_append, map_singleton, eraseDups_concat, h.numbers]
    simp only [mem_eraseDups]
  page := by
    rw [pages_writePage f c.toWrite]
    -- a page that is there keeps its word and flags; one that is made gets those of the write
    refine forall_updatePage (forall_withPage ?_ ?_) fun p hp => hp
    · intro p hp
      obtain ⟨hword, c', hfind, hflags⟩ := h.page p hp
      exact ⟨hword, c', by rw [find?_append, hfind]; rfl, hflags⟩
    · intro hnone
      refine ⟨h.family_eq, c, ?_, ?_⟩
      · have hnot : cs.find? (fun c' => pageOf c'.address = pageOf c.address) = none := by
          rw [find?_eq_none_iff, h.numbers, mem_eraseDups] at hnone
          simpa [find?_eq_none] using hnone
        show (cs ++ [c]).find? (fun c' => pageOf c'.address = pageOf c.address) = some c
        rw [find?_append, hnot]
        simp
      · show (f.newPage _ _).flags = _
        simp [newPage, flagsFor, h.fileName, h.family_eq]

theorem Lists.writePages (more : List FlaggedWrite) : (f.writePages more).Lists family (cs ++ more) := by
  induction more generalizing f cs with
  | nil =>
    rw [append_nil]
    exact h
  | cons c rest ih =>
    have := ih (h.writePage c)
    rwa [append_assoc] at this

end

/-- A new file after writes, page by page. -/
theorem lists_writeFlagged (family : UInt32) (ws : List FlaggedWrite) :
    ((new family).writeFlagged ws).Lists family (flaggedPieces ws) := by
  rw [writeFlagged_eq]
  exact (lists_new family).writePages (flaggedPieces ws)

/-! ## From pieces to writes -/

section Pieces

variable {ws : List FlaggedWrite} (hfit : ∀ w ∈ ws, w.stop ≤ 2 ^ 32)

include hfit

theorem map_pageOf_flaggedPieces : (flaggedPieces ws).map (fun c => pageOf c.address) = ws.flatMap (·.pages) := by
  unfold flaggedPieces
  rw [map_flatMap]
  refine flatMap_congr fun w hw => ?_
  rw [map_map]
  exact map_pageOf_pieces w.toWrite (hfit w hw)

/-- The first piece in a page belongs to the first write that needs the page. -/
theorem find?_flaggedPieces {n : UInt32} {c : FlaggedWrite}
    (h : (flaggedPieces ws).find? (fun c => pageOf c.address = n) = some c) :
    ∃ w, ws.find? (fun w => n ∈ w.pages) = some w ∧ c.flags = w.flags := by
  induction ws with
  | nil => exact nomatch h
  | cons w rest ih =>
    have hpages := map_pageOf_pieces w.toWrite (hfit w (mem_cons_self ..))
    unfold flaggedPieces at h
    rw [flatMap_cons, find?_append] at h
    by_cases hmem : n ∈ w.pages
    · refine ⟨w, find?_cons_of_pos (by simpa using hmem), ?_⟩
      -- some piece of the write is in the page, so the piece that is found is one of them
      rw [← hpages] at hmem
      obtain ⟨p, hp, hpn⟩ := mem_map.1 hmem
      cases hfound : ((pieces w.toWrite).map fun p => (⟨p, w.flags⟩ : FlaggedWrite)).find?
          (fun c => pageOf c.address = n) with
      | none => exact absurd hpn (by simpa using find?_eq_none.1 hfound _ (mem_map_of_mem hp))
      | some c' =>
        rw [hfound] at h
        obtain rfl := Option.some.inj h
        obtain ⟨q, -, rfl⟩ := mem_map.1 (mem_of_find?_eq_some hfound)
        rfl
    · have hnone : ((pieces w.toWrite).map fun p => (⟨p, w.flags⟩ : FlaggedWrite)).find?
          (fun c => pageOf c.address = n) = none := by
        rw [find?_eq_none]
        intro c hc hcn
        obtain ⟨p, hp, rfl⟩ := mem_map.1 hc
        apply hmem
        rw [← hpages]
        exact mem_map.2 ⟨p, hp, by simpa using hcn⟩
      rw [hnone, Option.none_or] at h
      obtain ⟨w', hw', hflags⟩ := ih (fun w hw => hfit w (mem_cons_of_mem _ hw)) h
      exact ⟨w', by rw [find?_cons_of_neg (by simpa using hmem)]; exact hw', hflags⟩

theorem pageNumbers_writeFlagged (family : UInt32) : ((new family).writeFlagged ws).pageNumbers = touchedPages ws := by
  rw [(lists_writeFlagged family ws).numbers, map_pageOf_flaggedPieces hfit]
  rfl

/-- The pages that writes need are those of their addresses and of their bytes. -/
theorem mem_touchedPages {n : UInt32} :
    n ∈ touchedPages ws ↔ ∃ w ∈ ws, ∃ a, pageOf a = n ∧ (a = w.address ∨ (w.byteAt? a).isSome) := by
  rw [touchedPages, mem_eraseDups, mem_flatMap]
  constructor
  · rintro ⟨w, hw, hn⟩
    exact ⟨w, hw, (Write.mem_pages (hfit w hw)).1 hn⟩
  · rintro ⟨w, hw, ha⟩
    exact ⟨w, hw, (Write.mem_pages (hfit w hw)).2 ha⟩

/-- A file after writes, byte by byte. -/
theorem Records.writeFlagged {f : BlockFile} {j : Journal} (h : f.Records j) :
    (f.writeFlagged ws).Records (j ++ journalOf ws) := by
  induction ws generalizing f j with
  | nil =>
    rw [journalOf, map_nil, append_nil]
    exact h
  | cons w rest ih =>
    have hw : w.stop ≤ 2 ^ 32 := hfit w (mem_cons_self ..)
    have hlength : w.data.length ≤ 2 ^ 32 := Nat.le_trans (Nat.le_add_left ..) hw
    have := ih (fun v hv => hfit v (mem_cons_of_mem w hv)) (h.write hlength w.flags)
    rwa [append_assoc] at this

/-- A new file after writes, byte by byte. -/
theorem records_writeFlagged (family : UInt32) : ((new family).writeFlagged ws).Records (journalOf ws) :=
  Records.writeFlagged hfit ⟨sound_new family, reflects_new family⟩

end Pieces

/-- There are no more pages than page numbers. -/
theorem Sound.length_pages_le {f : BlockFile} (h : f.Sound) : f.pages.length ≤ 2 ^ 24 := by
  have hnodup : (f.pages.map fun p => p.number.toNat).Nodup := by
    have := h.nodup.map (f := UInt32.toNat) fun a b hab => UInt32.toNat_inj.1 hab
    rwa [pageNumbers, map_map] at this
  have hsubset : (f.pages.map fun p => p.number.toNat) ⊆ List.range (2 ^ 24) := by
    intro n hn
    obtain ⟨p, hp, rfl⟩ := mem_map.1 hn
    exact mem_range.2 (h.bound p hp)
  have hle := (hnodup.subperm hsubset).length_le
  rwa [length_map, length_range] at hle

end BlockFile

/-! ## Reading back -/

theorem flagsFor_file {family flags : UInt32} (h : flags &&& flagFile = 0) : flagsFor family flags &&& flagFile = 0 := by
  unfold flagsFor
  split
  · exact h
  · apply UInt32.toNat_inj.1
    rw [UInt32.toNat_and, UInt32.toNat_or, Nat.and_or_distrib_right, ← UInt32.toNat_and, h]
    rfl

/-- A flag that is set is found. -/
theorem or_flag_ne_zero {flag : UInt32} (h : flag ≠ 0) (flags : UInt32) : (flags ||| flag) &&& flag ≠ 0 := by
  intro hzero
  have hnat := congrArg UInt32.toNat hzero
  rw [UInt32.toNat_and, UInt32.toNat_or, Nat.and_or_distrib_right, Nat.and_self] at hnat
  exact h (UInt32.toNat_inj.1 (Nat.or_eq_zero_iff.1 hnat).2)

theorem flagsFor_family {family : UInt32} (h : family ≠ 0) (flags : UInt32) :
    flagsFor family flags &&& flagFamily ≠ 0 := by
  unfold flagsFor
  rw [if_neg h]
  exact or_flag_ne_zero (by decide) flags

/-- The block of a page that writes have made. -/
theorem tells_blockOf {family : UInt32} {ws : List FlaggedWrite} (hfit : ∀ w ∈ ws, w.stop ≤ 2 ^ 32)
    (hflags : ∀ w ∈ ws, w.flags &&& flagFile = 0) {i : Nat} {p : Page}
    (hp : ((new family).writeFlagged ws).pages[i]? = some p) :
    (blockOf ((new family).writeFlagged ws).pages.length i p).Tells family ws i p.number := by
  have hmem := mem_of_getElem? hp
  obtain ⟨hsound, hreflects⟩ := records_writeFlagged hfit family
  obtain ⟨hword, c, hfind, hpflags⟩ := (lists_writeFlagged family ws).page p hmem
  obtain ⟨w, hw, hcw⟩ := find?_flaggedPieces hfit hfind
  have hcount := hsound.length_pages_le
  have hi : i < ((new family).writeFlagged ws).pages.length := (List.getElem?_eq_some_iff.1 hp).1
  have hnotFile : p.flags &&& flagFile = 0 := by
    rw [hpflags, hcw]
    exact flagsFor_file (hflags w (mem_of_find?_eq_some hw))
  constructor
  case number => exact UInt32.toNat_ofNat_of_lt' (by show i < 4294967296; omega)
  case total =>
    rw [← pageNumbers_writeFlagged hfit family, pageNumbers, length_map]
    exact UInt32.toNat_ofNat_of_lt' (by show _ < 4294967296; omega)
  case address => exact hsound.toNat_pageStart hmem
  case payload => rfl
  case family_eq =>
    show (if p.flags &&& flagFamily != 0 then p.word else 0) = family
    by_cases hfamily : family = 0
    · rw [hword, hfamily, ite_self]
    · rw [hpflags, if_pos (by simpa using flagsFor_family hfamily c.flags), hword]
  case fileSize => simp [blockOf, hnotFile]
  case fileName => simp [blockOf, hnotFile]
  case flags => exact ⟨w, hw, by rw [← hcw]; exact hpflags⟩
  case length => exact hsound.size p hmem
  case data =>
    intro off hoff
    have hlt : off < p.data.length := by
      rw [hsound.size p hmem]
      exact hoff
    show p.data[off]? = some (((journalOf ws).byteAt? (p.number <<< 8 + off.toUInt32)).getD eraseValue)
    -- the byte of the page is that of the file at its address, and so the one that the writes leave
    have hbyte := hsound.byteAt?_page hmem hoff
    rw [getElem?_eq_getElem hlt] at hbyte ⊢
    rw [((hreflects _ _).1 hbyte).2]

/-- **Round trip.** After writes that do not reach around the end of flash and have no file flag, a file lists the pages
that they need, each once, in the order of the writes. What is read from its serialized form is one block for each of
these pages in this order, with the number, the flags and the bytes that belong to the page. -/
theorem parse_serialize_writes (family : UInt32) {ws : List FlaggedWrite} (hfit : ∀ w ∈ ws, w.stop ≤ 2 ^ 32)
    (hflags : ∀ w ∈ ws, w.flags &&& flagFile = 0) :
    ((new family).writeFlagged ws).pageNumbers = touchedPages ws ∧
    (touchedPages ws).Nodup ∧
    (∀ n, n ∈ touchedPages ws ↔ ∃ w ∈ ws, ∃ a, pageOf a = n ∧ (a = w.address ∨ (w.byteAt? a).isSome)) ∧
    (parse ((new family).writeFlagged ws).serialize).length = (touchedPages ws).length ∧
    ∀ (i : Nat) (page : UInt32), (touchedPages ws)[i]? = some page →
      ∃ b, (parse ((new family).writeFlagged ws).serialize)[i]? = some b ∧ b.Tells family ws i page := by
  have hnumbers := pageNumbers_writeFlagged hfit family
  have hsound := (records_writeFlagged hfit family).sound
  have hfinal : ((new family).writeFlagged ws).finalPages = ((new family).writeFlagged ws).pages := by
    unfold finalPages
    rw [(lists_writeFlagged family ws).fileName]
    rfl
  rw [parse_serialize hsound, hfinal]
  refine ⟨hnumbers, hnumbers ▸ hsound.nodup, fun n => mem_touchedPages hfit, ?_, ?_⟩
  · rw [← hnumbers, pageNumbers, List.length_mapIdx, List.length_map]
  · intro i page hpage
    rw [← hnumbers, pageNumbers, List.getElem?_map, Option.map_eq_some_iff] at hpage
    obtain ⟨p, hp, rfl⟩ := hpage
    exact ⟨_, by rw [List.getElem?_mapIdx, hp]; rfl, tells_blockOf hfit hflags hp⟩

/-- Writes that go back and forth: the second starts in the middle of the first one and reaches into a page behind it,
the third is empty and still needs a page, and the last one changes a page again. -/
def backAndForth : List FlaggedWrite :=
  [⟨⟨0x2FE, [1, 2, 3, 4]⟩, 0⟩, ⟨⟨0x2FF, [7, 7]⟩, 1⟩, ⟨⟨0x100, []⟩, 1⟩, ⟨⟨0x2FD, [9, 9]⟩, 0⟩]

/-- They make three pages. The first of them has bytes of all three writes that reach it, and the flags of the first
one. -/
theorem parse_serialize_writes_backAndForth :
    touchedPages backAndForth = [2, 3, 1] ∧
    ∃ b, (parse ((new 0xe48bff56).writeFlagged backAndForth).serialize)[0]? = some b ∧
      b.address = 0x200 ∧ b.flags = flagFamily ∧ b.total = 3 ∧ b.data[0xFC]? = some 0xFF ∧
      b.data[0xFD]? = some 9 ∧ b.data[0xFE]? = some 9 ∧ b.data[0xFF]? = some 7 := by
  have hpages : touchedPages backAndForth = [2, 3, 1] := by decide
  have hfit : ∀ w ∈ backAndForth, w.stop ≤ 2 ^ 32 := by decide
  have hflags : ∀ w ∈ backAndForth, w.flags &&& flagFile = 0 := by decide
  obtain ⟨-, -, -, -, hblocks⟩ := parse_serialize_writes 0xe48bff56 hfit hflags
  obtain ⟨b, hb, htells⟩ := hblocks 0 2 (by rw [hpages]; rfl)
  have haddress : b.address = 0x200 := UInt32.toNat_inj.1 htells.address
  refine ⟨hpages, b, hb, haddress, ?_, UInt32.toNat_inj.1 (by rw [htells.total, hpages]; rfl), ?_, ?_, ?_, ?_⟩
  · obtain ⟨w, hw, hflags⟩ := htells.flags
    have hfirst : backAndForth.find? (fun w => (2 : UInt32) ∈ w.pages) = some ⟨⟨0x2FE, [1, 2, 3, 4]⟩, 0⟩ := by decide
    obtain rfl := Option.some.inj (hfirst.symm.trans hw)
    exact hflags
  all_goals
    rw [htells.data _ (by decide), haddress]
    decide

end Uf2
end Firmware
