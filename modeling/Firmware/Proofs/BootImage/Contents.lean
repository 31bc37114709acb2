import Firmware.Proofs.BootImage.Alignment
import Mathlib.Data.List.Perm.Basic

/-!
# What a layout holds

A segment stands for its bytes, each with its address (`Segment.cells`). A layout sorts, extends and cuts segments and
adds zeros, but what is loaded from the pieces in the file is what the segments hold, each byte once, with the zeros
behind the mapped ones that end too close behind the start of a page (`perm_loaded_padSegments`).
-/

namespace Firmware
namespace BootImage

open List

/-! ## Bytes with their addresses -/

/-- Bytes that stand from an address on, each with its own address. -/
def cellsAt (address : Nat) (data : Bytes) : List (Nat × UInt8) := data.mapIdx fun i b => (address + i, b)

theorem cellsAt_append (address : Nat) (front back : Bytes) :
    cellsAt address (front ++ back) = cellsAt address front ++ cellsAt (address + front.length) back := by
  unfold cellsAt
  rw [mapIdx_append]
  congr 2
  funext i b
  rw [Nat.add_assoc, Nat.add_comm i]

namespace Segment

variable {s : Segment} {n : Nat}

/-- The bytes of a segment with their addresses. -/
def cells (s : Segment) : List (Nat × UInt8) := cellsAt s.address.toNat s.data

theorem mem_cells {c : Nat × UInt8} : c ∈ s.cells ↔ ∃ i, s.data[i]? = some c.2 ∧ c.1 = s.address.toNat + i := by
  simp only [cells, cellsAt, mem_mapIdx]
  constructor
  · rintro ⟨i, hi, rfl⟩
    exact ⟨i, getElem?_eq_getElem hi, rfl⟩
  · rintro ⟨i, hi, haddress⟩
    obtain ⟨hlt, hbyte⟩ := List.getElem?_eq_some_iff.1 hi
    exact ⟨i, hlt, Prod.ext haddress.symm hbyte⟩

/-- The segment ends before the end of the address space. -/
def Fits (s : Segment) : Prop := s.address.toNat + s.data.length < 2 ^ 32

theorem Fits.length_lt (h : s.Fits) : s.data.length < 2 ^ 32 := Nat.lt_of_le_of_lt (Nat.le_add_left ..) h

theorem Fits.toNat_stop (h : s.Fits) : s.stop.toNat = s.address.toNat + s.data.length := by
  have hlength : s.data.length.toUInt32.toNat = s.data.length :=
    UInt32.toNat_ofNat_of_lt' (Nat.lt_of_le_of_lt (Nat.le_add_left ..) h)
  rw [stop, UInt32.toNat_add, hlength, Nat.mod_eq_of_lt h]

/-! ## Zeros behind a segment -/

/-- The zeros that complete a mapped segment whose last page holds too little of it. -/
def tail (s : Segment) : Segment :=
  { s with address := s.stop, data := List.replicate (shortestTail - s.stop.toNat % pageSize) 0 }

theorem extendTail_eq (s : Segment) : s.extendTail = { s with data := s.data ++ s.tail.data } := by
  unfold extendTail tail
  dsimp only
  split
  next => rfl
  next h => rw [Nat.sub_eq_zero_of_le (Nat.le_of_not_lt h), replicate_zero, append_nil]

theorem cells_extendTail (h : s.Fits) : s.extendTail.cells = s.cells ++ s.tail.cells := by
  rw [extendTail_eq, cells, cellsAt_append, ← h.toNat_stop]
  rfl

theorem of_mem_cells_tail (h : s.Fits) {c : Nat × UInt8} (hc : c ∈ s.tail.cells) :
    c.2 = 0 ∧ s.address.toNat + s.data.length ≤ c.1 ∧ c.1 < s.address.toNat + s.data.length + shortestTail := by
  obtain ⟨i, hi, haddress⟩ := mem_cells.1 hc
  have hstart : s.tail.address.toNat = s.address.toNat + s.data.length := h.toNat_stop
  rw [tail, getElem?_replicate] at hi
  split at hi
  next hlt => exact ⟨(Option.some.inj hi).symm, by omega, by omega⟩
  next => exact nomatch hi

/-! ## Loading -/

/-- The last of the addresses that are only used to fill space. -/
def lastPadding : Nat := 0x10000

/-- A segment that is loaded: it stands behind the addresses that are used to fill space, and fits. -/
def IsLoaded (s : Segment) : Prop := lastPadding < s.address.toNat ∧ s.Fits

/-- What is loaded from a segment of a file. -/
def loaded (s : Segment) : List (Nat × UInt8) := if lastPadding < s.address.toNat then s.cells else []

theorem IsLoaded.loaded_eq (h : s.IsLoaded) : s.loaded = s.cells := if_pos h.1

@[simp] theorem loaded_zeros (n : Nat) : (zeros n).loaded = [] := rfl

/-- A loaded segment with room for the zeros that may come behind it. -/
def HasRoom (s : Segment) : Prop :=
  lastPadding < s.address.toNat ∧ s.address.toNat + s.data.length < 2 ^ 32 - shortestTail

instance (s : Segment) : Decidable s.HasRoom := inferInstanceAs (Decidable (_ ∧ _))

theorem HasRoom.isLoaded (h : s.HasRoom) : s.IsLoaded := ⟨h.1, Nat.lt_of_lt_of_le h.2 (Nat.sub_le ..)⟩

theorem HasRoom.isLoaded_extendTail (h : s.HasRoom) : s.extendTail.IsLoaded := by
  have hroom := h.2
  have htail : s.tail.data.length = shortestTail - s.stop.toNat % pageSize := length_replicate
  rw [extendTail_eq]
  refine ⟨h.1, ?_⟩
  unfold Fits
  dsimp only
  rw [length_append, htail]
  omega

theorem toNat_address_back (h : s.Fits) (hn : n ≤ s.data.length) : (s.back n).address.toNat = s.address.toNat + n := by
  have hlt : s.address.toNat + n < 2 ^ 32 := Nat.lt_of_le_of_lt (Nat.add_le_add_left hn _) h
  rw [back, UInt32.toNat_add, UInt32.toNat_ofNat_of_lt' (Nat.lt_of_le_of_lt (Nat.le_add_left ..) hlt),
    Nat.mod_eq_of_lt hlt]

theorem IsLoaded.back (h : s.IsLoaded) (hn : n ≤ s.data.length) : (s.back n).IsLoaded := by
  obtain ⟨hstart, hfits⟩ := h
  have haddress := toNat_address_back hfits hn
  have hlength : (s.back n).data.length = s.data.length - n := length_drop ..
  unfold Fits at hfits
  refine ⟨by omega, ?_⟩
  unfold Fits
  omega

theorem Fits.front (h : s.Fits) (n : Nat) : (s.front n).Fits := by
  have hlength : (s.front n).data.length = min n s.data.length := length_take ..
  have haddress : (s.front n).address = s.address := rfl
  unfold Fits at h ⊢
  rw [haddress]
  omega

/-- Nothing is lost where a segment is cut. -/
theorem loaded_cut (h : s.IsLoaded) (hn : n ≤ s.data.length) : (s.front n).loaded ++ (s.back n).loaded = s.loaded := by
  have hfront : (s.front n).IsLoaded := ⟨h.1, h.2.front n⟩
  rw [hfront.loaded_eq, (h.back hn).loaded_eq, h.loaded_eq, cells, cells, toNat_address_back h.2 hn]
  conv_rhs => rw [cells, ← take_append_drop n s.data, cellsAt_append, length_take_of_le hn]
  rfl

end Segment

/-! ## Layouts -/

namespace Layout

/-- What is loaded from the pieces in the file and from what is left. -/
def loaded (l : Layout) : List (Nat × UInt8) := (l.placed ++ (l.mapped ++ l.loose)).flatMap Segment.loaded

/-- What holds as a layout goes on that started with `contents`: the segments that are left are loaded, the pieces in
the file fit, and all of them together hold the contents. -/
structure Holds (contents : List (Nat × UInt8)) (l : Layout) : Prop where
  left : ∀ s ∈ l.mapped ++ l.loose, s.IsLoaded
  fits : ∀ s ∈ l.placed, s.Fits
  perm : l.loaded.Perm contents

/-- A piece goes into the file: it fits, and it holds what the segments that are left then do not hold any more. -/
theorem Holds.add {contents : List (Nat × UInt8)} {l next : Layout} (hl : l.Holds contents) {piece : Segment}
    (hplaced : next.placed = piece :: l.placed) (hpiece : piece.Fits)
    (hleft : ∀ s ∈ next.mapped ++ next.loose, s.IsLoaded)
    (hperm : (piece.loaded ++ (next.mapped ++ next.loose).flatMap Segment.loaded).Perm
      ((l.mapped ++ l.loose).flatMap Segment.loaded)) : next.Holds contents := by
  refine ⟨hleft, ?_, ?_⟩
  · rw [hplaced]
    rintro s (_ | ⟨_, hs⟩)
    · exact hpiece
    · exact hl.fits s hs
  · have hkept := hl.perm
    unfold loaded at hkept ⊢
    rw [hplaced]
    rw [flatMap_append] at hkept ⊢
    rw [flatMap_cons, append_assoc]
    exact ((perm_append_comm_assoc ..).trans (hperm.append_left _)).trans hkept

theorem fits_zeros (s : Segment) (offset : Nat) : (Segment.zeros (paddingNeeded s offset)).Fits := by
  have hlength : (Segment.zeros (paddingNeeded s offset)).data.length = paddingNeeded s offset := length_replicate
  have hspec := gapBefore_spec s offset
  have hcases := paddingNeeded_cases s offset
  simp only [pageSize, segmentHeadSize] at hspec hcases
  unfold Segment.Fits
  rw [hlength, show (Segment.zeros (paddingNeeded s offset)).address.toNat = 0 from rfl]
  omega

/-- No move loses, adds or changes a byte that is loaded. -/
theorem Holds.moves {contents : List (Nat × UInt8)} {l next : Layout} (h : Moves l next) (hl : l.Holds contents) :
    next.Holds contents := by
  have hleft := hl.left
  cases h with
  | place s rest loose offset placed =>
    have hs : s.IsLoaded := hleft s (mem_cons_self ..)
    exact hl.add rfl hs.2 (fun t ht => hleft t (mem_cons_of_mem s ht)) (.refl _)
  | zeros s rest loose offset placed =>
    -- zeros are not loaded, so all stays where it is
    exact hl.add rfl (fits_zeros s offset) hleft (by simp)
  | whole s first rest loose offset placed =>
    have hfirst : first.IsLoaded := hleft first (mem_append_right _ (mem_cons_self ..))
    refine hl.add rfl hfirst.2 ?_ ?_
    · intro t ht
      exact hleft t (mem_append.2 ((mem_append.1 ht).imp_right (mem_cons_of_mem first)))
    · have hmiddle : (first :: (s :: rest ++ loose)).Perm (s :: rest ++ first :: loose) := perm_middle.symm
      exact hmiddle.flatMap_right Segment.loaded
  | start s first rest loose offset placed _ hlong =>
    have hfirst : first.IsLoaded := hleft first (mem_append_right _ (mem_cons_self ..))
    refine hl.add rfl (hfirst.2.front _) ?_ ?_
    · intro t ht
      obtain hmapped | hloose := mem_append.1 ht
      · exact hleft t (mem_append_left _ hmapped)
      · obtain rfl | hloose := mem_cons.1 hloose
        · exact hfirst.back (Nat.le_of_lt hlong)
        · exact hleft t (mem_append_right _ (mem_cons_of_mem first hloose))
    · dsimp only
      simp only [flatMap_append, flatMap_cons]
      rw [← Segment.loaded_cut hfirst (Nat.le_of_lt hlong), append_assoc (first.front _).loaded]
      exact perm_append_comm_assoc ..

end Layout

/-- What the segments of an image hold, with the zeros that are added behind the mapped ones. -/
def contents (segments : List Segment) : List (Nat × UInt8) :=
  segments.flatMap Segment.cells ++ (segments.filter (·.isMapped)).flatMap fun s => s.tail.cells

theorem perm_extended (mapped loose : List Segment) :
    ((mapped.flatMap fun s => s.cells ++ s.tail.cells) ++ loose.flatMap Segment.cells).Perm
      ((mapped ++ loose).flatMap Segment.cells ++ mapped.flatMap fun s => s.tail.cells) := by
  refine ((flatMap_append_perm ..).symm.append_right _).trans ?_
  rw [append_assoc, flatMap_append, append_assoc]
  exact perm_append_comm.append_left _

theorem Layout.Holds.ofSegments {segments : List Segment} (h : ∀ s ∈ segments, s.HasRoom) (offset : Nat) :
    (Layout.ofSegments segments offset).Holds (contents segments) := by
  have hsorted : ∀ s ∈ byAddress segments, s.HasRoom := fun s hs => h s (mem_mergeSort.1 hs)
  have hmapped : ∀ s ∈ (byAddress segments).filter (·.isMapped), s.HasRoom :=
    fun s hs => hsorted s (mem_filter.1 hs).1
  have hloose : ∀ s ∈ (byAddress segments).filter (!·.isMapped), s.HasRoom :=
    fun s hs => hsorted s (mem_filter.1 hs).1
  have hempty : ∀ s ∈ (Layout.ofSegments segments offset).placed, s.Fits := fun s hs => absurd hs not_mem_nil
  refine ⟨?_, hempty, ?_⟩
  · intro s hs
    obtain hs | hs := mem_append.1 hs
    · obtain ⟨t, ht, rfl⟩ := mem_map.1 hs
      exact (hmapped t ht).isLoaded_extendTail
    · exact (hloose s hs).isLoaded
  · have hextended : (((byAddress segments).filter (·.isMapped)).map Segment.extendTail).flatMap Segment.loaded =
        ((byAddress segments).filter (·.isMapped)).flatMap fun s => s.cells ++ s.tail.cells := by
      rw [flatMap_map]
      apply flatMap_congr
      intro s hs
      rw [(hmapped s hs).isLoaded_extendTail.loaded_eq, Segment.cells_extendTail (hmapped s hs).isLoaded.2]
    have hkept : ((byAddress segments).filter (!·.isMapped)).flatMap Segment.loaded =
        ((byAddress segments).filter (!·.isMapped)).flatMap Segment.cells :=
      flatMap_congr fun s hs => (hloose s hs).isLoaded.loaded_eq
    have hperm : (byAddress segments).Perm segments := mergeSort_perm ..
    unfold Layout.loaded Layout.ofSegments contents
    rw [nil_append, flatMap_append, hextended, hkept]
    exact (perm_extended _ _).trans (((filter_append_perm ..).trans hperm |>.flatMap_right _).append
      ((hperm.filter _).flatMap_right _))

/-- What is loaded from a laid out file is what the segments hold, each byte once. -/
theorem perm_loaded_padSegments {segments laid : List Segment} {offset : Nat} (h : ∀ s ∈ segments, s.HasRoom)
    (hlaid : padSegments segments offset = .ok laid) :
    (∀ s ∈ laid, s.Fits) ∧ (laid.flatMap Segment.loaded).Perm (contents segments) := by
  obtain ⟨last, hreach, hnil, rfl⟩ := Layout.run_eq_ok_iff.1 hlaid
  have hlast : last.Holds (contents segments) :=
    hreach.invariant (fun _ _ hmoves _ => Layout.Holds.moves hmoves) (.ofSegments h offset)
  obtain ⟨hleft, hfits, hperm⟩ := hlast
  rw [hnil, nil_append] at hleft
  refine ⟨?_, ?_⟩
  · intro s hs
    obtain hplaced | hloose := mem_append.1 hs
    · exact hfits s (mem_reverse.1 hplaced)
    · exact (hleft s hloose).2
  · refine .trans ?_ hperm
    rw [Layout.loaded, hnil, nil_append]
    exact (reverse_perm last.placed |>.append_right _).flatMap_right _

end BootImage
end Firmware
