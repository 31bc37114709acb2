import Firmware.Proofs.BootImage.Steps
import Firmware.Proofs.Bytes

/-!
# Images of whole words

Where addresses and data are whole words, the file is at a whole word after each piece, so a layout can fail for one
reason only. A gap in front of a mapped segment is filled by a piece of data behind a head of its own. If the gap is as
long as a head, the piece needs no data, and the layout takes the segment for one that stands right
(`Layout.IsHeadShortOf`). All other gaps are filled, and `serialize_whole_words` says that an image of whole words has
a file exactly when its layout does not come to such a gap.
-/

namespace Firmware
namespace BootImage

open List

variable {s : Segment} {offset : Nat}

/-! ## Gaps -/

/-- Behind the gap, a mapped segment stands right. -/
theorem gapBefore_spec (s : Segment) (offset : Nat) : gapBefore s offset < pageSize ∧
      (offset + segmentHeadSize + gapBefore s offset) % pageSize = s.address.toNat % pageSize := by
  have hwanted : (s.address - segmentHeadSize.toUInt32).toNat = (2 ^ 32 - 8 + s.address.toNat) % 2 ^ 32 := by
    rw [UInt32.toNat_sub]
    rfl
  unfold gapBefore
  rw [hwanted]
  simp only [pageSize, segmentHeadSize]
  omega

theorem gapBefore_eq_iff {n : Nat} (hn : n < pageSize) :
    gapBefore s offset = n ↔ (offset + segmentHeadSize + n) % pageSize = s.address.toNat % pageSize := by
  have hspec := gapBefore_spec s offset
  simp only [pageSize, segmentHeadSize] at hn hspec ⊢
  omega

/-- Without a gap, the segment stands right. -/
theorem gapBefore_eq_zero_iff :
    gapBefore s offset = 0 ↔ (offset + segmentHeadSize) % pageSize = s.address.toNat % pageSize :=
  gapBefore_eq_iff (by decide)

/-- No data is needed in a gap that is as long as the head of the data. -/
theorem paddingNeeded_eq_zero_iff :
    paddingNeeded s offset = 0 ↔ gapBefore s offset = 0 ∨ gapBefore s offset = segmentHeadSize := by
  have hcases := paddingNeeded_cases s offset
  simp only [pageSize, segmentHeadSize] at hcases ⊢
  omega

/-! ## Whole words -/

/-- A segment of whole words. -/
def Segment.IsWhole (s : Segment) : Prop := s.address.toNat % 4 = 0 ∧ s.data.length % 4 = 0

instance (s : Segment) : Decidable s.IsWhole := inferInstanceAs (Decidable (_ ∧ _))

theorem Segment.IsWhole.extendTail (h : s.IsWhole) : s.extendTail.IsWhole := by
  obtain ⟨haddress, hlength⟩ := h
  have hstop : s.stop.toNat = (s.address.toNat + s.data.length % 2 ^ 32) % 2 ^ 32 := UInt32.toNat_add ..
  unfold Segment.extendTail
  dsimp only
  split
  next =>
    refine ⟨haddress, ?_⟩
    rw [length_append, length_replicate, hstop, pageSize, shortestTail]
    omega
  next => exact ⟨haddress, hlength⟩

/-- Between whole words, what is needed is a number of whole words. -/
theorem paddingNeeded_mod_four (hs : s.address.toNat % 4 = 0) (h : offset % 4 = 0) :
    paddingNeeded s offset % 4 = 0 := by
  have hspec := gapBefore_spec s offset
  have hcases := paddingNeeded_cases s offset
  simp only [pageSize, segmentHeadSize] at hspec hcases
  omega

theorem Segment.IsWhole.back (h : s.IsWhole) {n : Nat} (hn : n % 4 = 0) : (s.back n).IsWhole := by
  obtain ⟨haddress, hlength⟩ := h
  have hstart : (s.back n).address.toNat = (s.address.toNat + n % 2 ^ 32) % 2 ^ 32 := UInt32.toNat_add ..
  have hleft : (s.back n).data.length = s.data.length - n := length_drop ..
  unfold Segment.IsWhole
  omega

namespace Layout

variable {l : Layout}

/-- A state in which all that is left and the offset are whole words. -/
structure IsWhole (l : Layout) : Prop where
  offset : l.offset % 4 = 0
  mapped : ∀ s ∈ l.mapped, s.IsWhole
  loose : ∀ s ∈ l.loose, s.IsWhole

theorem IsWhole.ofSegments {segments : List Segment} (h : ∀ s ∈ segments, s.IsWhole) {offset : Nat}
    (hoffset : offset % 4 = 0) : (ofSegments segments offset).IsWhole where
  offset := hoffset
  mapped := by
    intro s hs
    obtain ⟨t, ht, rfl⟩ := mem_map.1 hs
    exact (h t (mem_mergeSort.1 (mem_filter.1 ht).1)).extendTail
  loose s hs := h s (mem_mergeSort.1 (mem_filter.1 hs).1)

/-- Whole words stay whole words from step to step. -/
theorem IsWhole.moves {next : Layout} (h : Moves l next) (halign : next.offset % 4 = 0) (hl : l.IsWhole) :
    next.IsWhole := by
  obtain ⟨hoffset, hmapped, hloose⟩ := hl
  cases h with
  | place s => exact ⟨halign, fun t ht => hmapped t (mem_cons_of_mem s ht), hloose⟩
  | zeros => exact ⟨halign, hmapped, hloose⟩
  | whole s first => exact ⟨halign, hmapped, fun t ht => hloose t (mem_cons_of_mem first ht)⟩
  | start s first =>
    refine ⟨halign, hmapped, ?_⟩
    rintro t (_ | ⟨_, ht⟩)
    · -- the cut is at a whole word, so the rest starts with one
      have hs := hmapped s (mem_cons_self ..)
      exact (hloose first (mem_cons_self ..)).back (paddingNeeded_mod_four hs.1 hoffset)
    · exact hloose t (mem_cons_of_mem first ht)

/-! ## Progress -/

/-- The file is one head short of where its first mapped segment `s` stands right: it would behind one more head. -/
def IsHeadShortOf (l : Layout) (s : Segment) : Prop :=
  l.mapped.head? = some s ∧
    (l.offset + segmentHeadSize + segmentHeadSize) % pageSize = s.address.toNat % pageSize

instance (l : Layout) (s : Segment) : Decidable (l.IsHeadShortOf s) := inferInstanceAs (Decidable (_ ∧ _))

theorem place_of_whole {piece : Segment} {mapped loose : List Segment} (hoffset : l.offset % 4 = 0)
    (hpiece : piece.data.length % 4 = 0) : ∃ next, l.place piece mapped loose = .ok next := by
  have hsize : segmentHeadSize = 8 := rfl
  rw [place_eq, if_pos (by omega)]
  exact ⟨_, rfl⟩

/-- A gap between whole words is filled with whole words. -/
theorem fillGap_mod_four {n : Nat} {loose : List Segment} (hn : n % 4 = 0) (hloose : ∀ s ∈ loose, s.IsWhole) :
    (fillGap n loose).1.data.length % 4 = 0 := by
  obtain hzeros | ⟨first, others, rfl, -, ⟨-, hused⟩ | ⟨hlt, hcut⟩⟩ := fillGap_cases n loose
  · rw [hzeros]
    exact (congrArg (· % 4) length_replicate).trans hn
  · rw [hused]
    exact (hloose first (mem_cons_self ..)).2
  · rw [hcut]
    exact (congrArg (· % 4) (length_take_of_le (Nat.le_of_lt hlt))).trans hn

/-- A state of whole words has a step unless it is one head short. -/
theorem IsWhole.step_ok (hl : l.IsWhole) (hshort : ∀ s, ¬ l.IsHeadShortOf s) : ∃ next, l.step = .ok next := by
  obtain ⟨mapped, loose, offset, placed⟩ := l
  cases mapped with
  | nil => exact ⟨_, rfl⟩
  | cons s rest =>
    have hs := hl.mapped s (mem_cons_self ..)
    by_cases hpadding : 0 < paddingNeeded s offset
    · rw [step_eq_fill hpadding]
      exact place_of_whole hl.offset (fillGap_mod_four (paddingNeeded_mod_four hs.1 hl.offset) hl.loose)
    · -- no data is needed: there is no gap, or one that only has room for a head
      have hzero : paddingNeeded s offset = 0 := by omega
      rw [step_eq_place hzero]
      obtain hgap | hgap := paddingNeeded_eq_zero_iff.1 hzero
      · rw [if_pos (gapBefore_eq_zero_iff.1 hgap)]
        exact place_of_whole hl.offset hs.2
      · exact absurd ⟨rfl, (gapBefore_eq_iff (by decide)).1 hgap⟩ (hshort s)

/-- One head short of the first mapped segment, the layout fails at it. -/
theorem IsHeadShortOf.step_error {s : Segment} (h : l.IsHeadShortOf s) :
    l.step = .error (.segmentOffset l.offset s.address) := by
  obtain ⟨mapped, loose, offset, placed⟩ := l
  obtain ⟨hfirst, hshort⟩ := h
  obtain ⟨rest, rfl⟩ := head?_eq_some_iff.1 hfirst
  have hgap : gapBefore s offset = segmentHeadSize := (gapBefore_eq_iff (by decide)).2 hshort
  rw [step_eq_place (paddingNeeded_eq_zero_iff.2 (.inr hgap)), if_neg]
  intro hright
  rw [gapBefore_eq_zero_iff.2 hright] at hgap
  exact nomatch hgap

theorem IsHeadShortOf.mapped_ne_nil {s : Segment} (h : l.IsHeadShortOf s) : l.mapped ≠ [] := by
  intro hnil
  rw [IsHeadShortOf, hnil] at h
  exact nomatch h.1

/-- A run over whole words fails exactly where it comes one head short of a mapped segment. -/
theorem IsWhole.run_eq_error_iff (hl : l.IsWhole) {f : Failure} : l.run = .error f ↔
      ∃ last s, Reaches l last ∧ last.IsHeadShortOf s ∧ f = .segmentOffset last.offset s.address := by
  rw [Layout.run_eq_error_iff]
  constructor
  · rintro ⟨last, hreach, -, hstep⟩
    have hlast : last.IsWhole := hreach.invariant (fun _ _ => IsWhole.moves) hl
    by_cases hshort : ∃ s, last.IsHeadShortOf s
    · obtain ⟨s, hs⟩ := hshort
      exact ⟨last, s, hreach, hs, Except.error.inj (hstep.symm.trans hs.step_error)⟩
    · obtain ⟨next, hnext⟩ := hlast.step_ok (not_exists.1 hshort)
      exact nomatch hstep.symm.trans hnext
  · rintro ⟨last, s, hreach, hs, rfl⟩
    exact ⟨last, hreach, hs.mapped_ne_nil, hs.step_error⟩

end Layout

/-! ## Files -/

theorem length_body (header : Bytes) (segments : List Segment) : header.length < (body header segments).length := by
  unfold body
  simp only [length_append, length_singleton, Bytes.length_resize, length_set]
  omega

/-- Behind a whole header, only the layout can fail. -/
theorem serialize_eq {img : BootImage} (h : img.header.length = headerSize) (digest : Bool) : img.serialize digest =
      (padSegments img.segments headerSize).map fun laid => finish digest (body img.header laid) := by
  unfold serialize
  rw [h]
  cases padSegments img.segments headerSize with
  | error f => rfl
  | ok laid =>
    have hlength : headerSize < (body img.header laid).length := h ▸ length_body img.header laid
    show (if (body img.header laid).length ≤ digestFlagOffset then _ else _) = _
    rw [if_neg (Nat.not_le.2 (Nat.lt_trans (by decide : digestFlagOffset < headerSize) hlength))]
    rfl

theorem serialize_eq_error_iff {img : BootImage} (h : img.header.length = headerSize) {digest : Bool} {f : Failure} :
    img.serialize digest = .error f ↔ padSegments img.segments headerSize = .error f := by
  rw [serialize_eq h]
  cases padSegments img.segments headerSize <;> simp [Except.map]

/-- An image of whole words has a file, unless its layout comes to a gap as long as a head: there it fails, and
that is the only way to fail. -/
theorem serialize_whole_words (img : BootImage) (digest : Bool) (hheader : img.header.length = headerSize)
    (hwhole : ∀ s ∈ img.segments, s.IsWhole) :
    ((∃ file, img.serialize digest = .ok file) ↔
      ∀ l s, Layout.Reaches (.ofSegments img.segments headerSize) l → ¬ l.IsHeadShortOf s) ∧
    ∀ f, img.serialize digest = .error f ↔
      ∃ l s, Layout.Reaches (.ofSegments img.segments headerSize) l ∧ l.IsHeadShortOf s ∧
        f = .segmentOffset l.offset s.address := by
  have hfail : ∀ f, img.serialize digest = .error f ↔
      ∃ l s, Layout.Reaches (.ofSegments img.segments headerSize) l ∧ l.IsHeadShortOf s ∧
        f = .segmentOffset l.offset s.address := by
    intro f
    rw [serialize_eq_error_iff hheader]
    exact (Layout.IsWhole.ofSegments hwhole rfl).run_eq_error_iff
  refine ⟨⟨?_, ?_⟩, hfail⟩
  · rintro ⟨file, hfile⟩ l s hreach hshort
    exact nomatch hfile.symm.trans ((hfail _).2 ⟨l, s, hreach, hshort, rfl⟩)
  · intro hright
    cases hfile : img.serialize digest with
    | ok file => exact ⟨file, rfl⟩
    | error f =>
      obtain ⟨l, s, hreach, hshort, -⟩ := (hfail f).1 hfile
      exact absurd hshort (hright l s hreach)

/-- An image whose first gap is filled with the start of its loose segment. -/
def cutImage : BootImage :=
  ⟨magic :: List.replicate 23 0, "esp32",
    [⟨0x3F400034, true, true, [1, 2, 3, 4]⟩, ⟨0x3FFB0000, false, false, List.replicate 16 1⟩]⟩

theorem serialize_whole_words_cut :
    cutImage.header.length = headerSize ∧ (∀ s ∈ cutImage.segments, s.IsWhole) ∧
      ∃ file, cutImage.serialize true = .ok file := by
  have hheader : cutImage.header.length = headerSize := rfl
  have hwhole : ∀ s ∈ cutImage.segments, s.IsWhole := by decide
  have hstart : Layout.ofSegments cutImage.segments headerSize =
      ⟨[⟨0x3F400034, true, true, [1, 2, 3, 4]⟩], [⟨0x3FFB0000, false, false, List.replicate 16 1⟩], 24, []⟩ := by
    rw [Layout.ofSegments, byAddress, List.mergeSort_of_pairwise (by decide)]
    rfl
  have hcut : Layout.step
      ⟨[⟨0x3F400034, true, true, [1, 2, 3, 4]⟩], [⟨0x3FFB0000, false, false, List.replicate 16 1⟩], 24, []⟩ =
      .ok ⟨[⟨0x3F400034, true, true, [1, 2, 3, 4]⟩], [⟨0x3FFB000C, false, false, List.replicate 4 1⟩], 44,
        [⟨0x3FFB0000, false, false, List.replicate 12 1⟩]⟩ := by cbv
  have hplace : Layout.step
      ⟨[⟨0x3F400034, true, true, [1, 2, 3, 4]⟩], [⟨0x3FFB000C, false, false, List.replicate 4 1⟩], 44,
        [⟨0x3FFB0000, false, false, List.replicate 12 1⟩]⟩ =
      .ok ⟨[], [⟨0x3FFB000C, false, false, List.replicate 4 1⟩], 56,
        [⟨0x3F400034, true, true, [1, 2, 3, 4]⟩, ⟨0x3FFB0000, false, false, List.replicate 12 1⟩]⟩ := by cbv
  refine ⟨hheader, hwhole, (serialize_whole_words cutImage true hheader hwhole).1.2 ?_⟩
  intro l s hreach hshort
  rw [hstart] at hreach
  obtain rfl | hreach := hreach.eq_or_next hcut
  · obtain rfl := Option.some.inj hshort.1
    exact absurd hshort.2 (by decide)
  obtain rfl | hreach := hreach.eq_or_next hplace
  · obtain rfl := Option.some.inj hshort.1
    exact absurd hshort.2 (by decide)
  · obtain rfl := hreach.eq_of_nil rfl
    cases hshort.1

/-- A mapped segment one head behind the header. -/
def headShortImage : BootImage :=
  ⟨magic :: List.replicate 23 0, "esp32", [⟨0x3F400028, true, true, [1, 2, 3, 4]⟩]⟩

/-- It consists of whole words and has no file. -/
theorem serialize_headShortImage :
    headShortImage.header.length = headerSize ∧ (∀ s ∈ headShortImage.segments, s.IsWhole) ∧
      headShortImage.serialize false = .error (.segmentOffset 24 0x3F400028) := by
  refine ⟨rfl, by decide, ?_⟩
  cbv

end BootImage
end Firmware
