import Firmware.BootImage.Basic
import Firmware.Sha256

/-!
# Writing boot images

Mapped segments have to stand in the file where the flash cache can map them: the file offset of
the data is congruent to its address modulo 64 KB. Gaps are filled with pieces of the segments that
are not mapped, and with zeros once those are used up. A mapped segment that would end too close
behind the start of a page is extended, because the boot loader does not map so short a tail.

The body is completed to a multiple of 16 bytes, its last byte combines all data bytes by exclusive
or, and a digest may follow.
-/

namespace Firmware
namespace BootImage

def pageSize : Nat := 0x10000

def shortestTail : Nat := 0x24

/-- What the exclusive or of the data starts from. -/
def checksumSeed : UInt8 := 0xEF

/-- Completes a mapped segment whose last page holds too little of it. -/
def Segment.extendTail (s : Segment) : Segment :=
  let left := s.stop.toNat % pageSize
  if left < shortestTail then
    { s with data := s.data ++ List.replicate (shortestTail - left) 0 }
  else s

/-- How far the file has to go on from `offset` for a mapped segment to stand right in it. -/
def gapBefore (s : Segment) (offset : Nat) : Nat :=
  let wanted := (s.address - segmentHeadSize.toUInt32).toNat % pageSize
  (wanted + pageSize - offset % pageSize) % pageSize

/-- How many bytes of data to put in front of a mapped segment when the file is at `offset`: none
when it stands right, and none in a gap that is as long as the head of the data. -/
def paddingNeeded (s : Segment) (offset : Nat) : Nat :=
  let gap := gapBefore s offset
  if gap == 0 then 0
  else if segmentHeadSize ≤ gap then gap - segmentHeadSize
  else gap + pageSize - segmentHeadSize

/-- What is needed fills the gap together with the head in front of it, or that much and a page where the gap has no
room for a head. -/
theorem paddingNeeded_cases (s : Segment) (offset : Nat) :
    gapBefore s offset = 0 ∧ paddingNeeded s offset = 0 ∨
    segmentHeadSize ≤ gapBefore s offset ∧ segmentHeadSize + paddingNeeded s offset = gapBefore s offset ∨
    0 < gapBefore s offset ∧ gapBefore s offset < segmentHeadSize ∧
      segmentHeadSize + paddingNeeded s offset = gapBefore s offset + pageSize := by
  have hsize : segmentHeadSize = 8 := rfl
  have hpage : pageSize = 65536 := rfl
  unfold paddingNeeded
  by_cases hzero : gapBefore s offset = 0
  · simp [hzero]
  · by_cases hle : segmentHeadSize ≤ gapBefore s offset
    · simp [hzero, hle]
    · simp [hzero, hle]
      omega

def Segment.zeros (n : Nat) : Segment := ⟨0, false, false, List.replicate n 0⟩

def Segment.front (s : Segment) (n : Nat) : Segment := { s with data := s.data.take n }

/-- What stands behind the first `n` bytes of a segment. -/
def Segment.back (s : Segment) (n : Nat) : Segment :=
  { s with address := s.address + n.toUInt32, data := s.data.drop n }

/-- A segment of at most `n` bytes that fills a gap: the start of the first segment that is not
mapped, or zeros. Gives the segments that are left. -/
def fillGap (n : Nat) : List Segment → Segment × List Segment
  | [] => (.zeros n, [])
  | s :: rest =>
    if n ≤ segmentHeadSize then (.zeros n, s :: rest)
    else if s.data.length ≤ n then (s, rest)
    else (s.front n, s.back n :: rest)

/-- A file that is laid out: the segments that are left, the offset that the file has come to, and
what stands in it, last first. -/
structure Layout where
  mapped : List Segment
  loose : List Segment
  offset : Nat
  placed : List Segment := []
deriving DecidableEq, Repr

namespace Layout

/-- Puts a piece behind what stands in the file. -/
def place (l : Layout) (piece : Segment) (mapped loose : List Segment) : Except Failure Layout :=
  let offset := l.offset + segmentHeadSize + piece.data.length
  if offset % 4 != 0 then .error (.unalignedOffset offset)
  else .ok ⟨mapped, loose, offset, piece :: l.placed⟩

/-- Places the first mapped segment, or fills the gap in front of it with one piece. -/
def step (l : Layout) : Except Failure Layout :=
  match l.mapped with
  | [] => .ok l
  | s :: rest =>
    let padding := paddingNeeded s l.offset
    if 0 < padding then
      let (piece, loose) := fillGap padding l.loose
      l.place piece (s :: rest) loose
    else if (l.offset + segmentHeadSize) % pageSize != s.address.toNat % pageSize then
      .error (.segmentOffset l.offset s.address)
    else l.place s rest l.loose

/-- A bound for the number of steps that are left: a mapped segment takes a step to fill the gap in
front of it and one to be placed, and each loose segment may be used up in one more. -/
def left (l : Layout) : Nat :=
  2 * l.mapped.length + l.loose.length +
    match l.mapped with
    | [] => 0
    | s :: _ => if paddingNeeded s l.offset = 0 then 0 else 1

/-- Data of the length that is needed fills the gap, together with what stands in front of it. -/
theorem gapBefore_filled {s : Segment} {offset : Nat} (h : 0 < paddingNeeded s offset) :
    gapBefore s (offset + segmentHeadSize + paddingNeeded s offset) = 0 := by
  have hsize : segmentHeadSize = 8 := rfl
  have hpage : pageSize = 65536 := rfl
  have hpadding := paddingNeeded_cases s offset
  generalize paddingNeeded s offset = n at h hpadding ⊢
  simp only [gapBefore, hsize, hpage] at hpadding ⊢
  generalize (s.address - Nat.toUInt32 8).toNat = wanted at hpadding ⊢
  omega

theorem paddingNeeded_filled {s : Segment} {offset : Nat} (h : 0 < paddingNeeded s offset) :
    paddingNeeded s (offset + segmentHeadSize + paddingNeeded s offset) = 0 := by
  rw [paddingNeeded, gapBefore_filled h]
  rfl

/-- What a gap is filled with: zeros, a loose segment that is used up, or the start of a longer one. -/
theorem fillGap_cases (n : Nat) (loose : List Segment) :
    fillGap n loose = (.zeros n, loose) ∨
    ∃ s rest, loose = s :: rest ∧ segmentHeadSize < n ∧
      (s.data.length ≤ n ∧ fillGap n loose = (s, rest) ∨
        n < s.data.length ∧ fillGap n loose = (s.front n, s.back n :: rest)) := by
  cases loose with
  | nil => exact .inl rfl
  | cons s rest =>
    by_cases hshort : n ≤ segmentHeadSize
    · exact .inl (by simp [fillGap, hshort])
    · refine .inr ⟨s, rest, rfl, Nat.lt_of_not_le hshort, ?_⟩
      by_cases hle : s.data.length ≤ n
      · exact .inl ⟨hle, by simp [fillGap, hshort, hle]⟩
      · exact .inr ⟨Nat.lt_of_not_le hle, by simp [fillGap, hshort, hle]⟩

theorem eq_of_place {l next : Layout} {piece : Segment} {mapped loose : List Segment}
    (h : l.place piece mapped loose = .ok next) :
    next = ⟨mapped, loose, l.offset + segmentHeadSize + piece.data.length, piece :: l.placed⟩ := by
  unfold place at h
  dsimp only at h
  split at h
  · exact nomatch h
  · exact (Except.ok.inj h).symm

theorem left_le (l : Layout) : l.left ≤ 2 * l.mapped.length + l.loose.length + 1 := by
  unfold left
  split
  · omega
  · split <;> omega

theorem left_of_gap {s : Segment} {rest loose placed : List Segment} {offset : Nat} (h : 0 < paddingNeeded s offset) :
    left ⟨s :: rest, loose, offset, placed⟩ = 2 * (s :: rest).length + loose.length + 1 := by
  simp only [left, if_neg (Nat.ne_of_gt h)]

theorem left_of_right {s : Segment} {rest loose placed : List Segment} {offset : Nat} (h : paddingNeeded s offset = 0) :
    left ⟨s :: rest, loose, offset, placed⟩ = 2 * (s :: rest).length + loose.length := by
  simp only [left, if_pos h, Nat.add_zero]

/-- A piece in a gap fills it, or uses up a loose segment. -/
theorem left_fill {s : Segment} {rest loose placed : List Segment} {offset : Nat} (h : 0 < paddingNeeded s offset) :
    left ⟨s :: rest, (fillGap (paddingNeeded s offset) loose).2,
      offset + segmentHeadSize + (fillGap (paddingNeeded s offset) loose).1.data.length,
      (fillGap (paddingNeeded s offset) loose).1 :: placed⟩ < left ⟨s :: rest, loose, offset, placed⟩ := by
  rw [left_of_gap h]
  -- where the piece has the length that is needed, the segment stands right behind it
  have hfilled : ∀ (piece : Segment) (loose' : List Segment), piece.data.length = paddingNeeded s offset →
      loose'.length = loose.length →
      left ⟨s :: rest, loose', offset + segmentHeadSize + piece.data.length, piece :: placed⟩ <
        2 * (s :: rest).length + loose.length + 1 := by
    intro piece loose' hlength hloose
    rw [hlength, left_of_right (paddingNeeded_filled h), hloose]
    exact Nat.lt_succ_self _
  obtain hzeros | ⟨first, others, rfl, -, ⟨-, hused⟩ | ⟨hlt, hcut⟩⟩ := fillGap_cases (paddingNeeded s offset) loose
  · rw [hzeros]
    exact hfilled _ _ List.length_replicate rfl
  · rw [hused]
    exact Nat.lt_of_le_of_lt (left_le _) (Nat.lt_succ_self _)
  · rw [hcut]
    exact hfilled _ _ (List.length_take_of_le (Nat.le_of_lt hlt)) (by rw [List.length_cons, List.length_cons])

theorem left_step {l next : Layout} (hne : l.mapped ≠ []) (h : l.step = .ok next) :
    next.left < l.left := by
  obtain ⟨mapped, loose, offset, placed⟩ := l
  obtain ⟨s, rest, rfl⟩ := List.exists_cons_of_ne_nil hne
  unfold step at h
  dsimp only at h
  split at h
  next hpadding =>
    obtain rfl := eq_of_place h
    exact left_fill hpadding
  next hpadding =>
    split at h
    · exact nomatch h
    · obtain rfl := eq_of_place h
      rw [left_of_right (Nat.eq_zero_of_not_pos hpadding)]
      refine Nat.lt_of_le_of_lt (left_le _) ?_
      simp only [List.length_cons]
      omega

/-- Takes steps until all mapped segments are placed. The loose ones that are left come last. -/
def run (l : Layout) : Except Failure (List Segment) :=
  if _hne : l.mapped = [] then .ok (l.placed.reverse ++ l.loose)
  else
    match _hstep : l.step with
    | .error f => .error f
    | .ok next => next.run
termination_by l.left
decreasing_by exact left_step _hne _hstep

end Layout

/-- Orders segments by address; equal ones keep their order. -/
def byAddress (segments : List Segment) : List Segment :=
  segments.mergeSort fun a b => a.address ≤ b.address

/-- The file of segments behind a header of `offset` bytes, before anything is placed. -/
def Layout.ofSegments (segments : List Segment) (offset : Nat) : Layout :=
  let sorted := byAddress segments
  { mapped := (sorted.filter (·.isMapped)).map Segment.extendTail
    loose := sorted.filter (!·.isMapped)
    offset }

/-- The segments as they stand in the file behind a header of `offset` bytes. -/
def padSegments (segments : List Segment) (offset : Nat) : Except Failure (List Segment) :=
  (Layout.ofSegments segments offset).run

def Segment.encode (s : Segment) : Bytes :=
  Bytes.ofWord32 s.address ++ Bytes.ofWord32 s.data.length.toUInt32 ++ s.data

/-- The body of an image with the given segments: the header with their number in its second byte,
the segments, zeros, and the checksum. -/
def body (header : Bytes) (segments : List Segment) : Bytes :=
  let content : Bytes := header.set 1 segments.length.toUInt8 ++ segments.flatMap Segment.encode
  let size := (content.length + 16) / 16 * 16
  let checksum := segments.foldl (fun acc s => Bytes.xorFrom acc s.data) checksumSeed
  content.resize (size - 1) 0 ++ [checksum]

/-- Notes in a body whether a digest follows, and puts it behind it. -/
def finish (digest : Bool) (b : Bytes) : Bytes :=
  let b := b.set digestFlagOffset (if digest then 1 else 0)
  if digest then b ++ Sha256.digest b else b

/-- The contents of the file of an image. -/
def serialize (img : BootImage) (digest : Bool) : Except Failure Bytes := do
  let segments ← padSegments img.segments img.header.length
  let b := body img.header segments
  if b.length ≤ digestFlagOffset then throw .outOfRange
  else return finish digest b

end BootImage
end Firmware
