import Firmware.BootImage.Layout

/-!
# Laying out step by step

A layout is a machine that takes one step for each piece that goes into the file. This module says once what a step
can do (`Moves`), which states a run passes through (`Reaches`) and how a run ends: with all mapped segments placed
(`run_eq_ok_iff`), or in a state that has no step (`run_eq_error_iff`). What all steps keep holds at the end of a run
(`Reaches.invariant`).
-/

namespace Firmware
namespace BootImage
namespace Layout

variable {l last next : Layout} {loose placed rest : List Segment} {s : Segment} {offset : Nat}

/-! ## Steps -/

/-- What a step can do: the first mapped segment is placed where it stands right, or a piece goes into the gap in front
of it, which consists of zeros, or is a loose segment, or the start of one that is longer than what is needed. -/
inductive Moves : Layout → Layout → Prop
  | place (s : Segment) (rest loose : List Segment) (offset : Nat) (placed : List Segment)
      (hpadding : paddingNeeded s offset = 0)
      (hright : (offset + segmentHeadSize) % pageSize = s.address.toNat % pageSize) :
      Moves ⟨s :: rest, loose, offset, placed⟩ ⟨rest, loose, offset + segmentHeadSize + s.data.length, s :: placed⟩
  | zeros (s : Segment) (rest loose : List Segment) (offset : Nat) (placed : List Segment)
      (hpadding : 0 < paddingNeeded s offset) :
      Moves ⟨s :: rest, loose, offset, placed⟩
        ⟨s :: rest, loose, offset + segmentHeadSize + paddingNeeded s offset,
          .zeros (paddingNeeded s offset) :: placed⟩
  | whole (s first : Segment) (rest loose : List Segment) (offset : Nat) (placed : List Segment)
      (hpadding : segmentHeadSize < paddingNeeded s offset) (hshort : first.data.length ≤ paddingNeeded s offset) :
      Moves ⟨s :: rest, first :: loose, offset, placed⟩
        ⟨s :: rest, loose, offset + segmentHeadSize + first.data.length, first :: placed⟩
  | start (s first : Segment) (rest loose : List Segment) (offset : Nat) (placed : List Segment)
      (hpadding : segmentHeadSize < paddingNeeded s offset) (hlong : paddingNeeded s offset < first.data.length) :
      Moves ⟨s :: rest, first :: loose, offset, placed⟩
        ⟨s :: rest, first.back (paddingNeeded s offset) :: loose,
          offset + segmentHeadSize + paddingNeeded s offset, first.front (paddingNeeded s offset) :: placed⟩

/-- A piece is placed if the file has a multiple of four bytes then. -/
theorem place_eq (l : Layout) (piece : Segment) (mapped loose : List Segment) : l.place piece mapped loose =
      if (l.offset + segmentHeadSize + piece.data.length) % 4 = 0 then
        .ok ⟨mapped, loose, l.offset + segmentHeadSize + piece.data.length, piece :: l.placed⟩
      else .error (.unalignedOffset (l.offset + segmentHeadSize + piece.data.length)) := by
  unfold place
  dsimp only
  by_cases h : (l.offset + segmentHeadSize + piece.data.length) % 4 = 0 <;> simp [h]

theorem step_eq_fill (h : 0 < paddingNeeded s offset) : step ⟨s :: rest, loose, offset, placed⟩ =
      place ⟨s :: rest, loose, offset, placed⟩ (fillGap (paddingNeeded s offset) loose).1 (s :: rest)
        (fillGap (paddingNeeded s offset) loose).2 := by
  unfold step
  dsimp only
  rw [if_pos h]

theorem step_eq_place (h : paddingNeeded s offset = 0) : step ⟨s :: rest, loose, offset, placed⟩ =
      if (offset + segmentHeadSize) % pageSize = s.address.toNat % pageSize then
        place ⟨s :: rest, loose, offset, placed⟩ s rest loose
      else .error (.segmentOffset offset s.address) := by
  unfold step
  dsimp only
  rw [if_neg (by omega)]
  by_cases hright : (offset + segmentHeadSize) % pageSize = s.address.toNat % pageSize <;> simp [hright]

theorem aligned_of_place {piece : Segment} {mapped : List Segment} (h : l.place piece mapped loose = .ok next) :
    next.offset % 4 = 0 := by
  rw [place_eq] at h
  split at h
  next halign =>
    obtain rfl := Except.ok.inj h
    exact halign
  next => exact nomatch h

/-- A gap is filled by one of three moves. -/
theorem moves_fill (h : 0 < paddingNeeded s offset) : Moves ⟨s :: rest, loose, offset, placed⟩
      ⟨s :: rest, (fillGap (paddingNeeded s offset) loose).2,
        offset + segmentHeadSize + (fillGap (paddingNeeded s offset) loose).1.data.length,
        (fillGap (paddingNeeded s offset) loose).1 :: placed⟩ := by
  obtain hzeros | ⟨first, others, rfl, hlong, ⟨hshort, hused⟩ | ⟨hlt, hcut⟩⟩ :=
    fillGap_cases (paddingNeeded s offset) loose
  · have hlength : (Segment.zeros (paddingNeeded s offset)).data.length = paddingNeeded s offset :=
      List.length_replicate
    rw [hzeros, hlength]
    exact .zeros s rest loose offset placed h
  · rw [hused]
    exact .whole s first rest others offset placed hlong hshort
  · have hlength : (first.front (paddingNeeded s offset)).data.length = paddingNeeded s offset :=
      List.length_take_of_le (Nat.le_of_lt hlt)
    rw [hcut, hlength]
    exact .start s first rest others offset placed hlong hlt

/-- Every step is a move, after which the file has a multiple of four bytes. -/
theorem moves_of_step (hne : l.mapped ≠ []) (h : l.step = .ok next) : Moves l next ∧ next.offset % 4 = 0 := by
  obtain ⟨mapped, loose, offset, placed⟩ := l
  obtain ⟨s, rest, rfl⟩ := List.exists_cons_of_ne_nil hne
  by_cases hpadding : 0 < paddingNeeded s offset
  · rw [step_eq_fill hpadding] at h
    have halign := aligned_of_place h
    obtain rfl := eq_of_place h
    exact ⟨moves_fill hpadding, halign⟩
  · have hzero : paddingNeeded s offset = 0 := by omega
    rw [step_eq_place hzero] at h
    split at h
    next hright =>
      have halign := aligned_of_place h
      obtain rfl := eq_of_place h
      exact ⟨.place s rest loose offset placed hzero hright, halign⟩
    next => exact nomatch h

/-! ## Runs -/

/-- The states that a run passes through. -/
inductive Reaches : Layout → Layout → Prop
  | refl (l : Layout) : Reaches l l
  | step {l next last : Layout} (hne : l.mapped ≠ []) (hstep : l.step = .ok next) (hrest : Reaches next last) :
      Reaches l last

/-- What every move to a multiple of four bytes keeps holds at the end. -/
theorem Reaches.invariant {I : Layout → Prop} (hkeep : ∀ l next, Moves l next → next.offset % 4 = 0 → I l → I next)
    (h : Reaches l last) (hl : I l) : I last := by
  induction h with
  | refl => exact hl
  | step hne hstep _ ih =>
    obtain ⟨hmoves, halign⟩ := moves_of_step hne hstep
    exact ih (hkeep _ _ hmoves halign hl)

theorem Reaches.eq_or_next (h : Reaches l last) (hstep : l.step = .ok next) : last = l ∨ Reaches next last := by
  cases h with
  | refl => exact .inl rfl
  | step _ hstep' hrest =>
    obtain rfl := Except.ok.inj (hstep.symm.trans hstep')
    exact .inr hrest

theorem Reaches.eq_of_nil (h : Reaches l last) (hnil : l.mapped = []) : last = l := by
  cases h with
  | refl => rfl
  | step hne => exact absurd hnil hne

theorem run_of_nil (h : l.mapped = []) : l.run = .ok (l.placed.reverse ++ l.loose) := by
  rw [run, dif_pos h]

theorem run_of_step (hne : l.mapped ≠ []) (h : l.step = .ok next) : l.run = next.run := by
  rw [run, dif_neg hne]
  split
  next f hf => cases hf.symm.trans h
  next next' hnext =>
    obtain rfl := Except.ok.inj (hnext.symm.trans h)
    rfl

theorem run_of_error {f : Failure} (hne : l.mapped ≠ []) (h : l.step = .error f) : l.run = .error f := by
  rw [run, dif_neg hne]
  split
  next f' hf =>
    obtain rfl := Except.error.inj (hf.symm.trans h)
    rfl
  next next' hnext => cases hnext.symm.trans h

theorem Reaches.run_eq (h : Reaches l last) : l.run = last.run := by
  induction h with
  | refl => rfl
  | step hne hstep _ ih => rw [run_of_step hne hstep, ih]

/-- A run comes to an end: a state where all mapped segments are placed, or one without a step. -/
theorem exists_end (l : Layout) :
    ∃ last, Reaches l last ∧ (last.mapped = [] ∨ last.mapped ≠ [] ∧ ∃ f, last.step = .error f) := by
  by_cases hnil : l.mapped = []
  · exact ⟨l, .refl l, .inl hnil⟩
  · cases hstep : l.step with
    | error f => exact ⟨l, .refl l, .inr ⟨hnil, f, hstep⟩⟩
    | ok next =>
      have hlt := left_step hnil hstep
      obtain ⟨last, hreach, hend⟩ := exists_end next
      exact ⟨last, .step hnil hstep hreach, hend⟩
termination_by l.left

theorem run_eq_ok_iff {laid : List Segment} :
    l.run = .ok laid ↔ ∃ last, Reaches l last ∧ last.mapped = [] ∧ laid = last.placed.reverse ++ last.loose := by
  constructor
  · intro h
    obtain ⟨last, hreach, hnil | ⟨hne, f, hf⟩⟩ := exists_end l
    · rw [hreach.run_eq, run_of_nil hnil] at h
      exact ⟨last, hreach, hnil, (Except.ok.inj h).symm⟩
    · rw [hreach.run_eq, run_of_error hne hf] at h
      exact nomatch h
  · rintro ⟨last, hreach, hnil, rfl⟩
    rw [hreach.run_eq, run_of_nil hnil]

theorem run_eq_error_iff {f : Failure} :
    l.run = .error f ↔ ∃ last, Reaches l last ∧ last.mapped ≠ [] ∧ last.step = .error f := by
  constructor
  · intro h
    obtain ⟨last, hreach, hnil | ⟨hne, f', hf⟩⟩ := exists_end l
    · rw [hreach.run_eq, run_of_nil hnil] at h
      exact nomatch h
    · rw [hreach.run_eq, run_of_error hne hf] at h
      obtain rfl := Except.error.inj h
      exact ⟨last, hreach, hne, hf⟩
  · rintro ⟨last, hreach, hne, hf⟩
    rw [hreach.run_eq, run_of_error hne hf]

end Layout
end BootImage
end Firmware
