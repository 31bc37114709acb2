import Mathlib.Data.List.Perm.Basic
import Firmware.Procedure.Building

/-!
# Names of cells

Cells are named for the assembler by three schemes, and only the end of a name tells cells apart: the last character
that is no digit says by which scheme the name was made, and the digits behind it are the number of the cell under that
scheme. What stands in front is made of the declared name. It may be the same for many cells, and it may imitate any of
the schemes.

Each scheme has a counter of its own. Clearing a procedure sets two of them back, along with the cells that they
numbered, and lets the count of declarations run on. So the cells of a procedure carry different numbers under each
scheme (`Numbered`), whatever was made and cleared before.
-/

namespace Firmware

open List

/-! ## The end of a name -/

/-- What the cells of a scheme are numbered by. -/
inductive Counter where
  | arguments
  | locals
  | declarations
deriving DecidableEq, Repr

/-- The character in front of the number. -/
def Counter.letter : Counter → Char
  | .arguments => 'g'
  | .locals => 'U'
  | .declarations => '_'

theorem Counter.isDigit_letter (k : Counter) : k.letter.isDigit = false := by
  cases k <;> decide

theorem Counter.letter_injective : Function.Injective Counter.letter := by
  intro k j h
  cases k <;> cases j <;> simp [letter] at h ⊢

/-- The character in front of the digits at the end of a text, and these digits. -/
def Text.ending (s : String) : Option Char × List Char :=
  let cs := s.toList.reverse
  ((cs.dropWhile Char.isDigit).head?, (cs.takeWhile Char.isDigit).reverse)

theorem Text.ending_eq {s : String} {front : List Char} {c : Char} {n : Nat}
    (h : s.toList = front ++ c :: Nat.toDigits 10 n) (hc : c.isDigit = false) :
    ending s = (some c, Nat.toDigits 10 n) := by
  have hdigits : ∀ d ∈ (Nat.toDigits 10 n).reverse, d.isDigit = true := by
    intro d hd
    exact Nat.isDigit_of_mem_toDigits (by decide) (by decide) (mem_reverse.1 hd)
  have hrev : s.toList.reverse = (Nat.toDigits 10 n).reverse ++ c :: front.reverse := by
    rw [h, reverse_append, reverse_cons, append_assoc, singleton_append]
  have hnot : ¬ c.isDigit = true := by rw [hc]; exact Bool.false_ne_true
  simp only [ending, hrev, takeWhile_append_of_pos hdigits, dropWhile_append_of_pos hdigits,
    takeWhile_cons_of_neg hnot, dropWhile_cons_of_neg hnot, append_nil, reverse_reverse, head?_cons]

namespace Cell

/-- The scheme by which the cell is named and its number there. -/
def mark (c : Cell) : Counter × Nat :=
  match c.place with
  | .argument => (.arguments, c.index.toNat)
  | .temporary => (.locals, c.index.toNat)
  | _ => (.declarations, c.serial)

theorem exists_front {c : Cell} (h : 0 ≤ c.index) :
    ∃ front, c.uniqueName.toList = front ++ c.mark.1.letter :: Nat.toDigits 10 c.mark.2 := by
  obtain ⟨i, hi⟩ := Int.eq_ofNat_of_zero_le h
  have hdecimal : ∀ n : Nat, (Numeral.decimal n).toList = Nat.toDigits 10 n := fun n => String.toList_ofList
  rw [uniqueName, mark, hi]
  cases c.place with
  | argument =>
    refine ⟨['a', 'r'], ?_⟩
    simp only [String.toList_append, hdecimal, Int.toNat_natCast]
    rfl
  | temporary =>
    refine ⟨c.name.toList ++ ['_', '_', '_'], ?_⟩
    simp only [String.toList_append, hdecimal, Int.toNat_natCast, append_assoc]
    rfl
  | _ =>
    refine ⟨(Text.identifier c.name).toList ++ ['_', '_'], ?_⟩
    simp only [String.toList_append, hdecimal, append_assoc]
    rfl

/-- The end of a name can be read back. -/
theorem mark_eq_of_uniqueName_eq {c d : Cell} (hc : 0 ≤ c.index) (hd : 0 ≤ d.index)
    (h : c.uniqueName = d.uniqueName) : c.mark = d.mark := by
  obtain ⟨front, hfront⟩ := exists_front hc
  obtain ⟨front', hfront'⟩ := exists_front hd
  have hread := Text.ending_eq hfront c.mark.1.isDigit_letter
  rw [h, Text.ending_eq hfront' d.mark.1.isDigit_letter, Prod.mk.injEq, Option.some.injEq] at hread
  have hnumber := congrArg (fun cs => Nat.ofDigitChars 10 cs 0) hread.2
  simp only [Nat.ofDigitChars_ten_toDigits] at hnumber
  exact Prod.ext (Counter.letter_injective hread.1.symm) hnumber.symm

end Cell

/-! ## Making cells -/

namespace Procedure

/-- The cells that stand in a procedure. -/
def cells (p : Procedure) : List Cell := p.locals ++ p.args ++ p.captured

/-- The number of the next cell under each scheme. Declarations are counted from one. -/
def next (p : Procedure) : Counter → Nat
  | .arguments => p.args.length
  | .locals => p.locals.length
  | .declarations => p.declarations + 1

/-- No two cells of the procedure have the same number under one scheme, and the next numbers are not taken. -/
structure Numbered (p : Procedure) : Prop where
  nodup : (p.cells.map Cell.mark).Nodup
  lt_next : ∀ c ∈ p.cells, c.mark.2 < p.next c.mark.1
  nonneg : ∀ c ∈ p.cells, 0 ≤ c.index

variable {p q : Procedure} {c : Cell}

theorem numbered_of_cells_eq_nil (h : p.cells = []) : p.Numbered := by
  refine ⟨?_, ?_, ?_⟩ <;> rw [h]
  · exact nodup_nil
  · exact fun _ hc => absurd hc not_mem_nil
  · exact fun _ hc => absurd hc not_mem_nil

/-- A cell with the next number of its scheme comes in, and no count goes down. -/
theorem Numbered.add (h : p.Numbered) (hcells : q.cells.Perm (c :: p.cells)) (hindex : 0 ≤ c.index)
    (hnew : c.mark.2 = p.next c.mark.1) (hgrows : ∀ k, p.next k ≤ q.next k)
    (htaken : p.next c.mark.1 < q.next c.mark.1) : q.Numbered := by
  have hmem : ∀ d ∈ q.cells, d = c ∨ d ∈ p.cells := fun d hd => mem_cons.1 (hcells.mem_iff.1 hd)
  refine ⟨?_, fun d hd => ?_, fun d hd => ?_⟩
  · rw [(hcells.map Cell.mark).nodup_iff, map_cons, nodup_cons]
    refine ⟨fun hmark => ?_, h.nodup⟩
    obtain ⟨d, hd, heq⟩ := mem_map.1 hmark
    have hlt := h.lt_next d hd
    rw [heq, hnew] at hlt
    exact Nat.lt_irrefl _ hlt
  · rcases hmem d hd with rfl | hd
    · rw [hnew]; exact htaken
    · exact Nat.lt_of_lt_of_le (h.lt_next d hd) (hgrows _)
  · rcases hmem d hd with rfl | hd
    · exact hindex
    · exact h.nonneg d hd

/-- A call that makes a cell or clears the procedure. -/
inductive CellCall where
  | makeLocal (name : String) (traits : CellTraits)
  | makeTemporary (traits : CellTraits)
  | makeArgument (name : String) (traits : CellTraits)
  | makeCapture (name : String) (traits : CellTraits)
  | reset

def call (p : Procedure) : CellCall → Procedure
  | .makeLocal name u => (p.makeLocal name u).2
  | .makeTemporary u => (p.makeTemporary u).2
  | .makeArgument name u => (p.makeArgument name u).2
  | .makeCapture name u => (p.makeCapture name u).2
  | .reset => p.reset

theorem Numbered.call (h : p.Numbered) (step : CellCall) : (p.call step).Numbered := by
  cases step with
  | makeLocal name u =>
    refine h.add (c := (p.makeLocal name u).1) ?_ (Int.natCast_nonneg _) rfl (fun k => ?_) (Nat.lt_succ_self _)
    · simp only [cells, Procedure.call, makeLocal, append_assoc, singleton_append]
      exact perm_middle
    · cases k <;> simp [next, Procedure.call, makeLocal]
  | makeTemporary u =>
    refine h.add (c := (p.makeTemporary u).1) ?_ (Int.natCast_nonneg _) rfl (fun k => ?_) ?_
    · simp only [cells, Procedure.call, makeTemporary, append_assoc, singleton_append]
      exact perm_middle
    · cases k <;> simp [next, Procedure.call, makeTemporary]
    · simp [next, Procedure.call, makeTemporary, Cell.mark, CellTraits.cell]
  | makeArgument name u =>
    refine h.add (c := (p.makeArgument name u).1) ?_ (Int.natCast_nonneg _) rfl (fun k => ?_) ?_
    · simp only [cells, Procedure.call, makeArgument, append_assoc, singleton_append]
      rw [← append_assoc, ← append_assoc]
      exact perm_middle
    · cases k <;> simp [next, Procedure.call, makeArgument]
    · simp [next, Procedure.call, makeArgument, Cell.mark, CellTraits.cell]
  | makeCapture name u =>
    refine h.add (c := (p.makeCapture name u).1) ?_ (Int.natCast_nonneg _) rfl (fun k => ?_) (Nat.lt_succ_self _)
    · simp only [cells, Procedure.call, makeCapture, ← append_assoc]
      exact perm_append_singleton _ _
    · cases k <;> simp [next, Procedure.call, makeCapture]
  | reset => exact numbered_of_cells_eq_nil rfl

/-- The procedure after a row of calls. -/
def after (p : Procedure) (steps : List CellCall) : Procedure := steps.foldl call p

theorem Numbered.after (h : p.Numbered) (steps : List CellCall) : (p.after steps).Numbered := by
  induction steps generalizing p with
  | nil => exact h
  | cons step rest ih => exact ih (h.call step)

/-- Whatever cells are made and cleared, and under whatever names, those that stand in the procedure have different
names for the assembler. -/
theorem uniqueNames_nodup (p : Procedure) (hnew : p.cells = []) (steps : List CellCall) :
    ((p.after steps).cells.map Cell.uniqueName).Nodup := by
  have h := (numbered_of_cells_eq_nil hnew).after steps
  rw [Nodup, pairwise_map]
  refine (pairwise_map.1 h.nodup).imp_of_mem fun hc hd hne heq => hne ?_
  exact Cell.mark_eq_of_uniqueName_eq (h.nonneg _ hc) (h.nonneg _ hd) heq

/-- Names that coincide once they are made identifiers, and names that imitate the schemes. -/
theorem uniqueNames_nodup_imitated :
    let p : Procedure := { name := "main", seqNo := 1 }
    let q := p.after [.makeLocal "gone" {}, .makeTemporary {}, .reset, .makeTemporary {}, .makeLocal "a-b" {},
      .makeLocal "a_b" {}, .makeLocal "unnamed1___U0" {}, .makeArgument "arg1" {}, .makeArgument "arg0" {},
      .makeCapture "arg0" {}]
    p.cells = [] ∧ q.cells.map Cell.uniqueName = ["unnamed1___U0", "a_b___2", "a_b___3", "unnamed1___U0___4", "arg0",
      "arg1", "arg0___7"] ∧ (q.cells.map Cell.uniqueName).Nodup :=
  ⟨rfl, by decide +kernel, uniqueNames_nodup _ rfl _⟩

end Procedure
end Firmware
