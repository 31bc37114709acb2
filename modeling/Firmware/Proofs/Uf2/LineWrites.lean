import Firmware.Proofs.Uf2.Memory
import Firmware.Proofs.Uf2.RecordLines

/-!
# Lines of any form in block files

Whatever lines are written into a block file, they amount to writes in order (`writeLines_eq`), and a block file stays
sound under all writes (`Sound.foldl_write`). A byte stands where it was written last: what one row of writes leaves is
there after later writes that do not go to its place (`Sound.byteAt?_foldl_write`,
`Sound.byteAt?_foldl_write_of_none`). Which page was written last depends on the writes alone (`last_foldl_write`).
-/

namespace Firmware
namespace Uf2.BlockFile

open List

variable {f : BlockFile} {w : Write} {j : Journal} {a : UInt32} {v : UInt8}

/-! ## Lines -/

/-- What lines write into a block file, where `upper` are the digits of the upper address half, up to a line that cannot
be read. -/
def lineWrites (upper : List Char) : List String → Journal
  | [] => []
  | line :: rest =>
    let upper := (IntelHex.linearDigits? line.toList).getD upper
    match IntelHex.wholeData? line with
    | none => lineWrites upper rest
    | some (low, data) =>
      match Numeral.read (.fixed 16) 32 (Utf8.encode (String.ofList (upper ++ low))), Hexadecimal.decodeChars data with
      | .ok n, .ok b => ⟨n.toUInt32, b⟩ :: lineWrites upper rest
      | _, _ => []

/-- What lines write into a block file, with no base in force in front of them. -/
def linesJournal (lines : List String) : Journal := lineWrites ['0', '0', '0', '0'] lines

theorem writeLines_eq (f : BlockFile) (index : Nat) (upper : List Char) (lines : List String) :
    (f.writeLines index upper lines).1 = f.writeAll (lineWrites upper lines) := by
  induction lines generalizing f index upper with
  | nil => rfl
  | cons line rest ih =>
    unfold writeLines lineWrites
    dsimp only
    cases IntelHex.wholeData? line with
    | none => exact ih f (index + 1) _
    | some found =>
      dsimp only
      cases Numeral.read (.fixed 16) 32 _ with
      | error e => rfl
      | ok n =>
        cases Hexadecimal.decodeChars found.2 with
        | error e => rfl
        | ok b => exact ih (f.write n.toUInt32 b 0) (index + 1) _

/-! ## Writes of any length -/

/-- Every piece of a write lies in one page. -/
theorem inPage_of_mem_pieces (w : Write) {p : Write} (hp : p ∈ pieces w) : p.InPage := by
  have hoff := pageOffset_lt w.address
  rw [pieces_eq] at hp
  split at hp
  next hfit =>
    obtain rfl := mem_singleton.1 hp
    unfold Write.InPage
    omega
  next hcut =>
    obtain rfl | hp := mem_cons.1 hp
    · show pageOffset w.address + (w.data.take _).length ≤ payloadSize
      rw [length_take]
      omega
    · exact inPage_of_mem_pieces _ hp
termination_by w.data.length
decreasing_by simp only [length_drop]; omega

/-- What stands behind a write may be changed where it is what is found there. -/
theorem or_eq_some_mono {first second third : Option UInt8} (h : first.or second = some v)
    (hthird : second = some v → third = some v) : first.or third = some v := by
  cases first with
  | none => exact hthird h
  | some b => exact h

section

variable (h : f.Sound)
include h

/-- A byte that is written into a page, or stood there before, stands in it. -/
theorem Sound.byteAt?_writePage_of_eq_some (hw : w.InPage) (flags : UInt32)
    (hv : (w.byteAt? a).or (f.byteAt? a) = some v) : (f.writePage w.address w.data flags).byteAt? a = some v := by
  rw [byteAt?_writePage h hw]
  by_cases hpage : pageOf a = pageOf w.address
  · rw [if_pos hpage]
    cases hbyte : w.byteAt? a with
    | none =>
      rw [hbyte, Option.none_or] at hv
      rw [hv]
      rfl
    | some b =>
      rw [hbyte] at hv
      exact hv
  · rw [if_neg hpage]
    rwa [hw.byteAt?_other hpage, Option.none_or] at hv

theorem Sound.foldl_writePage (hpieces : ∀ p ∈ j, p.InPage) (flags : UInt32) :
    (j.foldl (fun f p => f.writePage p.address p.data flags) f).Sound ∧ ∀ a v, (j.byteAt? a).or (f.byteAt? a) = some v →
        (j.foldl (fun f p => f.writePage p.address p.data flags) f).byteAt? a = some v := by
  induction j generalizing f with
  | nil => exact ⟨h, fun a v hv => hv⟩
  | cons p rest ih =>
    have hp := hpieces p (mem_cons_self ..)
    obtain ⟨hsound, hbytes⟩ := ih (h.writePage hp flags) fun q hq => hpieces q (mem_cons_of_mem p hq)
    refine ⟨hsound, fun a v hv => hbytes a v ?_⟩
    rw [Journal.byteAt?_cons, Option.or_assoc] at hv
    exact or_eq_some_mono hv fun hfirst => h.byteAt?_writePage_of_eq_some hp flags hfirst

theorem Sound.write (w : Write) (flags : UInt32) : (f.write w.address w.data flags).Sound := by
  rw [write_eq]
  exact (h.foldl_writePage (fun p hp => inPage_of_mem_pieces w hp) flags).1

theorem Sound.byteAt?_write_of_eq_some (hlen : w.data.length ≤ 2 ^ 32) (flags : UInt32)
    (hv : (w.byteAt? a).or (f.byteAt? a) = some v) : (f.write w.address w.data flags).byteAt? a = some v := by
  obtain ⟨hpages, hsame⟩ := pieces_spec w hlen
  rw [write_eq]
  refine (h.foldl_writePage hpages flags).2 a v ?_
  rw [(hsame a).1]
  exact hv

/-! ## Rows of writes -/

theorem Sound.foldl_write (j : Journal) (flags : UInt32) :
    (j.foldl (fun f w => f.write w.address w.data flags) f).Sound := by
  induction j generalizing f with
  | nil => exact h
  | cons w rest ih => exact ih (h.write w flags)

/-- A byte stands where it was written last, or where it stood before. -/
theorem Sound.byteAt?_foldl_write (hlen : ∀ w ∈ j, w.data.length ≤ 2 ^ 32) (flags : UInt32)
    (hv : (j.byteAt? a).or (f.byteAt? a) = some v) :
    (j.foldl (fun f w => f.write w.address w.data flags) f).byteAt? a = some v := by
  induction j generalizing f with
  | nil => exact hv
  | cons w rest ih =>
    have hw := hlen w (mem_cons_self ..)
    refine ih (h.write w flags) (fun u hu => hlen u (mem_cons_of_mem w hu)) ?_
    rw [Journal.byteAt?_cons, Option.or_assoc] at hv
    exact or_eq_some_mono hv fun hfirst => h.byteAt?_write_of_eq_some hw flags hfirst

/-- Writes of any length leave the bytes to which they do not go. -/
theorem Sound.byteAt?_foldl_write_of_none (hnone : ∀ w ∈ j, w.byteAt? a = none) (flags : UInt32)
    (hv : f.byteAt? a = some v) : (j.foldl (fun f w => f.write w.address w.data flags) f).byteAt? a = some v := by
  refine h.byteAt?_foldl_write (fun w hw => ?_) flags ?_
  · -- a write that goes around all of flash leaves no byte alone
    have hle := List.getElem?_eq_none_iff.1 (hnone w hw)
    exact Nat.le_trans hle (Nat.le_of_lt (a - w.address).toNat_lt)
  · rw [Journal.byteAt?_eq_none hnone, Option.none_or, hv]

end

/-! ## The page written last -/

theorem pieces_ne_nil (w : Write) : pieces w ≠ [] := by
  rw [pieces_eq]
  split <;> exact cons_ne_nil _ _

theorem last_foldl_writePage (f g : BlockFile) (hj : j ≠ []) (flags flags' : UInt32) :
    (j.foldl (fun f p => f.writePage p.address p.data flags) f).last =
      (j.foldl (fun f p => f.writePage p.address p.data flags') g).last := by
  obtain ⟨front, p, rfl⟩ := (eq_nil_or_concat j).resolve_left hj
  rw [concat_eq_append, foldl_append, foldl_append]
  rfl

/-- The page written last does not depend on what was written before. -/
theorem last_foldl_write (f g : BlockFile) (hj : j ≠ []) (flags flags' : UInt32) :
    (j.foldl (fun f w => f.write w.address w.data flags) f).last =
      (j.foldl (fun f w => f.write w.address w.data flags') g).last := by
  obtain ⟨front, w, rfl⟩ := (eq_nil_or_concat j).resolve_left hj
  rw [concat_eq_append, foldl_append, foldl_append]
  show (write _ w.address w.data flags).last = (write _ w.address w.data flags').last
  rw [write_eq, write_eq]
  exact last_foldl_writePage _ _ (pieces_ne_nil w) flags flags'

end Uf2.BlockFile
end Firmware
