import Firmware.Image.Link
import Firmware.Proofs.Bytes
import Firmware.Proofs.Template.Reading

/-!
# Rows of a program

A program goes to flash in rows of 16 bytes. As writes, the rows are one write of the program's bytes, completed
with zeros to a whole row (`byteAt?_rowJournal`). As record lines, each row has the lower half of its address, and
a record that sets the upper half stands in front of a row where that changes. The lines write the rows if the
first row finds the base that it expects (`rowRecordsOnto_line`).
-/

namespace Firmware

namespace Image

open IntelHex IntelHex.Entry List

/-! ## Rows as writes -/

/-- The rows of 16 bytes that bytes make up from an address on, the last one completed with zeros. -/
def byteRows (address : UInt32) (b : Bytes) : List (UInt32 × Bytes) :=
  (Bytes.rows 16 b).mapIdx fun i row => (address + (16 * i).toUInt32, Bytes.resize row 16 0)

theorem programRows_eq (address : UInt32) (words : Words) :
    programRows address words = byteRows address words.toBytes := rfl

/-- Rows as writes. -/
def rowJournal (rows : List (UInt32 × Bytes)) : Journal := rows.map fun row => ⟨row.1, row.2⟩

@[simp] theorem byteRows_nil (address : UInt32) : byteRows address [] = [] := by
  unfold byteRows
  rw [Bytes.rows_nil]
  rfl

theorem byteRows_of_ne_nil (address : UInt32) {b : Bytes} (hb : b ≠ []) :
    byteRows address b = (address, Bytes.resize (b.take 16) 16 0) :: byteRows (address + 16) (b.drop 16) := by
  have hstep : ∀ i : Nat, address + (16 * (i + 1)).toUInt32 = address + 16 + (16 * i).toUInt32 := by
    intro i
    rw [Nat.mul_succ, Nat.add_comm, UInt32.add_assoc]
    congr 1
    exact UInt32.ofNat_add ..
  unfold byteRows
  rw [Bytes.rows_of_ne_nil (by decide) hb, mapIdx_cons]
  simp only [hstep]
  congr 1
  rw [Nat.mul_zero]
  congr 1
  exact UInt32.add_zero _

/-- Bytes completed with zeros to whole rows. -/
def wholeRows (b : Bytes) : Bytes := b ++ List.replicate ((b.length + 15) / 16 * 16 - b.length) 0

theorem length_wholeRows (b : Bytes) : (wholeRows b).length = (b.length + 15) / 16 * 16 := by
  unfold wholeRows
  rw [length_append, length_replicate]
  omega

theorem wholeRows_eq {b : Bytes} (hb : b ≠ []) :
    wholeRows b = Bytes.resize (b.take 16) 16 0 ++ wholeRows (b.drop 16) := by
  have hpos := length_pos_iff.2 hb
  unfold wholeRows Bytes.resize
  rw [take_take, Nat.min_self, length_take, length_drop]
  by_cases hlen : 16 ≤ b.length
  · -- a full row is followed by what the rest needs
    rw [Nat.min_eq_left hlen, Nat.sub_self, replicate_zero, append_nil, ← append_assoc, take_append_drop]
    congr 2
    omega
  · rw [take_of_length_le (by omega), drop_of_length_le (by omega), nil_append,
      append_assoc, replicate_append_replicate]
    congr 2
    omega

theorem length_byteRows (address : UInt32) (b : Bytes) : (byteRows address b).length = (b.length + 15) / 16 := by
  by_cases hb : b = []
  · subst hb
    rw [byteRows_nil]
    rfl
  · have hpos := length_pos_iff.2 hb
    rw [byteRows_of_ne_nil address hb, length_cons, length_byteRows (address + 16) (b.drop 16), length_drop]
    omega
termination_by b.length
decreasing_by rw [length_drop]; omega

theorem length_of_mem_byteRows {address : UInt32} {b : Bytes} {row : UInt32 × Bytes}
    (h : row ∈ byteRows address b) : row.2.length = 16 := by
  obtain ⟨i, hi, rfl⟩ := mem_mapIdx.1 h
  exact Bytes.length_resize ..

/-- The rows lie one behind the other, where they do not wrap around. -/
theorem bounds_of_mem_byteRows {address : UInt32} {b : Bytes} (h : address.toNat + (wholeRows b).length ≤ 2 ^ 32)
    {row : UInt32 × Bytes} (hrow : row ∈ byteRows address b) :
    address.toNat ≤ row.1.toNat ∧ row.1.toNat + 16 ≤ address.toNat + (wholeRows b).length := by
  have hlength := length_byteRows address b
  obtain ⟨i, hi, rfl⟩ := mem_mapIdx.1 hrow
  rw [byteRows, length_mapIdx] at hlength
  rw [length_wholeRows] at h ⊢
  have hlimit : (2 : Nat) ^ 32 = 4294967296 := rfl
  have hoffset : (16 * i).toUInt32.toNat = 16 * i := UInt32.toNat_ofNat_of_lt' (by show _ < 4294967296; omega)
  dsimp only
  rw [UInt32.toNat_add, hoffset]
  omega

/-- **Rows as one write.** -/
theorem byteAt?_rowJournal (address : UInt32) {b : Bytes} (h : b.length ≤ 2 ^ 32) (a : UInt32) :
    (rowJournal (byteRows address b)).byteAt? a = Write.byteAt? ⟨address, wholeRows b⟩ a := by
  by_cases hb : b = []
  · subst hb
    rw [byteRows_nil]
    rfl
  · have hpos := length_pos_iff.2 hb
    have hfirst : (Bytes.resize (b.take 16) 16 0).length = 16 := Bytes.length_resize ..
    have hshort : (b.drop 16).length ≤ 2 ^ 32 := by
      rw [length_drop]
      omega
    have hall : (Bytes.resize (b.take 16) 16 0).length + (wholeRows (b.drop 16)).length ≤ 2 ^ 32 := by
      rw [hfirst, length_wholeRows, length_drop]
      omega
    have happend := Write.byteAt?_append address hall (by rw [hfirst]; decide) a
    rw [hfirst] at happend
    rw [byteRows_of_ne_nil address hb, wholeRows_eq hb, ← happend]
    show ((rowJournal (byteRows (address + 16) (b.drop 16))).byteAt? a).or _ = _
    rw [byteAt?_rowJournal (address + 16) hshort a]
    rfl
termination_by b.length
decreasing_by rw [length_drop]; omega

/-! ## Rows as record lines -/

/-- The base that holds for an address. -/
def baseOf (a : UInt32) : UInt32 := a >>> 16 * 65536

theorem toNat_upper (a : UInt32) : (a >>> 16).toNat = a.toNat / 65536 := by
  rw [UInt32.toNat_shiftRight]
  exact Nat.shiftRight_eq_div_pow ..

theorem toNat_baseOf (a : UInt32) : (baseOf a).toNat = a.toNat / 65536 * 65536 := by
  have ha := a.toNat_lt
  unfold baseOf
  rw [UInt32.toNat_mul, toNat_upper]
  show a.toNat / 65536 * 65536 % 4294967296 = _
  omega

/-- An address is put together from its base and its lower half. -/
theorem baseOf_add (a : UInt32) : baseOf a + a.toUInt16.toUInt32 = a := by
  apply UInt32.toNat_inj.1
  rw [Template.toNat_base_add (by rw [toNat_baseOf]; omega), toNat_baseOf, UInt32.toNat_toUInt16]
  show a.toNat / 65536 * 65536 + a.toNat % 65536 = _
  omega

/-- **The lines of rows.** They write the rows, where the first row sets its base or finds it in force, and
leave the base of the last row behind. -/
theorem rowRecordsOnto_line {rows : List (UInt32 × Bytes)} (hlen : ∀ row ∈ rows, row.2.length < 256)
    (upper base : UInt32) (acc : List String)
    (hbase : ∀ row, rows.head? = some row → row.1 >>> 16 = upper → base = baseOf row.1) :
    ∃ es : List Entry, rowRecordsOnto upper acc rows = acc.reverse ++ es.map line ∧ journal base es = rowJournal rows ∧
      baseAfter base es = (rows.getLast?.map fun row => baseOf row.1).getD base ∧
      ∀ e ∈ es, ¬ e.EndsFile := by
  induction rows generalizing upper base acc with
  | nil => exact ⟨[], by simp [rowRecordsOnto], rfl, rfl, fun e he => absurd he not_mem_nil⟩
  | cons row rest ih =>
    obtain ⟨address, data⟩ := row
    have hdata := hlen (address, data) (mem_cons_self ..)
    have hrest := fun r hr => hlen r (mem_cons_of_mem (address, data) hr)
    -- a row puts its base in force, whether it finds it there or sets it
    have hnext : ∀ r, rest.head? = some r → r.1 >>> 16 = address >>> 16 → baseOf address = baseOf r.1 := by
      intro r _ hr
      unfold baseOf
      rw [hr]
    have hlast : (((address, data) :: rest).getLast?.map fun row => baseOf row.1).getD base =
        (rest.getLast?.map fun row => baseOf row.1).getD (baseOf address) := by
      rw [getLast?_cons]
      cases rest.getLast? <;> simp
    have hplace : journal (baseOf address) [ofData address.toUInt16 data hdata] = [⟨address, data⟩] := by
      rw [journal_data (e := ofData ..) rfl]
      show [Write.mk (baseOf address + address.toUInt16.toUInt32) data] = _
      rw [baseOf_add]
    have hnoend : ¬ (ofData address.toUInt16 data hdata).EndsFile := fun h => h.ne_dataType rfl
    rw [hlast, rowRecordsOnto]
    by_cases hupper : address >>> 16 = upper
    · obtain rfl : base = baseOf address := hbase (address, data) rfl hupper
      obtain ⟨es, hlines, hjournal, hafter, hends⟩ := ih hrest upper (baseOf address)
        (renderRecord dataType address.toUInt16 data :: acc) (hupper ▸ hnext)
      refine ⟨ofData address.toUInt16 data hdata :: es, ?_, ?_, ?_, forall_mem_cons.2 ⟨hnoend, hends⟩⟩
      · rw [if_pos (beq_iff_eq.2 hupper), hlines]
        simp [line_ofData]
      · rw [← singleton_append, Entry.journal_append, hplace, baseAfter_data (e := ofData ..) rfl]
        exact congrArg _ hjournal
      · rw [baseAfter_data (e := ofData ..) rfl]
        exact hafter
    · obtain ⟨es, hlines, hjournal, hafter, hends⟩ := ih hrest (address >>> 16) (baseOf address)
        (renderRecord dataType address.toUInt16 data :: linearRecord (address >>> 16) :: acc) hnext
      have hsmall : (address >>> 16).toNat < 65536 := by
        have := address.toNat_lt
        rw [toNat_upper]
        omega
      have hnoupper : ¬ (ofUpper (address >>> 16)).EndsFile := fun h =>
        absurd (show linearType = endType from h.1) (by decide)
      refine ⟨ofUpper (address >>> 16) :: ofData address.toUInt16 data hdata :: es, ?_, ?_, ?_,
        forall_mem_cons.2 ⟨hnoupper, forall_mem_cons.2 ⟨hnoend, hends⟩⟩⟩
      · rw [if_neg (fun h => hupper (beq_iff_eq.1 h)), hlines]
        simp [line_ofData, line_ofUpper]
      · rw [journal_ofUpper hsmall]
        show journal (baseOf address) _ = _
        rw [← singleton_append, Entry.journal_append, hplace, baseAfter_data (e := ofData ..) rfl]
        exact congrArg _ hjournal
      · rw [baseAfter_ofUpper hsmall, baseAfter_data (e := ofData ..) rfl]
        exact hafter

end Image
end Firmware
