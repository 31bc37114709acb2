import Firmware.Proofs.Template.Scan

/-!
# The last row of a template

The program starts at a row of 16 bytes, so the row in which a template ends is completed with zeros: by a longer
record in place of the last one, or by a record of its own behind it. `lastRow` says which records these are, and
`completeRow_line` that they are what the lines get. As long as the last record stays within its 64 KB, the
records put the template's last bytes and the zeros side by side (`byteAt?_journal_lastRow`); otherwise a
record of its own lands 64 KB too low.
-/

open List

namespace Firmware
namespace IntelHex
namespace Entry

/-- A data record of zeros. -/
def zeros (address : UInt16) (n : Nat) (h : n < 256) : Entry :=
  ofData address (List.replicate n 0) (by rw [length_replicate]; exact h)

/-- An entry with its data completed to 16 bytes. -/
def completed (e : Entry) : Entry :=
  { e with
    data := e.data ++ List.replicate (16 - e.data.length) 0
    length_lt := by
      have := e.length_lt
      rw [length_append, length_replicate]
      omega }

end Entry
end IntelHex

namespace Template

open IntelHex IntelHex.Entry

/-- The number of bytes that are missing in the row that ends at `stop`. -/
def missing (stop : UInt32) : Nat := (16 - stop.toNat % 16) % 16

theorem missing_lt (stop : UInt32) : missing stop < 16 := Nat.mod_lt _ (by decide)

/-- The records that end a template, where its last record is `d` and ends at `stop`. -/
def lastRow (d : Entry) (stop : UInt32) : List Entry :=
  if missing stop = 0 then [d]
  else if d.address.toNat % 16 ≠ 0 ∨ 16 < d.data.length then
    [d, zeros stop.toUInt16 (missing stop) (Nat.lt_trans (missing_lt stop) (by decide))]
  else [d.completed]

theorem length_lastRow (d : Entry) (stop : UInt32) : (lastRow d stop).length = 1 ∨ (lastRow d stop).length = 2 := by
  unfold lastRow
  split
  · exact .inl rfl
  · split
    · exact .inr rfl
    · exact .inl rfl

/-! ## The lines -/

theorem toNat_missing (stop : UInt32) : ((0x10 - (stop &&& 0xf)) &&& 0xf).toNat = missing stop := by
  have hmask : ∀ w : UInt32, (w &&& 0xf).toNat = w.toNat % 16 := by
    intro w
    rw [UInt32.toNat_and]
    exact Nat.and_two_pow_sub_one_eq_mod w.toNat 4
  rw [hmask, UInt32.toNat_sub, hmask]
  show (4294967296 - stop.toNat % 16 + 16) % 4294967296 % 16 = (16 - stop.toNat % 16) % 16
  omega

theorem insertIdx_length_append (l m : List String) (x : String) : (l ++ m).insertIdx l.length x = l ++ x :: m := by
  induction l with
  | nil => exact insertIdx_zero
  | cons y l ih => rw [cons_append, length_cons, insertIdx_succ_cons, ih, cons_append]

theorem dropLast_bytes (e : Entry) :
    e.bytes.dropLast = e.data.length.toUInt8 :: (e.addressBytes ++ e.type :: e.data) := by
  have hsplit : e.bytes = (e.data.length.toUInt8 :: (e.addressBytes ++ e.type :: e.data)) ++ [e.checksum] := by
    simp [Entry.bytes]
  rw [hsplit, dropLast_concat]

/-- Completing the row of a record line gives the lines of its last row. The row starts where the address of
the record says, as bases are multiples of 16. -/
theorem completeRow_line (pre : List Entry) (d : Entry) (post : List Entry) {a stop : UInt32}
    (ha : a.toNat % 16 = d.address.toNat % 16) (hstop : stop = a + d.data.length.toUInt32) :
    completeRow ((pre ++ d :: post).map line) ⟨pre.length, a⟩ =
      .ok ⟨(pre ++ lastRow d stop ++ post).map line, pre.length + ((lastRow d stop).length - 1),
        decide ((lastRow d stop).length = 2), stop + (missing stop).toUInt32⟩ := by
  have hlen := d.length_lt
  have hlines : (pre ++ d :: post).map line = pre.map line ++ d.line :: post.map line := by
    rw [map_append, map_cons]
  have hindex : pre.length = (pre.map line).length := length_map .. |>.symm
  have hget : ((pre ++ d :: post).map line).getD pre.length "" = d.line := by
    rw [hlines, hindex, getD_eq_getElem?_getD, getElem?_append_right (Nat.le_refl _), Nat.sub_self]
    rfl
  have hcount : d.data.length.toUInt8.toUInt32 = d.data.length.toUInt32 := by
    apply UInt32.toNat_inj.1
    rw [UInt8.toNat_toUInt32, d.toNat_length]
    exact (UInt32.toNat_ofNat_of_lt' (Nat.lt_trans hlen (by decide))).symm
  have hlow : d.address.toUInt8 &&& 0xf = 0 ↔ d.address.toNat % 16 = 0 := by
    rw [← UInt8.toNat_inj, UInt8.toNat_and, UInt16.toNat_toUInt8]
    show d.address.toNat % 256 &&& 15 = 0 ↔ _
    rw [Nat.and_two_pow_sub_one_eq_mod _ 4]
    omega
  have hlong : 0x10 < d.data.length.toUInt8 ↔ 16 < d.data.length := by
    rw [UInt8.lt_iff_toNat_lt, d.toNat_length]
    exact Iff.rfl
  have hown : (d.address.toUInt8 &&& 0xf != 0 || decide (0x10 < d.data.length.toUInt8)) = true ↔
      d.address.toNat % 16 ≠ 0 ∨ 16 < d.data.length := by
    rw [Bool.or_eq_true, bne_iff_ne, ne_eq, hlow, decide_eq_true_iff, hlong]
  unfold completeRow
  rw [hget, bytes_line]
  simp only [bind, Except.bind, pure, Except.pure, dropLast_bytes]
  simp only [Entry.bytes, addressBytes, cons_append, nil_append, hcount, ← hstop]
  have hmissing := toNat_missing stop
  generalize ((0x10 : UInt32) - (stop &&& 0xf)) &&& 0xf = rest at hmissing ⊢
  have hrest : rest = (missing stop).toUInt32 := by
    rw [← hmissing]
    exact (UInt32.ofNat_toNat).symm
  unfold lastRow
  rw [hlines]
  by_cases h0 : missing stop = 0
  · rw [if_pos h0, h0, if_pos (by rw [hrest, h0]; rfl), append_assoc, map_append]
    simp
  · have hne : ¬ (rest == 0) = true := by
      rw [beq_iff_eq, ← UInt32.toNat_inj, hmissing]
      exact h0
    rw [if_neg h0, if_neg hne]
    by_cases hrow : d.address.toNat % 16 ≠ 0 ∨ 16 < d.data.length
    · -- a record of zeros follows the last one
      have hzeros : renderRecord dataType stop.toUInt16 (List.replicate rest.toNat 0) =
          (zeros stop.toUInt16 (missing stop) (Nat.lt_trans (missing_lt stop) (by decide))).line := by
        rw [hmissing]
        rfl
      have hinsert : (pre.map line ++ d.line :: post.map line).insertIdx (pre.length + 1)
            (renderRecord dataType stop.toUInt16 (List.replicate rest.toNat 0)) =
          (pre ++ [d, zeros stop.toUInt16 (missing stop) (Nat.lt_trans (missing_lt stop) (by decide))] ++
            post).map line := by
        have hfront : pre.map line ++ d.line :: post.map line = (pre ++ [d]).map line ++ post.map line := by
          simp
        have hbehind : pre.length + 1 = ((pre ++ [d]).map line).length := by simp
        rw [hzeros, hfront, hbehind, insertIdx_length_append]
        simp
      rw [if_pos hrow, if_pos (hown.2 hrow), hinsert, hrest]
      rfl
    · -- the last record gets longer
      have hhead : ¬ 20 < (d.data.length.toUInt8 :: (d.address >>> 8).toUInt8 :: d.address.toUInt8 :: d.type ::
          d.data).length := by
        simp only [length_cons]
        omega
      have hfull : render ((d.data.length.toUInt8 :: (d.address >>> 8).toUInt8 :: d.address.toUInt8 :: d.type ::
            d.data).set 0 0x10 ++ List.replicate (20 - (d.data.length.toUInt8 :: (d.address >>> 8).toUInt8 ::
              d.address.toUInt8 :: d.type :: d.data).length) 0) = d.completed.line := by
        have hcompleted : d.completed.data.length = 16 := by
          show (d.data ++ List.replicate (16 - d.data.length) 0).length = 16
          rw [length_append, length_replicate]
          omega
        have hzeros : 20 - (d.data.length + 1 + 1 + 1 + 1) = 16 - d.data.length := by omega
        unfold line renderRecord
        rw [hcompleted]
        simp only [length_cons, hzeros]
        rfl
      have hstart : a + 16 = stop + (missing stop).toUInt32 := by
        apply UInt32.toNat_inj.1
        rw [← hrest, UInt32.toNat_add, UInt32.toNat_add, hmissing, missing, hstop, UInt32.toNat_add,
          UInt32.toNat_ofNat_of_lt' (Nat.lt_trans hlen (by decide))]
        rw [missing, hstop, UInt32.toNat_add, UInt32.toNat_ofNat_of_lt' (Nat.lt_trans hlen (by decide))] at h0
        have hbound : 2 ^ 32 = 4294967296 := rfl
        have h16 : (16 : UInt32).toNat = 16 := rfl
        rw [h16]
        rw [hbound] at h0 ⊢
        omega
      rw [if_neg hrow, if_neg (fun h => hrow (hown.1 h))]
      refine (if_neg hhead).trans ?_
      rw [hfull, hindex, set_append_right _ _ (Nat.le_refl _), Nat.sub_self, hstart]
      simp

/-! ## The bytes -/

theorem type_of_mem_lastRow {d : Entry} (hd : d.type = dataType) {stop : UInt32} {e : Entry}
    (he : e ∈ lastRow d stop) : e.type = dataType := by
  unfold lastRow at he
  split at he
  · rwa [mem_singleton.1 he]
  · split at he
    · obtain rfl | he := mem_cons.1 he
      · exact hd
      · rw [mem_singleton.1 he]
        rfl
    · rw [mem_singleton.1 he]
      exact hd

theorem baseAfter_lastRow {d : Entry} (hd : d.type = dataType) (stop base : UInt32) :
    baseAfter base (lastRow d stop) = base := by
  have hall : ∀ es : List Entry, (∀ e ∈ es, e.type = dataType) → baseAfter base es = base := by
    intro es hes
    induction es with
    | nil => rfl
    | cons e rest ih =>
      rw [baseAfter_data (hes e (mem_cons_self ..))]
      exact ih fun f hf => hes f (mem_cons_of_mem e hf)
  exact hall _ fun e he => type_of_mem_lastRow hd he

section

variable {base stop : UInt32} {d : Entry}

/-- An address within the 64 KB of its base. -/
theorem toNat_base_add (hbase : base.toNat % 65536 = 0) (address : UInt16) :
    (base + address.toUInt32).toNat = base.toNat + address.toNat := by
  have hb := base.toNat_lt
  have ha := address.toNat_lt
  rw [UInt32.toNat_add, UInt16.toNat_toUInt32]
  show (base.toNat + address.toNat) % 4294967296 = _
  omega

theorem toNat_stop_mod (hbase : base.toNat % 65536 = 0)
    (hstop : stop = base + d.address.toUInt32 + d.data.length.toUInt32) :
    stop.toNat = (base.toNat + d.address.toNat + d.data.length) % 2 ^ 32 := by
  rw [hstop, UInt32.toNat_add, toNat_base_add hbase, UInt32.toNat_ofNat_of_lt' (Nat.lt_trans d.length_lt (by decide))]

/-- The end of a record that stays within its 64 KB, where bytes are missing in its row. -/
theorem toNat_stop (hbase : base.toNat % 65536 = 0) (hin : d.address.toNat + d.data.length ≤ 65536)
    (hstop : stop = base + d.address.toUInt32 + d.data.length.toUInt32) (hmissing : missing stop ≠ 0) :
    stop.toNat = base.toNat + d.address.toNat + d.data.length ∧
      d.address.toNat + d.data.length + missing stop ≤ 65536 := by
  have hb := base.toNat_lt
  have hsum := toNat_stop_mod hbase hstop
  have hlimit : (2 : Nat) ^ 32 = 4294967296 := rfl
  unfold missing at hmissing ⊢
  omega

/-- What the records of the last row write: the last record as it is, or with a record of zeros behind it, or
completed. -/
theorem journal_lastRow_cases (hd : d.type = dataType) (base stop : UInt32) :
    (missing stop = 0 ∧ journal base (lastRow d stop) = [⟨base + d.address.toUInt32, d.data⟩]) ∨
    (missing stop ≠ 0 ∧ journal base (lastRow d stop) = [⟨base + d.address.toUInt32, d.data⟩,
      ⟨base + stop.toUInt16.toUInt32, List.replicate (missing stop) 0⟩]) ∨
    (missing stop ≠ 0 ∧ d.address.toNat % 16 = 0 ∧ d.data.length ≤ 16 ∧ journal base (lastRow d stop) =
      [⟨base + d.address.toUInt32, d.data ++ List.replicate (16 - d.data.length) 0⟩]) := by
  unfold lastRow
  by_cases h0 : missing stop = 0
  · rw [if_pos h0, journal_data hd]
    exact .inl ⟨h0, rfl⟩
  · rw [if_neg h0]
    by_cases hown : d.address.toNat % 16 ≠ 0 ∨ 16 < d.data.length
    · rw [if_pos hown, journal_data hd, journal_data (e := zeros ..) rfl]
      exact .inr (.inl ⟨h0, rfl⟩)
    · rw [if_neg hown, journal_data (e := d.completed) hd]
      exact .inr (.inr ⟨h0, by omega, by omega, rfl⟩)

/-- The records of the last row end with the row at the latest, counted without wrapping. This holds for a
record of zeros that lands 64 KB too low as well. -/
theorem stop_le_of_mem_lastRow (hd : d.type = dataType) (hbase : base.toNat % 65536 = 0)
    (hstop : stop = base + d.address.toUInt32 + d.data.length.toUInt32) {w : Write}
    (hw : w ∈ journal base (lastRow d stop)) :
    w.stop ≤ (base.toNat + d.address.toNat + d.data.length + 15) / 16 * 16 := by
  have hsum := toNat_stop_mod hbase hstop
  have hlimit : (2 : Nat) ^ 32 = 4294967296 := rfl
  have hlast : ∀ data : Bytes, Write.stop ⟨base + d.address.toUInt32, data⟩ =
      base.toNat + d.address.toNat + data.length := by
    intro data
    unfold Write.stop
    rw [toNat_base_add hbase]
  obtain ⟨h0, hj⟩ | ⟨h0, hj⟩ | ⟨h0, hrow, hlen, hj⟩ := journal_lastRow_cases hd base stop
  · rw [hj] at hw
    rw [mem_singleton.1 hw, hlast]
    omega
  · rw [hj] at hw
    obtain rfl | hw := mem_cons.1 hw
    · rw [hlast]
      omega
    · -- the zeros end with a row, at the end of the template's or 64 KB in front of it
      rw [mem_singleton.1 hw]
      unfold Write.stop
      dsimp only
      rw [toNat_base_add hbase, UInt32.toNat_toUInt16, length_replicate, missing, hsum]
      omega
  · rw [hj] at hw
    rw [mem_singleton.1 hw, hlast, length_append, length_replicate]
    unfold missing at h0
    rw [hsum] at h0
    omega

/-- One of the records of the last row reaches as far as the last record of the template. -/
theorem exists_stop_lastRow (stop : UInt32) (hd : d.type = dataType) (hbase : base.toNat % 65536 = 0) :
    ∃ w ∈ journal base (lastRow d stop), base.toNat + d.address.toNat + d.data.length ≤ w.stop := by
  have hlast : ∀ data : Bytes, d.data.length ≤ data.length →
      base.toNat + d.address.toNat + d.data.length ≤ Write.stop ⟨base + d.address.toUInt32, data⟩ := by
    intro data hle
    unfold Write.stop
    rw [toNat_base_add hbase]
    exact Nat.add_le_add_left hle _
  obtain ⟨-, hj⟩ | ⟨-, hj⟩ | ⟨-, -, -, hj⟩ := journal_lastRow_cases hd base stop
  · rw [hj]
    exact ⟨_, mem_cons_self .., hlast _ (Nat.le_refl _)⟩
  · rw [hj]
    exact ⟨_, mem_cons_self .., hlast _ (Nat.le_refl _)⟩
  · rw [hj]
    refine ⟨_, mem_cons_self .., hlast _ ?_⟩
    rw [length_append]
    exact Nat.le_add_right ..

section

variable (hd : d.type = dataType) (hbase : base.toNat % 65536 = 0) (hin : d.address.toNat + d.data.length ≤ 65536)
  (hstop : stop = base + d.address.toUInt32 + d.data.length.toUInt32)
include hd hbase hin hstop

/-- Where the last record stays within its 64 KB, the last row ends as a whole row. -/
theorem getLast?_journal_lastRow : ∃ w, (journal base (lastRow d stop)).getLast? = some w ∧
      w.stop = base.toNat + d.address.toNat + d.data.length + missing stop := by
  obtain ⟨h0, hj⟩ | ⟨h0, hj⟩ | ⟨h0, hrow, hlen, hj⟩ := journal_lastRow_cases hd base stop
  · rw [hj]
    refine ⟨⟨base + d.address.toUInt32, d.data⟩, rfl, ?_⟩
    unfold Write.stop
    rw [toNat_base_add hbase, h0, Nat.add_zero]
  · obtain ⟨hend, hfits⟩ := toNat_stop hbase hin hstop h0
    rw [hj]
    refine ⟨⟨base + stop.toUInt16.toUInt32, List.replicate (missing stop) 0⟩, rfl, ?_⟩
    unfold Write.stop
    dsimp only
    rw [toNat_base_add hbase, UInt32.toNat_toUInt16, length_replicate]
    omega
  · obtain ⟨hend, hfits⟩ := toNat_stop hbase hin hstop h0
    rw [hj]
    refine ⟨⟨base + d.address.toUInt32, d.data ++ List.replicate (16 - d.data.length) 0⟩, rfl, ?_⟩
    unfold Write.stop
    dsimp only
    rw [toNat_base_add hbase, length_append, length_replicate]
    unfold missing at h0 ⊢
    rw [hend] at h0 ⊢
    omega

/-- Where the last record stays within its 64 KB, the records of the last row start with it and follow each
other. -/
theorem apart_journal_lastRow : (journal base (lastRow d stop)).Apart ∧
      ∀ w ∈ journal base (lastRow d stop), (base + d.address.toUInt32).toNat ≤ w.address.toNat := by
  have hone : ∀ data : Bytes, Journal.Apart [⟨base + d.address.toUInt32, data⟩] ∧
      ∀ w ∈ [Write.mk (base + d.address.toUInt32) data], (base + d.address.toUInt32).toNat ≤ w.address.toNat := by
    intro data
    refine ⟨pairwise_singleton .., fun w hw => ?_⟩
    obtain rfl := mem_singleton.1 hw
    exact Nat.le_refl _
  obtain ⟨-, hj⟩ | ⟨h0, hj⟩ | ⟨-, -, -, hj⟩ := journal_lastRow_cases hd base stop
  · rw [hj]
    exact hone _
  · obtain ⟨hend, hfits⟩ := toNat_stop hbase hin hstop h0
    have hzeros : (base + stop.toUInt16.toUInt32).toNat = base.toNat + d.address.toNat + d.data.length := by
      rw [toNat_base_add hbase, UInt32.toNat_toUInt16]
      omega
    rw [hj]
    constructor
    · refine pairwise_cons.2 ⟨fun w hw => ?_, pairwise_singleton ..⟩
      rw [mem_singleton.1 hw]
      show (base + d.address.toUInt32).toNat + d.data.length ≤ (base + stop.toUInt16.toUInt32).toNat
      exact Nat.le_of_eq (by rw [hzeros, toNat_base_add hbase])
    · intro w hw
      obtain rfl | hw := mem_cons.1 hw
      · exact Nat.le_refl _
      · rw [mem_singleton.1 hw]
        show _ ≤ (base + stop.toUInt16.toUInt32).toNat
        rw [hzeros, toNat_base_add hbase]
        omega
  · rw [hj]
    exact hone _

/-- **The last row.** A record that stays within its 64 KB is followed by zeros up to the end of its row. -/
theorem byteAt?_journal_lastRow (a : UInt32) : (journal base (lastRow d stop)).byteAt? a =
      Write.byteAt? ⟨base + d.address.toUInt32, d.data ++ List.replicate (missing stop) 0⟩ a := by
  obtain ⟨h0, hj⟩ | ⟨h0, hj⟩ | ⟨h0, hrow, hlen, hj⟩ := journal_lastRow_cases hd base stop
  · rw [hj, h0, replicate_zero, append_nil]
    rfl
  · -- the record of zeros has the base of the last one, and starts where that ends
    obtain ⟨hend, hfits⟩ := toNat_stop hbase hin hstop h0
    have haddress : base + stop.toUInt16.toUInt32 = base + d.address.toUInt32 + d.data.length.toUInt32 := by
      rw [← hstop]
      apply UInt32.toNat_inj.1
      rw [toNat_base_add hbase, UInt32.toNat_toUInt16]
      show base.toNat + stop.toNat % 65536 = _
      omega
    have hshort : d.data.length < 2 ^ 32 := Nat.lt_trans d.length_lt (by decide)
    have hall : d.data.length + (List.replicate (missing stop) (0 : UInt8)).length ≤ 2 ^ 32 := by
      rw [length_replicate]
      exact Nat.le_trans (by omega) (by decide : 65536 ≤ 2 ^ 32)
    rw [hj, haddress]
    show (none.or _).or _ = _
    rw [Option.none_or]
    exact Write.byteAt?_append _ hall hshort a
  · obtain ⟨hend, hfits⟩ := toNat_stop hbase hin hstop h0
    have hmissing : 16 - d.data.length = missing stop := by
      unfold missing at h0 ⊢
      rw [hend] at h0 ⊢
      omega
    rw [hj, ← hmissing]
    exact Option.none_or

end

end

end Template
end Firmware
