import Firmware.Proofs.IntelHex.Contents
import Firmware.Proofs.Uf2.Pages

/-!
# Record lines in block files

Record lines are written into a block file with the digits of the upper address half in hand. That amounts to the writes
of the records that are noticed, where the base in force is the one that the digits stand for (`writeLines_records`).
Segment records are passed over, and so is a data record whose line does not end in two digits in upper case; lines that
are laid out by the rules all do (`writeLines_line`). Every run over lines starts with the digits of zero, whatever base
was in force before (`writeHex_line`).
-/

namespace Firmware
namespace Uf2.BlockFile

open IntelHex IntelHex.Entry Hexadecimal

variable {line : String} {r : Record}

/-- Writes in order. -/
def writeAll (f : BlockFile) (j : Journal) : BlockFile := j.foldl (fun f w => f.write w.address w.data 0) f

theorem writeAll_append (f : BlockFile) (j k : Journal) : f.writeAll (j ++ k) = (f.writeAll j).writeAll k :=
  List.foldl_append

/-- A new file has what is written into it. -/
theorem records_writeAll (family : UInt32) {j : Journal} (h : ∀ w ∈ j, w.data.length ≤ 2 ^ 32) :
    ((new family).writeAll j).Records j := by
  have hnew : (new family).Records [] := ⟨sound_new family, reflects_new family⟩
  exact hnew.foldl_write h 0

/-- The base that the digits of an upper address half stand for. -/
def baseOfDigits (upper : Bytes) : UInt32 := (Numeral.bigEndian 0 upper).toUInt32 * 65536

/-- The digits of an address are those of its halves. -/
theorem read_address {upper : List Char} {u : Bytes} (hu : Spells upper u) (hlen : u.length = 2) (l : Layout line r) :
    Numeral.read (.fixed 16) 32 (Utf8.encode (String.ofList (upper ++ l.low))) =
      .ok (baseOfDigits u + r.address.toUInt32).toNat := by
  obtain ⟨hi, lo, rfl, hvalue⟩ := length_two hlen
  obtain ⟨hi', lo', haddress, hvalue'⟩ := length_two l.length_address
  have hhi := hi.toNat_lt
  have hlo := lo.toNat_lt
  have hlt := r.address.toNat_lt
  rw [l.toNat_address] at hvalue'
  have hsplit : Numeral.bigEndian 0 ([hi, lo] ++ l.address) = (hi.toNat * 256 + lo.toNat) * 65536 + r.address.toNat := by
    rw [haddress, hvalue']
    simp only [Numeral.bigEndian, List.cons_append, List.nil_append, List.foldl_cons, List.foldl_nil]
    omega
  have hbase : (baseOfDigits [hi, lo]).toNat = (hi.toNat * 256 + lo.toNat) * 65536 := by
    unfold baseOfDigits
    rw [hvalue, UInt32.toNat_mul, UInt32.toNat_ofNat_of_lt' (by show _ < 4294967296; omega)]
    show (hi.toNat * 256 + lo.toNat) * 65536 % 4294967296 = _
    omega
  rw [Numeral.read_spells (hu.append l.spells_low) (List.cons_ne_nil _ _) (by simp [l.length_address]), hsplit,
    UInt32.toNat_add, hbase, UInt16.toNat_toUInt32, Nat.mod_eq_of_lt]
  show _ < 4294967296
  omega

/-- The digits behind a line stand for the base behind it. -/
theorem base?_eq_digits (l : Layout line r) (hlinear : r.type = linearType → r.address = 0) {upper : List Char} {u : Bytes}
    (hu : Spells upper u) (hlen : u.length = 2) :
    ∃ next, Spells ((linearDigits? line.toList).getD upper) next ∧ next.length = 2 ∧ (r.type = segmentType → next = u) ∧
      (r.type ≠ segmentType → r.base?.getD (baseOfDigits u) = baseOfDigits next) := by
  rw [l.linearDigits?_eq hlinear]
  by_cases hset : r.type = linearType ∧ r.data.length = 2
  · rw [if_pos hset]
    refine ⟨r.data, l.spells_data, hset.2, fun hseg => ?_, fun hseg => ?_⟩
    · rw [hset.1] at hseg
      exact absurd hseg (by decide)
    · rw [Record.base?, if_pos hset.2, if_neg hseg, if_pos hset.1]
      rfl
  · rw [if_neg hset]
    refine ⟨u, hu, hlen, fun _ => rfl, fun hseg => ?_⟩
    rw [Record.base?, if_neg hseg]
    by_cases htwo : r.data.length = 2
    · rw [if_pos htwo, if_neg fun htype => hset ⟨htype, htwo⟩]
      rfl
    · rw [if_neg htwo]
      rfl

/-- Whether the record of a line counts: a segment record does not, and a data record only if the line ends in upper
case. -/
def Noticed (line : String) (r : Record) : Prop := r.type ≠ segmentType ∧ (r.type = dataType → EndsUpper line)

instance (line : String) (r : Record) : Decidable (Noticed line r) := inferInstanceAs (Decidable (_ ∧ _))

/-- The records of lines that count. -/
def noticed (lines : List String) : List Record :=
  lines.filterMap fun line => (Record.parse line).toOption.filter fun r => Noticed line r

theorem noticed_cons (h : Record.parse line = .ok r) (rest : List String) :
    noticed (line :: rest) = if Noticed line r then r :: noticed rest else noticed rest := by
  unfold noticed
  rw [List.filterMap_cons, h]
  by_cases hr : Noticed line r <;> simp [Except.toOption, Option.filter, hr]

/-- Whether a line is that of a record which may set the upper half of addresses only with no address of its own. -/
def Readable (line : String) : Prop :=
  ∃ r, Record.parse line = .ok r ∧ Nonempty (Layout line r) ∧ (r.type = linearType → r.address = 0)

/-- **Record lines.** Writing lines succeeds and does what the records that count write. -/
theorem writeLines_records {lines : List String} (h : ∀ line ∈ lines, Readable line) (f : BlockFile) (index : Nat)
    {upper : List Char} {u : Bytes} (hu : Spells upper u) (hlen : u.length = 2) :
    f.writeLines index upper lines = (f.writeAll (Record.journal (baseOfDigits u) (noticed lines)), none) := by
  induction lines generalizing f index upper u with
  | nil => rfl
  | cons line rest ih =>
    obtain ⟨⟨r, hparse, ⟨l⟩, hlinear⟩, hrest⟩ := List.forall_mem_cons.1 h
    obtain ⟨next, hnext, hnextlen, hsame, hbase⟩ := base?_eq_digits l hlinear hu hlen
    rw [writeLines, noticed_cons hparse]
    dsimp only
    rw [l.wholeData?_eq]
    by_cases hdata : r.type = dataType
    · have hne : r.type ≠ segmentType := by rw [hdata]; decide
      have hnone : r.base? = none := by
        simp [Record.base?, hdata, dataType, segmentType, linearType]
      have hkeep := hbase hne
      rw [hnone, Option.getD_none] at hkeep
      by_cases hupper : EndsUpper line
      · -- the address is read from its eight digits, the upper four of which are those in hand
        rw [if_pos ⟨hdata, hupper⟩, if_pos ⟨hne, fun _ => hupper⟩, Record.journal, Record.write?, if_pos hdata, hnone,
          Option.getD_none, hkeep]
        dsimp only
        rw [read_address hnext hnextlen, l.spells_data.decodeChars_eq]
        dsimp only
        have hback : (baseOfDigits next + r.address.toUInt32).toNat.toUInt32 =
            baseOfDigits next + r.address.toUInt32 := UInt32.ofNat_toNat
        rw [ih hrest _ _ hnext hnextlen, hback]
        rfl
      · rw [if_neg fun h => hupper h.2, if_neg fun h => hupper (h.2 hdata), hkeep]
        exact ih hrest _ _ hnext hnextlen
    · rw [if_neg fun h => hdata h.1]
      dsimp only
      by_cases hseg : r.type = segmentType
      · rw [if_neg fun h => h.1 hseg, ← hsame hseg]
        exact ih hrest _ _ hnext hnextlen
      · rw [if_pos ⟨hseg, fun h => absurd h hdata⟩, Record.journal, Record.write?, if_neg hdata, hbase hseg]
        exact ih hrest _ _ hnext hnextlen

/-- Lines that are laid out by the rules count, segment records apart. -/
theorem writeLines_line {es : List Entry} (h : ∀ e ∈ es, e.type ≠ segmentType) (f : BlockFile) (index : Nat)
    {upper : Bytes} (hupper : upper.length = 2) :
    f.writeLines index (chars upper) (es.map Entry.line) = (f.writeAll (journal (baseOfDigits upper) es), none) := by
  have hnoticed : noticed (es.map Entry.line) = es.map record := by
    induction es with
    | nil => rfl
    | cons e rest ih =>
      obtain ⟨he, hrest⟩ := List.forall_mem_cons.1 h
      rw [List.map_cons, noticed_cons e.parse_line, if_pos ⟨he, fun _ => e.endsUpper_line⟩, ih hrest]
      rfl
  unfold Entry.journal
  rw [← hnoticed]
  refine writeLines_records (List.forall_mem_map.2 fun e _ => ?_) f index (spells_chars upper) hupper
  exact ⟨e.record, e.parse_line, ⟨e.layout⟩, fun htype => e.address_eq (.inr htype)⟩

theorem writeHex_line {es : List Entry} (h : ∀ e ∈ es, e.type ≠ segmentType) (f : BlockFile) :
    f.writeHex (es.map Entry.line) = (f.writeAll (journal 0 es), none) :=
  writeLines_line h f 0 (rfl : ([0, 0] : Bytes).length = 2)

end Uf2.BlockFile
end Firmware
