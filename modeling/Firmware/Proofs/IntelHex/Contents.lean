import Firmware.Proofs.Flash.Journal
import Firmware.Proofs.IntelHex.Entry

/-!
# What record lines put where

The data records of a file stand for writes. Where a write goes depends on the records in front of it: a record
that sets a base holds for all that follow, until the next one. So the writes of a part of a file are only
known together with the base that is in force where it starts, and the base behind it is what the next part
starts from (`Record.journal_append`).
-/

open List

namespace Firmware
namespace IntelHex

/-- The base that a record sets for the addresses that follow: a segment record gives it in units of 16
bytes, a linear one gives its upper half. -/
def Record.base? (r : Record) : Option UInt32 :=
  if r.data.length = 2 then
    if r.type = segmentType then some ((Numeral.bigEndian 0 r.data).toUInt32 * 16)
    else if r.type = linearType then some ((Numeral.bigEndian 0 r.data).toUInt32 * 65536)
    else none
  else none

/-- What a record writes, where a base is in force. -/
def Record.write? (base : UInt32) (r : Record) : Option Write :=
  if r.type = dataType then some ⟨base + r.address.toUInt32, r.data⟩ else none

namespace Record

/-- The base in force behind records. -/
def baseAfter (base : UInt32) : List Record → UInt32
  | [] => base
  | r :: rest => baseAfter (r.base?.getD base) rest

/-- What records write, in order. -/
def journal (base : UInt32) : List Record → Journal
  | [] => []
  | r :: rest => (r.write? base).toList ++ journal (r.base?.getD base) rest

theorem journal_append (base : UInt32) (rs qs : List Record) :
    journal base (rs ++ qs) = journal base rs ++ journal (baseAfter base rs) qs := by
  induction rs generalizing base with
  | nil => rfl
  | cons r rest ih =>
    rw [cons_append, journal, journal, baseAfter, ih, append_assoc]

theorem baseAfter_append (base : UInt32) (rs qs : List Record) :
    baseAfter base (rs ++ qs) = baseAfter (baseAfter base rs) qs := by
  induction rs generalizing base with
  | nil => rfl
  | cons r rest ih => exact ih _

/-- Whether records set a base in front of their first data record, so that it does not matter which one was in
force before. -/
def Rebases : List Record → Prop
  | [] => True
  | r :: rest => r.type ≠ dataType ∧ (r.base?.isSome ∨ Rebases rest)

instance decidableRebases : (rs : List Record) → Decidable (Rebases rs)
  | [] => inferInstanceAs (Decidable True)
  | r :: rest =>
    have := decidableRebases rest
    inferInstanceAs (Decidable (r.type ≠ dataType ∧ (r.base?.isSome ∨ Rebases rest)))

end Record

/-- What record lines write, in order. Lines that are no records write nothing. -/
def contents (lines : List String) : Journal :=
  Record.journal 0 (lines.filterMap fun line => (Record.parse line).toOption)

/-- Whether record lines set a base in front of their first data record. -/
def LinesRebase (lines : List String) : Prop :=
  Record.Rebases (lines.filterMap fun line => (Record.parse line).toOption)

instance (lines : List String) : Decidable (LinesRebase lines) := inferInstanceAs (Decidable (Record.Rebases _))

/-! ## Entries -/

namespace Entry

variable {e : Entry} {es : List Entry} {base upper : UInt32}

/-- What entries write, in order. -/
def journal (base : UInt32) (es : List Entry) : Journal := Record.journal base (es.map record)

/-- The base in force behind entries. -/
def baseAfter (base : UInt32) (es : List Entry) : UInt32 := Record.baseAfter base (es.map record)

section

variable (base : UInt32)

@[simp] theorem journal_nil : journal base [] = [] := rfl

theorem journal_cons (e : Entry) (es : List Entry) : journal base (e :: es) =
      (e.record.write? base).toList ++ journal (e.record.base?.getD base) es := rfl

theorem journal_append (es fs : List Entry) :
    journal base (es ++ fs) = journal base es ++ journal (baseAfter base es) fs := by
  unfold journal baseAfter
  rw [map_append, Record.journal_append]

@[simp] theorem baseAfter_nil : baseAfter base [] = base := rfl

theorem baseAfter_cons (e : Entry) (es : List Entry) :
    baseAfter base (e :: es) = baseAfter (e.record.base?.getD base) es := rfl

theorem baseAfter_append (es fs : List Entry) : baseAfter base (es ++ fs) = baseAfter (baseAfter base es) fs := by
  unfold baseAfter
  rw [map_append, Record.baseAfter_append]

end

theorem records_map_line (es : List Entry) :
    (es.map line).filterMap (fun line => (Record.parse line).toOption) = es.map record := by
  induction es with
  | nil => rfl
  | cons e rest ih =>
    rw [map_cons, map_cons, filterMap_cons, parse_line, ih]
    rfl

/-- The lines of entries stand for what the entries write. -/
theorem contents_map_line (es : List Entry) : contents (es.map line) = journal 0 es := by
  unfold contents journal
  rw [records_map_line]

/-- The write of a data record. -/
theorem write?_of_data (h : e.type = dataType) (base : UInt32) :
    e.record.write? base = some ⟨base + e.address.toUInt32, e.data⟩ := if_pos h

theorem write?_of_ne (h : e.type ≠ dataType) (base : UInt32) : e.record.write? base = none := if_neg h

/-- A data record leaves the base alone. -/
theorem base?_of_data (h : e.type = dataType) : e.record.base? = none := by
  unfold Record.base?
  show (if e.data.length = 2 then if e.type = segmentType then _ else if e.type = linearType then _ else _
    else _) = _
  rw [h]
  split <;> rfl

theorem journal_data (h : e.type = dataType) (base : UInt32) (es : List Entry) :
    journal base (e :: es) = ⟨base + e.address.toUInt32, e.data⟩ :: journal base es := by
  rw [journal_cons, write?_of_data h, base?_of_data h]
  rfl

theorem baseAfter_data (h : e.type = dataType) (base : UInt32) (es : List Entry) :
    baseAfter base (e :: es) = baseAfter base es := by
  rw [baseAfter_cons, base?_of_data h]
  rfl

/-- The record that ends a file writes nothing and sets no base. -/
theorem EndsFile.base? (h : e.EndsFile) : e.record.base? = none := by
  unfold Record.base?
  rw [if_neg]
  show ¬ e.data.length = 2
  rw [h.2.2]
  decide

theorem EndsFile.ne_dataType (h : e.EndsFile) : e.type ≠ dataType := by
  rw [h.1]
  decide

/-- Every write of entries is that of a data record. -/
theorem exists_of_mem_journal {w : Write} (h : w ∈ journal base es) :
    ∃ pre e post, es = pre ++ e :: post ∧ e.type = dataType ∧
      w = ⟨baseAfter base pre + e.address.toUInt32, e.data⟩ := by
  induction es generalizing base with
  | nil => exact absurd h not_mem_nil
  | cons e rest ih =>
    rw [journal_cons, mem_append] at h
    obtain h | h := h
    · by_cases hdata : e.type = dataType
      · rw [write?_of_data hdata] at h
        exact ⟨[], e, rest, rfl, hdata, by simpa using h⟩
      · rw [write?_of_ne hdata] at h
        exact absurd h not_mem_nil
    · obtain ⟨pre, d, post, rfl, hdata, rfl⟩ := ih h
      exact ⟨e :: pre, d, post, rfl, hdata, rfl⟩

theorem length_of_mem_journal {w : Write} (hw : w ∈ journal base es) : w.data.length < 256 := by
  obtain ⟨-, f, -, -, -, rfl⟩ := exists_of_mem_journal hw
  exact f.length_lt

/-- Whether entries set a base in front of their first data record. -/
def Rebases (es : List Entry) : Prop := Record.Rebases (es.map record)

theorem linesRebase_map_line (es : List Entry) : LinesRebase (es.map line) ↔ Rebases es := by
  unfold LinesRebase Rebases
  rw [records_map_line]

theorem journal_of_rebases (h : Rebases es) (base base' : UInt32) : journal base es = journal base' es := by
  induction es with
  | nil => rfl
  | cons e rest ih =>
    obtain ⟨hne, hset⟩ := h
    rw [journal_cons, journal_cons, write?_of_ne hne, write?_of_ne hne]
    cases hb : e.record.base? with
    | some b => rfl
    | none =>
      -- a record that neither writes nor sets a base leaves it to the rest
      rw [hb] at hset
      exact ih (hset.resolve_left Bool.false_ne_true)

/-- Other entries start with a data record that finds its base in force. -/
theorem head?_of_not_rebases (h : ¬ Rebases es) :
    ∃ d : Entry, ∀ base, (journal base es).head? = some ⟨base + d.address.toUInt32, d.data⟩ := by
  induction es with
  | nil => exact absurd trivial h
  | cons e rest ih =>
    by_cases hdata : e.type = dataType
    · refine ⟨e, fun base => ?_⟩
      rw [journal_data hdata]
      rfl
    · have hset : ¬ (e.record.base?.isSome ∨ Rebases rest) := fun hset => h ⟨hdata, hset⟩
      obtain ⟨d, hd⟩ := ih fun hr => hset (.inr hr)
      refine ⟨d, fun base => ?_⟩
      rw [journal_cons, write?_of_ne hdata]
      cases hb : e.record.base? with
      | some b => exact absurd (.inl (by rw [hb]; rfl)) hset
      | none => exact hd base

/-! ## Segment records -/

/-- Whether a segment record has a base that a linear record can give as well. -/
def Aligned (e : Entry) : Prop :=
  e.type = segmentType → e.data.length = 2 ∧ Numeral.bigEndian 0 e.data * 16 % 65536 = 0

/-- The upper half of the base of a segment record. -/
def upperOf (e : Entry) : UInt32 := (Numeral.bigEndian 0 e.data * 16 / 65536).toUInt32

/-- The entry with its base given by a linear record. -/
def linear (e : Entry) : Entry :=
  if e.type = segmentType then ofUpper e.upperOf else e

theorem linear_of_ne (h : e.type ≠ segmentType) : e.linear = e := if_neg h

theorem linear_of_data (h : e.type = dataType) : e.linear = e := linear_of_ne (by rw [h]; decide)

theorem type_linear_ne_segment (e : Entry) : e.linear.type ≠ segmentType := by
  unfold linear
  split
  · exact (by decide : linearType ≠ segmentType)
  · assumption

theorem type_linear_ne_data (h : e.type ≠ dataType) : e.linear.type ≠ dataType := by
  unfold linear
  split
  · exact (by decide : linearType ≠ dataType)
  · exact h

theorem line_linear_of_segment (h : e.type = segmentType) : e.linear.line = linearRecord e.upperOf := by
  rw [linear, if_pos h, line_ofUpper]

/-- A linear record sets the base whose upper half it has. -/
theorem base?_ofUpper (h : upper.toNat < 65536) : (ofUpper upper).record.base? = some (upper * 65536) := by
  have hvalue : Numeral.bigEndian 0 [(upper >>> 8).toUInt8, upper.toUInt8] = upper.toNat := by
    simp only [Numeral.bigEndian, foldl_cons, foldl_nil, UInt32.toNat_toUInt8, UInt32.toNat_shiftRight]
    show (0 * 256 + upper.toNat >>> 8 % 256) * 256 + upper.toNat % 256 = _
    rw [Nat.shiftRight_eq_div_pow]
    omega
  show some ((Numeral.bigEndian 0 [(upper >>> 8).toUInt8, upper.toUInt8]).toUInt32 * 65536) = _
  rw [hvalue]
  congr 2
  exact UInt32.ofNat_toNat

theorem journal_ofUpper (h : upper.toNat < 65536) (base : UInt32) (es : List Entry) :
    journal base (ofUpper upper :: es) = journal (upper * 65536) es := by
  have hne : (ofUpper upper).type ≠ dataType := (by decide : linearType ≠ dataType)
  rw [journal_cons, write?_of_ne hne, base?_ofUpper h, Option.getD_some]
  rfl

theorem baseAfter_ofUpper (h : upper.toNat < 65536) (base : UInt32) (es : List Entry) :
    baseAfter base (ofUpper upper :: es) = baseAfter (upper * 65536) es := by
  rw [baseAfter_cons, base?_ofUpper h, Option.getD_some]

/-- A linear record in place of a segment record sets the same base. -/
theorem base?_linear (h : e.Aligned) : e.linear.record.base? = e.record.base? := by
  by_cases hseg : e.type = segmentType
  · obtain ⟨hlen, hmod⟩ := h hseg
    obtain ⟨hi, lo, hdata, hvalue⟩ := length_two hlen
    have hhi := hi.toNat_lt
    have hlo := lo.toNat_lt
    have hupper : e.upperOf.toNat = (hi.toNat * 256 + lo.toNat) * 16 / 65536 := by
      unfold upperOf
      rw [hvalue]
      exact UInt32.toNat_ofNat_of_lt' (by show _ < 4294967296; omega)
    have hright : e.record.base? = some ((Numeral.bigEndian 0 e.data).toUInt32 * 16) := by
      unfold Record.base?
      rw [if_pos (show e.record.data.length = 2 from hlen), if_pos (show e.record.type = _ from hseg)]
      rfl
    -- what a segment record counts in 16 bytes, its linear record counts in 64 KB
    rw [linear, if_pos hseg, base?_ofUpper (by omega), hright, hvalue]
    congr 1
    apply UInt32.toNat_inj.1
    rw [hvalue] at hmod
    have h16 : (hi.toNat * 256 + lo.toNat).toUInt32.toNat = hi.toNat * 256 + lo.toNat :=
      UInt32.toNat_ofNat_of_lt' (by show _ < 4294967296; omega)
    rw [UInt32.toNat_mul, UInt32.toNat_mul, h16, hupper]
    show (hi.toNat * 256 + lo.toNat) * 16 / 65536 * 65536 % 4294967296 = (hi.toNat * 256 + lo.toNat) * 16 % 4294967296
    omega
  · rw [linear_of_ne hseg]

theorem write?_linear (e : Entry) (base : UInt32) : e.linear.record.write? base = e.record.write? base := by
  by_cases hseg : e.type = segmentType
  · have hne : e.type ≠ dataType := by rw [hseg]; decide
    rw [write?_of_ne (type_linear_ne_data hne), write?_of_ne hne]
  · rw [linear_of_ne hseg]

theorem journal_linear (h : ∀ e ∈ es, e.Aligned) (base : UInt32) :
    journal base (es.map linear) = journal base es ∧ baseAfter base (es.map linear) = baseAfter base es := by
  induction es generalizing base with
  | nil => exact ⟨rfl, rfl⟩
  | cons e rest ih =>
    have he := h e (mem_cons_self ..)
    obtain ⟨hj, hb⟩ := ih (fun f hf => h f (mem_cons_of_mem e hf)) (e.record.base?.getD base)
    rw [map_cons, journal_cons, journal_cons, baseAfter_cons, baseAfter_cons, write?_linear, base?_linear he, hj, hb]
    exact ⟨rfl, rfl⟩

/-- The bases of aligned entries are multiples of 64 KB. -/
theorem base?_mod (h : e.Aligned) {b : UInt32} (hb : e.record.base? = some b) : b.toNat % 65536 = 0 := by
  have hmul : ∀ n : Nat, (n.toUInt32 * 65536).toNat % 65536 = 0 := by
    intro n
    rw [UInt32.toNat_mul]
    show n.toUInt32.toNat * 65536 % 4294967296 % 65536 = 0
    omega
  -- the linear record in its place has the same base, in units of 64 KB
  rw [← base?_linear h] at hb
  unfold Record.base? at hb
  split at hb
  · rw [if_neg (show ¬ e.linear.record.type = segmentType from type_linear_ne_segment e)] at hb
    split at hb
    · rw [← Option.some.inj hb]
      exact hmul _
    · exact nomatch hb
  · exact nomatch hb

theorem baseAfter_mod (h : ∀ e ∈ es, e.Aligned) (hbase : base.toNat % 65536 = 0) :
    (baseAfter base es).toNat % 65536 = 0 := by
  induction es generalizing base with
  | nil => exact hbase
  | cons e rest ih =>
    refine ih (fun f hf => h f (mem_cons_of_mem e hf)) ?_
    cases hb : e.record.base? with
    | none => exact hbase
    | some b => exact base?_mod (h e (mem_cons_self ..)) hb

end Entry
end IntelHex
end Firmware
