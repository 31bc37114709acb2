import Firmware.Proofs.Text.Digits

/-!
# The parts of a line

Behind its colon, a record line has the digits of a length, an address, a type, data and a checksum, in either case, and
there may be space behind them. What the readers of lines find follows from these parts: only a lead that has no
letters is looked for, so the case of a digit does not matter to them (`Spells.eq_chars`), with one exception. A data
record is taken for one as a whole only if the line ends in two digits in upper case (`Layout.wholeData?_eq`).
-/

open List

namespace Firmware
namespace IntelHex

open Hexadecimal

variable {line : String} {r : Record} {cs : List Char}

/-- The parts of the line of a record. -/
structure Layout (line : String) (r : Record) where
  count : List Char
  low : List Char
  type : List Char
  data : List Char
  sum : List Char
  blanks : List Char
  address : Bytes
  checksum : UInt8
  toList_eq : line.toList = ':' :: (count ++ (low ++ (type ++ (data ++ (sum ++ blanks)))))
  length_lt : r.data.length < 256
  length_address : address.length = 2
  toNat_address : Numeral.bigEndian 0 address = r.address.toNat
  spells_count : Spells count [r.data.length.toUInt8]
  spells_low : Spells low address
  spells_type : Spells type [r.type]
  spells_data : Spells data r.data
  spells_sum : Spells sum [checksum]
  blank : ∀ c ∈ blanks, Text.isBlank c = true

/-- Whether a line ends in two digits in upper case. -/
def EndsUpper (line : String) : Prop := (line.toList.drop (line.toList.length - 2)).all isUpperDigit = true

instance (line : String) : Decidable (EndsUpper line) := inferInstanceAs (Decidable (_ = _))

theorem takeAny_spells {b : Bytes} {n : Nat} (h : Spells cs b) (hn : 2 * b.length = n) (rest : List Char) :
    takeAny n (cs ++ rest) = some (cs, rest) := by
  have hlen := h.length_eq.trans hn
  unfold takeAny
  simp only [take_left' hlen, drop_left' hlen, hlen, h.contains_newline, BEq.rfl, Bool.not_false,
    Bool.and_true, if_true]

/-- A lead without letters is found where its bytes are spelled. -/
theorem after?_spells {p b : Bytes} (h : Spells cs b) (hlen : p.length = b.length)
    (hp : ∀ x ∈ p, x.toNat / 16 < 10 ∧ x.toNat % 16 < 10) (rest : List Char) :
    after? (chars p) (cs ++ rest) = if b = p then some rest else none := by
  have hlength : (chars p).length = cs.length := by rw [length_chars, h.length_eq, hlen]
  unfold after?
  by_cases hb : b = p
  · subst hb
    rw [if_pos rfl, h.eq_chars hp, if_pos (List.isPrefixOf_iff_prefix.2 (List.prefix_append ..)), drop_left]
  · rw [if_neg hb, if_neg]
    intro hstarts
    apply hb
    have hcs : chars p = cs := by
      rw [List.isPrefixOf_iff_prefix, List.prefix_iff_eq_take, hlength, take_left] at hstarts
      exact hstarts
    exact h.inj (hcs ▸ spells_chars p)

/-- A text without a colon has no record that sets the upper half of addresses. -/
theorem linearDigits?_eq_none (h : ∀ c ∈ cs, c ≠ ':') : linearDigits? cs = none := by
  induction cs with
  | nil => rfl
  | cons c rest ih =>
    have hc : (':' == c) = false := beq_eq_false_iff_ne.2 (Ne.symm (h c (mem_cons_self ..)))
    have hlead : after? linearLead (c :: rest) = none := by
      show (if (':' :: "02000004".toList).isPrefixOf (c :: rest) = true then _ else none) = none
      rw [List.isPrefixOf, hc, Bool.false_and]
      rfl
    unfold linearDigits?
    rw [hlead]
    exact ih fun d hd => h d (mem_cons_of_mem c hd)

theorem isBlank_of_isUpperDigit {c : Char} (h : isUpperDigit c = true) : Text.isBlank c = false := by
  have hlow : 0x30 ≤ c.toNat ∧ c.toNat ≤ 0x46 := by
    simp only [isUpperDigit, Char.isDigit, Bool.or_eq_true, Bool.and_eq_true, decide_eq_true_eq] at h
    obtain h | h := h
    · exact ⟨h.1, Nat.le_trans h.2 (by decide)⟩
    · exact ⟨Nat.le_trans (by decide) h.1, h.2⟩
  simp only [Text.isBlank, Bool.or_eq_false_iff, Bool.and_eq_false_iff, decide_eq_false_iff_not, beq_eq_false_iff_ne]
  omega

theorem length_two {b : Bytes} (h : b.length = 2) :
    ∃ hi lo : UInt8, b = [hi, lo] ∧ Numeral.bigEndian 0 b = hi.toNat * 256 + lo.toNat := by
  match b, h with
  | [hi, lo], _ => exact ⟨hi, lo, rfl, by simp [Numeral.bigEndian]⟩

namespace Layout

/-- The start of a data record is found on the line of one. -/
theorem dataStart?_eq (l : Layout line r) : dataStart? line.toList =
      if r.type = dataType then some (l.low, l.data ++ (l.sum ++ l.blanks)) else none := by
  have hcolon : ∀ rest, after? [':'] (':' :: rest) = some rest := fun rest => rfl
  have htype := after?_spells l.spells_type (p := [dataType]) rfl (by decide +kernel) (l.data ++ (l.sum ++ l.blanks))
  change after? ['0', '0'] _ = _ at htype
  unfold dataStart?
  rw [l.toList_eq]
  simp only [hcolon, takeAny_spells l.spells_count (n := 2) rfl,
    takeAny_spells l.spells_low (n := 4) (by rw [l.length_address]), htype, Option.bind_eq_bind, Option.bind_some,
    Option.pure_def, List.cons.injEq, and_true]
  split <;> rfl

/-- A line that ends in upper case has no space behind its digits. -/
theorem blanks_eq_nil (l : Layout line r) (h : EndsUpper line) : l.blanks = [] := by
  obtain hnil | ⟨front, c, hc⟩ := eq_nil_or_concat l.blanks
  · exact hnil
  · have hline : line.toList = (':' :: (l.count ++ (l.low ++ (l.type ++ (l.data ++ (l.sum ++ front)))))) ++ [c] := by
      rw [l.toList_eq, hc]
      simp
    have hlast : c ∈ line.toList.drop (line.toList.length - 2) := by
      rw [hline, drop_append_of_le_length (by rw [length_append]; simp only [length_singleton]; omega)]
      exact mem_append_right _ (mem_singleton_self c)
    have hblank := l.blank c (by rw [hc]; simp)
    rw [isBlank_of_isUpperDigit (all_eq_true.1 h c hlast)] at hblank
    exact nomatch hblank

/-- A data record is taken for one if the line ends in upper case. -/
theorem wholeData?_eq (l : Layout line r) :
    wholeData? line = if r.type = dataType ∧ EndsUpper line then some (l.low, l.data) else none := by
  have hsum : l.sum.length = 2 := l.spells_sum.length_eq
  have hstart := l.dataStart?_eq
  have hlast : ∀ rest, rest = l.data ++ (l.sum ++ l.blanks) →
      rest.drop (rest.length - 2) = line.toList.drop (line.toList.length - 2) := by
    intro rest hrest
    have hlength : 2 ≤ rest.length := by
      rw [hrest, length_append, length_append]
      omega
    have hline : line.toList = (':' :: (l.count ++ (l.low ++ l.type))) ++ rest := by
      rw [l.toList_eq, hrest]
      simp
    rw [hline, length_append, Nat.add_sub_assoc hlength, drop_length_add_append]
  unfold wholeData?
  by_cases htype : r.type = dataType
  · rw [if_pos htype] at hstart
    rw [hstart]
    simp only [Option.bind_eq_bind, Option.bind_some, hlast _ rfl]
    by_cases hupper : EndsUpper line
    · have hblanks := l.blanks_eq_nil hupper
      have hdrop := hlast _ rfl
      rw [hblanks, append_nil, length_append, hsum, Nat.add_sub_cancel, drop_left] at hdrop
      have hall : (line.toList.drop (line.toList.length - 2)).all isUpperDigit = true := hupper
      rw [hblanks, append_nil, length_append, hsum, Nat.add_sub_cancel, take_left, hall, ← hdrop, hsum,
        l.spells_data.contains_newline, if_pos (And.intro htype hupper)]
      rfl
    · rw [Bool.eq_false_iff.2 hupper, Bool.and_false, Bool.false_and, if_neg Bool.false_ne_true,
        if_neg fun h : _ ∧ _ => hupper h.2]
  · rw [if_neg htype] at hstart
    rw [hstart, if_neg fun h : _ ∧ _ => htype h.1]
    rfl

/-- The record that sets the upper half of addresses is found on its own line only. -/
theorem linearDigits?_eq (l : Layout line r) (h : r.type = linearType → r.address = 0) :
    linearDigits? line.toList = if r.type = linearType ∧ r.data.length = 2 then some l.data else none := by
  obtain ⟨hi, lo, haddress, hvalue⟩ := length_two l.length_address
  rw [l.toNat_address] at hvalue
  have hlow := l.spells_low
  rw [haddress] at hlow
  have hspells : Spells (l.count ++ (l.low ++ l.type)) [r.data.length.toUInt8, hi, lo, r.type] :=
    l.spells_count.append (hlow.append l.spells_type)
  -- behind the colon that starts the line there is none that could start a lead
  have hrest : linearDigits? (l.count ++ (l.low ++ (l.type ++ (l.data ++ (l.sum ++ l.blanks))))) = none := by
    have hdigits := hspells.append (l.spells_data.append l.spells_sum)
    apply linearDigits?_eq_none
    intro c hc
    have hc : c ∈ (l.count ++ (l.low ++ l.type)) ++ (l.data ++ l.sum) ∨ c ∈ l.blanks := by
      simpa [or_assoc] using hc
    obtain hc | hc := hc
    · obtain ⟨_, -, hreads⟩ := hdigits.exists_reads c hc
      exact hreads.ne_colon
    · rintro rfl
      exact nomatch (l.blank _ hc : Text.isBlank ':' = true)
  have hlead := after?_spells hspells (p := [2, 0, 0, linearType]) rfl (by decide +kernel) (l.data ++ (l.sum ++ l.blanks))
  have hlinear : [r.data.length.toUInt8, hi, lo, r.type] = [2, 0, 0, linearType] ↔
      r.type = linearType ∧ r.data.length = 2 := by
    have hcount : r.data.length.toUInt8 = 2 ↔ r.data.length = 2 := by
      rw [← UInt8.toNat_inj]
      show r.data.length.toUInt8.toNat = 2 ↔ _
      rw [UInt8.toNat_ofNat_of_lt' l.length_lt]
    simp only [List.cons.injEq, hcount, and_true]
    constructor
    · exact fun h => ⟨h.2.2.2, h.1⟩
    · rintro ⟨htype, hlen⟩
      rw [h htype] at hvalue
      have hzero : 0 = hi.toNat * 256 + lo.toNat := hvalue
      exact ⟨hlen, UInt8.toNat_inj.1 (by show hi.toNat = 0; omega), UInt8.toNat_inj.1 (by show lo.toNat = 0; omega), htype⟩
  have hstart : after? linearLead line.toList =
      if r.type = linearType ∧ r.data.length = 2 then some (l.data ++ (l.sum ++ l.blanks)) else none := by
    simp only [hlinear] at hlead
    rw [← hlead, l.toList_eq]
    simp only [append_assoc]
    rfl
  rw [l.toList_eq] at hstart ⊢
  rw [linearDigits?, hrest, hstart]
  by_cases hset : r.type = linearType ∧ r.data.length = 2
  · rw [if_pos hset, if_pos hset, Option.bind_some, takeAny_spells l.spells_data (by rw [hset.2])]
  · rw [if_neg hset, if_neg hset]
    rfl

end Layout
end IntelHex
end Firmware
