import Firmware.Proofs.IntelHex.Layout

/-!
# Records as they are written

A line from outside may be anything, so what stands on it is read off its characters. An `Entry` is a record
that is laid out by the rules, and its line has one form only: the length byte is the length of the data, the
digits are in upper case and the checksum is right. This module says what every reader of lines makes of the
line of an entry; behind it, proofs are about entries and no longer about characters.

All of it comes down to one fact about digits: a row of digits starts with another one exactly where the bytes
do (`Hexadecimal.isPrefixOf_chars`), and the colon occurs nowhere but in front.
-/

open List

namespace Firmware
namespace IntelHex

open Hexadecimal

/-! ## Lines that were written -/

theorem toList_render (b : Bytes) : (render b).toList = ':' :: chars (b ++ [-(Bytes.sum b)]) := by
  unfold render
  rw [String.toList_append, toList_upper]
  rfl

theorem trimChars_render (b : Bytes) : Text.trimChars (render b).toList = (render b).toList := by
  have hblank : ∀ c ∈ (render b).toList, Text.isBlank c = false := by
    rw [toList_render]
    intro c hc
    obtain rfl | hc := mem_cons.1 hc
    · rfl
    · exact isBlank_of_mem_chars c hc
  have hdrop : ∀ cs : List Char, (∀ c ∈ cs, Text.isBlank c = false) → cs.dropWhile Text.isBlank = cs := by
    intro cs hcs
    cases cs with
    | nil => rfl
    | cons c rest => rw [dropWhile_cons, hcs c (mem_cons_self ..)]; rfl
  unfold Text.trimChars
  rw [hdrop _ hblank, hdrop _ fun c hc => hblank c (mem_reverse.1 hc), reverse_reverse]

/-- The bytes of a line that was written are those that were written and the checksum. -/
theorem bytes_render (b : Bytes) : bytes (render b) = .ok (b ++ [-(Bytes.sum b)]) := by
  unfold bytes digits
  rw [trimChars_render, toList_render]
  simp only [decodeChars_chars]

/-- A line that was written as a text file holds it. -/
theorem encode_render (b : Bytes) :
    Utf8.encode (render b) = 0x3A :: (chars (b ++ [-(Bytes.sum b)])).map (·.toNat.toUInt8) := by
  have hascii : ∀ c ∈ (render b).toList, c.toNat < 0x80 := by
    rw [toList_render]
    intro c hc
    obtain rfl | hc := mem_cons.1 hc
    · decide
    · exact isAscii_of_mem_chars c hc
  have hencode := Utf8.encode_ofList hascii
  rw [String.ofList_toList, toList_render] at hencode
  exact hencode

/-! ## Entries -/

/-- The type of the record that ends a file. -/
def endType : UInt8 := 0x01

/-- The type of the record that sets the base of addresses in units of 16 bytes. -/
def segmentType : UInt8 := 0x02

/-- A record that is laid out by the rules: its length fits into a byte, and one that sets the base of the
addresses that follow has no address of its own. -/
structure Entry where
  type : UInt8
  address : UInt16
  data : Bytes
  length_lt : data.length < 256
  address_eq : type = segmentType ∨ type = linearType → address = 0
deriving DecidableEq, Repr

namespace Entry

/-- The line of an entry. -/
def line (e : Entry) : String := renderRecord e.type e.address e.data

/-- The entry as a decoded record. -/
def record (e : Entry) : Record := ⟨e.data.length, e.address, e.type, e.data⟩

/-- The bytes of the address, high byte first. -/
def addressBytes (e : Entry) : Bytes := [(e.address >>> 8).toUInt8, e.address.toUInt8]

/-- The byte that makes the sum of the line zero. -/
def checksum (e : Entry) : UInt8 :=
  -(Bytes.sum (e.data.length.toUInt8 :: (e.addressBytes ++ e.type :: e.data)))

/-- The bytes of the line. -/
def bytes (e : Entry) : Bytes :=
  e.data.length.toUInt8 :: (e.addressBytes ++ e.type :: (e.data ++ [e.checksum]))

/-- A data record. -/
def ofData (address : UInt16) (data : Bytes) (h : data.length < 256) : Entry :=
  { type := dataType, address, data, length_lt := h,
    address_eq := fun htype => absurd htype (by decide) }

/-- The data record of as many of the bytes as a record can have. -/
def ofRow (address : UInt16) (data : Bytes) : Entry :=
  ofData address (data.take 255) (Nat.lt_of_le_of_lt (length_take_le ..) (by decide))

/-- The record that sets the upper half of the addresses that follow. -/
def ofUpper (upper : UInt32) : Entry :=
  { type := linearType, address := 0, data := [(upper >>> 8).toUInt8, upper.toUInt8],
    length_lt := (by decide : 2 < 256), address_eq := fun _ => rfl }

/-- The record that ends a file. -/
def fileEnd : Entry :=
  { type := endType, address := 0, data := [], length_lt := by decide, address_eq := fun _ => rfl }

theorem line_ofData (address : UInt16) (data : Bytes) (h : data.length < 256) :
    (ofData address data h).line = renderRecord dataType address data := rfl

theorem line_ofUpper (upper : UInt32) : (ofUpper upper).line = linearRecord upper := rfl

theorem toNat_length (e : Entry) : e.data.length.toUInt8.toNat = e.data.length := UInt8.toNat_ofNat_of_lt' e.length_lt

theorem toList_line (e : Entry) : e.line.toList = ':' :: chars e.bytes := toList_render _

theorem trimChars_line (e : Entry) : Text.trimChars e.line.toList = e.line.toList := trimChars_render _

theorem bytes_line (e : Entry) : IntelHex.bytes e.line = .ok e.bytes := bytes_render _

/-- The line as a text file holds it. -/
theorem encode_line (e : Entry) : Utf8.encode e.line = 0x3A :: (chars e.bytes).map (·.toNat.toUInt8) := encode_render _

end Entry

/-! ## Readers on rows of digits -/

theorem after?_chars (p b : Bytes) :
    after? (chars p) (chars b) = if p.isPrefixOf b then some (chars (b.drop p.length)) else none := by
  unfold after?
  rw [isPrefixOf_chars, length_chars, drop_chars]

/-- What follows a type is left if the type is the one that is looked for. -/
theorem after?_type (wanted type : UInt8) (b : Bytes) :
    after? (chars [wanted]) (chars (type :: b)) = if type = wanted then some (chars b) else none := by
  rw [after?_chars, List.isPrefixOf, List.isPrefixOf, Bool.and_true]
  by_cases h : type = wanted
  · rw [if_pos h, if_pos (by rw [h]; exact BEq.rfl)]
    rfl
  · rw [if_neg h, if_neg (by simpa using Ne.symm h)]

theorem takeAny_chars {n : Nat} {b : Bytes} (h : n ≤ b.length) :
    takeAny (2 * n) (chars b) = some (chars (b.take n), chars (b.drop n)) := by
  have hlen : (chars (b.take n)).length = 2 * n := by
    rw [length_chars, length_take, Nat.min_eq_left h]
  unfold takeAny
  simp only [take_chars, drop_chars, contains_newline_chars, hlen, BEq.rfl, Bool.not_false, Bool.and_true, if_true]

/-- The number that the digits of up to four bytes stand for. -/
theorem valueOf_chars {b : Bytes} (hne : b ≠ []) (hlen : b.length ≤ 4) : valueOf (chars b) = Numeral.bigEndian 0 b := by
  unfold valueOf
  rw [Numeral.read_chars hne hlen]

/-! ## Readers on the lines of entries -/

theorem sum_append (b c : Bytes) : Bytes.sum (b ++ c) = Bytes.sum b + Bytes.sum c := by
  unfold Bytes.sum
  rw [foldl_append]
  conv => lhs; rw [← UInt8.add_zero (foldl _ 0 b)]
  exact foldl_assoc

/-- The last byte makes a sum zero exactly if it is what is missing. -/
theorem sum_concat_eq_zero {b : Bytes} {x : UInt8} : Bytes.sum (b ++ [x]) = 0 ↔ x = -(Bytes.sum b) := by
  rw [sum_append, show Bytes.sum [x] = x from UInt8.zero_add x]
  constructor <;> grind

theorem toNat_join16 (hi lo : UInt8) : (hi.toUInt16 <<< 8 ||| lo.toUInt16).toNat = hi.toNat * 256 + lo.toNat := by
  have hhi := hi.toNat_lt
  have hlo := lo.toNat_lt
  rw [UInt16.toNat_or, UInt16.toNat_shiftLeft, UInt8.toNat_toUInt16, UInt8.toNat_toUInt16]
  show hi.toNat <<< 8 % 65536 ||| lo.toNat = _
  rw [Nat.mod_eq_of_lt (by rw [Nat.shiftLeft_eq]; omega), ← Nat.shiftLeft_add_eq_or_of_lt (by omega), Nat.shiftLeft_eq]

theorem toNat_high16 (w : UInt16) : (w >>> 8).toUInt8.toNat = w.toNat / 256 := by
  have hw := w.toNat_lt
  rw [UInt16.toNat_toUInt8, UInt16.toNat_shiftRight]
  show w.toNat >>> 8 % 256 = _
  rw [Nat.shiftRight_eq_div_pow]
  omega

/-- A 16-bit word is put together again from its two bytes, and taken apart into them. -/
theorem join_bytes16 (w : UInt16) : ((w >>> 8).toUInt8.toUInt16 <<< 8) ||| w.toUInt8.toUInt16 = w := by
  apply UInt16.toNat_inj.1
  rw [toNat_join16, toNat_high16, UInt16.toNat_toUInt8]
  omega

theorem split_join16 (hi lo : UInt8) : ((hi.toUInt16 <<< 8 ||| lo.toUInt16) >>> 8).toUInt8 = hi ∧
    (hi.toUInt16 <<< 8 ||| lo.toUInt16).toUInt8 = lo := by
  have hhi := hi.toNat_lt
  have hlo := lo.toNat_lt
  constructor <;> apply UInt8.toNat_inj.1
  · rw [toNat_high16, toNat_join16]
    omega
  · rw [UInt16.toNat_toUInt8, toNat_join16]
    omega

namespace Record

/-- The bytes of a record's line in front of the checksum. -/
def content (r : Record) : Bytes :=
  [r.length.toUInt8, (r.address >>> 8).toUInt8, r.address.toUInt8, r.type] ++ r.data

/-- A line is read as a record exactly if its bytes are those of the record and the checksum. -/
theorem parse_eq_ok_iff {line : String} {r : Record} : parse line = .ok r ↔
    r.length = r.data.length ∧ r.length < 256 ∧ IntelHex.bytes line = .ok (r.content ++ [-(Bytes.sum r.content)]) := by
  unfold parse
  constructor
  · intro h
    cases hb : IntelHex.bytes line with
    | error f => rw [hb] at h; exact nomatch h
    | ok b =>
      rw [hb] at h
      dsimp only [bind, Except.bind] at h
      split at h
      next n hi lo type rest =>
        split at h
        next hlen =>
          split at h
          next hsum =>
            obtain rfl := Except.ok.inj h
            obtain ⟨hhi, hlo⟩ := split_join16 hi lo
            have hlen : rest.length = n.toNat + 1 := by simpa using hlen
            have hne : rest ≠ [] := ne_nil_of_length_eq_add_one hlen
            refine ⟨by rw [length_dropLast, hlen, Nat.add_sub_cancel], n.toNat_lt, ?_⟩
            -- the last byte is what the sum of the others lacks
            have hbytes : n :: hi :: lo :: type :: rest = [n, hi, lo, type] ++ rest.dropLast ++ [rest.getLast hne] := by
              rw [append_assoc, dropLast_concat_getLast]
              rfl
            rw [hbytes, beq_iff_eq, sum_concat_eq_zero] at hsum
            have hn : n.toNat.toUInt8 = n := UInt8.ofNat_toNat
            rw [hbytes, hsum]
            simp only [content, hhi, hlo, hn]
          next => exact nomatch h
        next => exact nomatch h
      next => exact nomatch h
  · rintro ⟨hlen, hlt, hb⟩
    have hsum : (Bytes.sum (r.content ++ [-(Bytes.sum r.content)]) == 0) = true := beq_iff_eq.2 (sum_concat_eq_zero.2 rfl)
    have hnat : r.length.toUInt8.toNat = r.length := UInt8.toNat_ofNat_of_lt' hlt
    have hrest : ((r.data ++ [-(Bytes.sum r.content)]).length == r.length.toUInt8.toNat + 1) = true := by
      rw [hnat, hlen, length_append]
      exact BEq.rfl
    rw [hb]
    show (if ((r.data ++ [-(Bytes.sum r.content)]).length == r.length.toUInt8.toNat + 1) = true then
        if (Bytes.sum (r.content ++ [-(Bytes.sum r.content)]) == 0) = true then
          .ok ⟨r.length.toUInt8.toNat, ((r.address >>> 8).toUInt8.toUInt16 <<< 8) ||| r.address.toUInt8.toUInt16, r.type,
            (r.data ++ [-(Bytes.sum r.content)]).dropLast⟩
        else .error (Failure.badRecordChecksum line)
      else .error (Failure.malformedRecord line)) = Except.ok r
    rw [if_pos hrest, if_pos hsum, hnat, join_bytes16, dropLast_concat]

end Record

namespace Entry

/-- A line that was written reads back. -/
theorem parse_line (e : Entry) : Record.parse e.line = .ok e.record :=
  Record.parse_eq_ok_iff.2 ⟨rfl, e.length_lt, bytes_render _⟩

/-- What follows a lead on the line of an entry. -/
theorem after?_line (p : Bytes) (e : Entry) : after? (':' :: chars p) e.line.toList =
      if p.isPrefixOf e.bytes then some (chars (e.bytes.drop p.length)) else none := by
  rw [toList_line, ← after?_chars]
  unfold after?
  rw [List.isPrefixOf, BEq.rfl, Bool.true_and, length_cons, drop_succ_cons]

theorem toNat_addressBytes (e : Entry) : Numeral.bigEndian 0 e.addressBytes = e.address.toNat := by
  have hlt := e.address.toNat_lt
  show (0 * 256 + (e.address >>> 8).toUInt8.toNat) * 256 + e.address.toUInt8.toNat = _
  rw [UInt16.toNat_toUInt8, UInt16.toNat_toUInt8, UInt16.toNat_shiftRight]
  show (0 * 256 + e.address.toNat >>> 8 % 256) * 256 + e.address.toNat % 256 = _
  rw [Nat.shiftRight_eq_div_pow]
  omega

/-- The parts of the line of an entry. -/
def layout (e : Entry) : Layout e.line e.record where
  count := chars [e.data.length.toUInt8]
  low := chars e.addressBytes
  type := chars [e.type]
  data := chars e.data
  sum := chars [e.checksum]
  blanks := []
  address := e.addressBytes
  checksum := e.checksum
  toList_eq := by
    rw [toList_line, append_nil, ← chars_append, ← chars_append, ← chars_append, ← chars_append]
    rfl
  length_lt := e.length_lt
  length_address := rfl
  toNat_address := e.toNat_addressBytes
  spells_count := spells_chars _
  spells_low := spells_chars _
  spells_type := spells_chars _
  spells_data := spells_chars _
  spells_sum := spells_chars _
  blank := fun _ hc => absurd hc not_mem_nil

theorem endsUpper_line (e : Entry) : EndsUpper e.line := by
  unfold EndsUpper
  rw [all_eq_true, toList_line]
  intro c hc
  rw [length_cons, length_chars, show 2 * e.bytes.length + 1 - 2 = (2 * e.bytes.length - 2) + 1 by
    have : 0 < e.bytes.length := length_pos_iff.2 (cons_ne_nil _ _)
    omega, drop_succ_cons] at hc
  exact isUpperDigit_of_mem_chars c (mem_of_mem_drop hc)

/-- An entry starts as a data record if it is one. -/
theorem dataStart?_line (e : Entry) : dataStart? e.line.toList =
      if e.type = dataType then some (chars e.addressBytes, chars (e.data ++ [e.checksum])) else none := by
  rw [chars_append]
  exact e.layout.dataStart?_eq

theorem dataAddress?_line (e : Entry) :
    dataAddress? e.line = if e.type = dataType then some (chars e.addressBytes) else none := by
  unfold dataAddress?
  rw [dataStart?_line]
  split <;> rfl

/-- The whole line of a data record has its address and its data. -/
theorem wholeData?_line (e : Entry) :
    wholeData? e.line = if e.type = dataType then some (chars e.addressBytes, chars e.data) else none := by
  have h := e.layout.wholeData?_eq
  simp only [e.endsUpper_line, and_true] at h
  exact h

/-- The record that sets the upper half of addresses is found on its own line only. -/
theorem linearDigits?_line (e : Entry) : linearDigits? e.line.toList =
      if e.type = linearType ∧ e.data.length = 2 then some (chars e.data) else none :=
  e.layout.linearDigits?_eq fun h => e.address_eq (.inr h)

/-- Whether the entry ends a file. -/
def EndsFile (e : Entry) : Prop := e.type = endType ∧ e.address = 0 ∧ e.data = []

instance (e : Entry) : Decidable e.EndsFile := inferInstanceAs (Decidable (_ ∧ _))

theorem isEnd_line (e : Entry) : isEnd e.line = decide e.EndsFile := by
  have hlead : isEnd e.line = List.isPrefixOf [0, 0, 0, endType] e.bytes := by
    show (':' :: chars [0, 0, 0, endType]).isPrefixOf e.line.toList = _
    rw [toList_line, List.isPrefixOf, BEq.rfl, Bool.true_and, isPrefixOf_chars]
  rw [hlead, Bool.eq_iff_iff, decide_eq_true_iff]
  -- length, address and type are compared byte by byte
  simp only [bytes, addressBytes, cons_append, nil_append, List.isPrefixOf, Bool.and_eq_true, beq_iff_eq, Bool.and_true]
  constructor
  · rintro ⟨hlen, hhigh, hlow, htype⟩
    refine ⟨htype.symm, ?_, ?_⟩
    · rw [← join_bytes16 e.address, ← hhigh, ← hlow]
      rfl
    · apply eq_nil_of_length_eq_zero
      rw [← e.toNat_length, ← hlen]
      rfl
  · rintro ⟨htype, haddress, hdata⟩
    rw [htype, haddress, hdata]
    exact ⟨rfl, rfl, rfl, rfl⟩

/-- The digits of a segment record are those of its two bytes of data. -/
theorem segmentDigits?_line (e : Entry) : segmentDigits? e.line =
      if e.type = segmentType ∧ e.data.length = 2 then some (chars e.data) else none := by
  have hlead : after? [':', '0', '2'] e.line.toList =
      if List.isPrefixOf [2] e.bytes then some (chars (e.bytes.drop 1)) else none := after?_line [2] e
  have hfirst : List.isPrefixOf [2] e.bytes = decide (e.data.length = 2) := by
    rw [Bool.eq_iff_iff, decide_eq_true_iff]
    simp only [bytes, List.isPrefixOf, Bool.and_true, beq_iff_eq]
    constructor
    · intro h
      rw [← e.toNat_length, ← h]
      rfl
    · intro h
      rw [h]
      rfl
  have haddress : takeAny 4 (chars (e.bytes.drop 1)) =
      some (chars e.addressBytes, chars (e.type :: (e.data ++ [e.checksum]))) :=
    takeAny_chars (n := 2) (b := e.addressBytes ++ e.type :: (e.data ++ [e.checksum]))
      (by simp [addressBytes])
  have htype : after? ['0', '2'] (chars (e.type :: (e.data ++ [e.checksum]))) =
      if e.type = segmentType then some (chars (e.data ++ [e.checksum])) else none :=
    after?_type segmentType ..
  unfold segmentDigits?
  rw [hlead, hfirst]
  by_cases hlen : e.data.length = 2
  · rw [if_pos (decide_eq_true hlen)]
    by_cases hseg : e.type = segmentType
    · have hdata := takeAny_chars (n := 2) (b := e.data ++ [e.checksum]) (by rw [length_append]; omega)
      rw [take_left' hlen, drop_left' hlen] at hdata
      have hsum : takeAny 2 (chars [e.checksum]) = some (chars [e.checksum], []) :=
        takeAny_chars (n := 1) (b := [e.checksum]) (Nat.le_refl 1)
      rw [if_pos (And.intro hseg hlen)]
      rw [if_pos hseg] at htype
      simp only [Option.bind_eq_bind, Option.bind_some, haddress, htype]
      rw [hdata, Option.bind_some, hsum]
      rfl
    · rw [if_neg (fun h : _ ∧ _ => hseg h.1)]
      rw [if_neg hseg] at htype
      simp only [Option.bind_eq_bind, Option.bind_some, haddress, htype]
      rfl
  · rw [if_neg (by simpa using hlen), if_neg (fun h : _ ∧ _ => hlen h.2)]
    rfl

/-! ## Numbers on the line -/

theorem valueOf_addressBytes (e : Entry) : (valueOf (chars e.addressBytes)).toUInt32 = e.address.toUInt32 := by
  have hne : e.addressBytes ≠ [] := cons_ne_nil _ _
  rw [valueOf_chars hne (by decide : 2 ≤ 4), toNat_addressBytes]
  exact UInt32.toNat_inj.1 (UInt32.toNat_ofNat_of_lt' (Nat.lt_trans e.address.toNat_lt (by decide)))

end Entry
end IntelHex
end Firmware
