import Firmware.Text.Hexadecimal
import Firmware.Text.LetterCase
import Firmware.Text.Numeral
import Firmware.IntelHex.Line
import Mathlib.Algebra.Group.Nat.Defs
import Mathlib.Data.List.Induction

/-!
# Digits of byte strings

Bytes are written with digits of one case (`chars`) and read from digits of either (`Spells`).
-/

open List

namespace Firmware

namespace Hexadecimal

variable {b : Bytes}

/-- The digits of a byte string in upper case. -/
def chars (b : Bytes) : List Char := b.flatMap (pair upperDigit)

@[simp] theorem chars_nil : chars [] = [] := rfl

@[simp] theorem chars_cons (x : UInt8) (b : Bytes) :
    chars (x :: b) = upperDigit (x >>> 4) :: upperDigit (x &&& 0xF) :: chars b := rfl

theorem chars_append (b c : Bytes) : chars (b ++ c) = chars b ++ chars c := flatMap_append

theorem toList_upper (b : Bytes) : (upper b).toList = chars b := String.toList_ofList

/-! ## The halves of a byte -/

/-- The upper half of a byte. -/
def highHalf (b : UInt8) : Fin 16 := ⟨b.toNat / 16, by have := b.toNat_lt; omega⟩

/-- The lower half of a byte. -/
def lowHalf (b : UInt8) : Fin 16 := ⟨b.toNat % 16, Nat.mod_lt _ (by decide)⟩

theorem toNat_shiftRight_four (b : UInt8) : (b >>> 4).toNat = b.toNat / 16 := by
  rw [UInt8.toNat_shiftRight]
  exact Nat.shiftRight_eq_div_pow b.toNat 4

theorem toNat_and_fifteen (b : UInt8) : (b &&& 0xF).toNat = b.toNat % 16 := by
  rw [UInt8.toNat_and]
  exact Nat.and_two_pow_sub_one_eq_mod b.toNat 4

theorem shiftRight_eq_highHalf (b : UInt8) : b >>> 4 = UInt8.ofNat (highHalf b) := by
  have hb := b.toNat_lt
  apply UInt8.toNat_inj.1
  rw [toNat_shiftRight_four, UInt8.toNat_ofNat_of_lt' (by show b.toNat / 16 < 256; omega)]
  rfl

theorem and_eq_lowHalf (b : UInt8) : b &&& 0xF = UInt8.ofNat (lowHalf b) := by
  have hb := b.toNat_lt
  apply UInt8.toNat_inj.1
  rw [toNat_and_fifteen, UInt8.toNat_ofNat_of_lt' (by show b.toNat % 16 < 256; omega)]
  rfl

theorem toNat_join {x y : UInt8} (hx : x.toNat < 16) (hy : y.toNat < 16) :
    (x <<< 4 ||| y).toNat = 16 * x.toNat + y.toNat := by
  rw [UInt8.toNat_or, UInt8.toNat_shiftLeft]
  show x.toNat <<< 4 % 256 ||| y.toNat = _
  rw [Nat.mod_eq_of_lt (by rw [Nat.shiftLeft_eq]; omega), ← Nat.shiftLeft_add_eq_or_of_lt (by omega), Nat.shiftLeft_eq]
  omega

theorem halves_join {x y : UInt8} (hx : x.toNat < 16) (hy : y.toNat < 16) :
    (x <<< 4 ||| y) >>> 4 = x ∧ (x <<< 4 ||| y) &&& 0xF = y := by
  constructor
  · apply UInt8.toNat_inj.1
    rw [toNat_shiftRight_four, toNat_join hx hy]
    omega
  · apply UInt8.toNat_inj.1
    rw [toNat_and_fifteen, toNat_join hx hy]
    omega

theorem join_halves (b : UInt8) : (b >>> 4) <<< 4 ||| (b &&& 0xF) = b := by
  have hb := b.toNat_lt
  have hhigh := toNat_shiftRight_four b
  have hlow := toNat_and_fifteen b
  apply UInt8.toNat_inj.1
  rw [toNat_join (by omega) (by omega)]
  omega

/-! ## Reading digits back -/

/-- What every reader makes of a digit, whichever its case. -/
structure Reads (c : Char) (x : UInt8) : Prop where
  lt : x.toNat < 16
  digit : Numeral.digit? c.toNat.toUInt8 = some x.toNat
  ne_newline : c ≠ '\n'
  ne_colon : c ≠ ':'
  isBlank : Text.isBlank c = false
  isAscii : c.toNat < 0x80
  upper : Text.upper c = upperDigit x
  eq_upperDigit : x.toNat < 10 → c = upperDigit x

theorem reads_of_value? {c : Char} {x : UInt8} (h : value? c = some x) : Reads c x := by
  have hascii : c.toNat < 0x80 := by
    have hle : ∀ d : Char, c ≤ d → c.toNat ≤ d.toNat := fun _ hd => hd
    unfold value? at h
    split at h
    next hc => exact Nat.lt_of_le_of_lt (hle _ hc.2) (by decide)
    split at h
    next hc => exact Nat.lt_of_le_of_lt (hle _ hc.2) (by decide)
    split at h
    next hc => exact Nat.lt_of_le_of_lt (hle _ hc.2) (by decide)
    next => exact nomatch h
  have hplain : ∀ n : Fin 0x80, ∀ y ∈ value? (Char.ofNat n), y.toNat < 16 ∧
      Numeral.digit? (Char.ofNat n).toNat.toUInt8 = some y.toNat ∧ Char.ofNat n ≠ '\n' ∧ Char.ofNat n ≠ ':' ∧
      Text.isBlank (Char.ofNat n) = false ∧ Text.upper (Char.ofNat n) = upperDigit y ∧
      (y.toNat < 10 → Char.ofNat n = upperDigit y) := by decide +kernel
  have hc := hplain ⟨c.toNat, hascii⟩ x (by rw [Char.ofNat_toNat]; exact h)
  simp only [Char.ofNat_toNat] at hc
  obtain ⟨hlt, hdigit, hnewline, hcolon, hblank, hupper, hlow⟩ := hc
  exact ⟨hlt, hdigit, hnewline, hcolon, hblank, hascii, hupper, hlow⟩

/-- Whether characters are the digits of a byte string, each in either case. -/
inductive Spells : List Char → Bytes → Prop where
  | nil : Spells [] []
  | cons {c d : Char} {x y : UInt8} {cs : List Char} {b : Bytes} (hc : value? c = some x) (hd : value? d = some y)
      (h : Spells cs b) : Spells (c :: d :: cs) ((x <<< 4 ||| y) :: b)

/-- The digits that a byte string is written with spell it. -/
theorem spells_pairs {digit : UInt8 → Char} (h : ∀ n : Fin 16, value? (digit (UInt8.ofNat n)) = some (UInt8.ofNat n))
    (b : Bytes) : Spells (b.flatMap (pair digit)) b := by
  induction b with
  | nil => exact .nil
  | cons x b ih =>
    have hspells := Spells.cons (h (highHalf x)) (h (lowHalf x)) ih
    rwa [← shiftRight_eq_highHalf, ← and_eq_lowHalf, join_halves] at hspells

theorem spells_chars (b : Bytes) : Spells (chars b) b := spells_pairs (by decide +kernel) b

namespace Spells

variable {cs ds : List Char} {c : Bytes}

section

variable (h : Spells cs b)
include h

theorem append (hc : Spells ds c) : Spells (cs ++ ds) (b ++ c) := by
  induction h with
  | nil => exact hc
  | cons hx hy _ ih => exact .cons hx hy ih

theorem length_eq : cs.length = 2 * b.length := by
  induction h with
  | nil => rfl
  | cons _ _ _ ih => simp only [length_cons, ih]; omega

/-- What spells a byte string are digits. -/
theorem exists_reads : ∀ e ∈ cs, ∃ x, value? e = some x ∧ Reads e x := by
  induction h with
  | nil => exact fun _ he => absurd he not_mem_nil
  | cons hx hy _ ih =>
    exact forall_mem_cons.2
      ⟨⟨_, hx, reads_of_value? hx⟩, forall_mem_cons.2 ⟨⟨_, hy, reads_of_value? hy⟩, ih⟩⟩

theorem contains_newline : cs.contains '\n' = false := by
  rw [contains_eq_mem, decide_eq_false_iff_not]
  intro hmem
  obtain ⟨_, -, hreads⟩ := h.exists_reads _ hmem
  exact hreads.ne_newline rfl

theorem joinOnto_eq (acc : Bytes) : joinOnto acc (cs.filterMap value?) = acc.reverse ++ b := by
  induction h generalizing acc with
  | nil => simp [joinOnto]
  | cons hx hy _ ih =>
    simp only [filterMap_cons, hx, hy, joinOnto, ih, reverse_cons, append_assoc, singleton_append]

/-- Digits read as the bytes that they spell. -/
theorem decodeChars_eq : decodeChars cs = .ok b := by
  have hfind : cs.find? (fun c => !isDigit c) = none := by
    rw [find?_eq_none]
    intro e he
    obtain ⟨x, hx, -⟩ := h.exists_reads e he
    simp [isDigit, hx]
  have heven : (cs.length % 2 == 1) = false := by
    rw [h.length_eq]
    simp
  simp only [decodeChars, hfind, heven, h.joinOnto_eq, reverse_nil, nil_append, Bool.false_eq_true, if_false]

theorem inj (hc : Spells cs c) : b = c :=
  Except.ok.inj (h.decodeChars_eq.symm.trans hc.decodeChars_eq)

end

/-- Two digits for each byte in front of a place. -/
theorem split (h : Spells cs (b ++ c)) : ∃ ds es, cs = ds ++ es ∧ Spells ds b ∧ Spells es c := by
  induction b generalizing cs with
  | nil => exact ⟨[], cs, rfl, .nil, h⟩
  | cons x b ih =>
    cases h with
    | cons hx hy h =>
      obtain ⟨ds, es, rfl, hds, hes⟩ := ih h
      exact ⟨_ :: _ :: ds, es, rfl, .cons hx hy hds, hes⟩

/-- Digits are those that the bytes are written with, but for their case. -/
theorem map_upper (h : Spells cs b) : cs.map Text.upper = chars b := by
  induction h with
  | nil => rfl
  | cons hx hy _ ih =>
    have hc := reads_of_value? hx
    have hd := reads_of_value? hy
    rw [map_cons, map_cons, ih, chars_cons, (halves_join hc.lt hd.lt).1, (halves_join hc.lt hd.lt).2,
      hc.upper, hd.upper]

/-- Digits that are no letters have one form only. -/
theorem eq_chars (h : Spells cs b) (hb : ∀ x ∈ b, x.toNat / 16 < 10 ∧ x.toNat % 16 < 10) : cs = chars b := by
  induction h with
  | nil => rfl
  | cons hx hy _ ih =>
    obtain ⟨hjoin, hb⟩ := forall_mem_cons.1 hb
    have hc := reads_of_value? hx
    have hd := reads_of_value? hy
    have hhigh := hc.lt
    have hlow := hd.lt
    rw [toNat_join hhigh hlow] at hjoin
    rw [chars_cons, (halves_join hhigh hlow).1, (halves_join hhigh hlow).2, ← ih hb, ← hc.eq_upperDigit (by omega),
      ← hd.eq_upperDigit (by omega)]

end Spells

theorem length_chars (b : Bytes) : (chars b).length = 2 * b.length := (spells_chars b).length_eq

theorem contains_newline_chars (b : Bytes) : (chars b).contains '\n' = false := (spells_chars b).contains_newline

section

variable (c : Char) (hc : c ∈ chars b)
include hc

theorem ne_colon_of_mem_chars : c ≠ ':' :=
  ((spells_chars b).exists_reads c hc).elim fun _ h => h.2.ne_colon

theorem isBlank_of_mem_chars : Text.isBlank c = false :=
  ((spells_chars b).exists_reads c hc).elim fun _ h => h.2.isBlank

theorem isAscii_of_mem_chars : c.toNat < 0x80 :=
  ((spells_chars b).exists_reads c hc).elim fun _ h => h.2.isAscii

theorem isUpperDigit_of_mem_chars : IntelHex.isUpperDigit c = true := by
  have hdigit : ∀ n : Fin 16, IntelHex.isUpperDigit (upperDigit (UInt8.ofNat n)) = true := by decide +kernel
  obtain ⟨x, -, hx⟩ := mem_flatMap.1 hc
  obtain rfl | rfl : c = upperDigit (x >>> 4) ∨ c = upperDigit (x &&& 0xF) := by simpa [pair] using hx
  · exact shiftRight_eq_highHalf x ▸ hdigit (highHalf x)
  · exact and_eq_lowHalf x ▸ hdigit (lowHalf x)

end

/-- The digits of a byte string in lower case are plain characters that every reader takes. -/
theorem digit?_of_mem_lower {c : Char} (hc : c ∈ b.flatMap (pair lowerDigit)) :
    c.toNat < 0x80 ∧ ∃ d < 16, Numeral.digit? c.toNat.toUInt8 = some d := by
  have hspells : Spells (b.flatMap (pair lowerDigit)) b := spells_pairs (by decide +kernel) b
  obtain ⟨x, -, hx⟩ := hspells.exists_reads c hc
  exact ⟨hx.isAscii, x.toNat, hx.lt, hx.digit⟩

/-- An even number of digits spells bytes. -/
theorem exists_spells {cs : List Char} (hall : ∀ c ∈ cs, isDigit c = true) (heven : cs.length % 2 = 0) :
    ∃ b, Spells cs b := by
  induction cs using List.twoStepInduction with
  | nil => exact ⟨[], .nil⟩
  | singleton => exact nomatch heven
  | cons_cons c d rest ih _ =>
    obtain ⟨hc, hall⟩ := forall_mem_cons.1 hall
    obtain ⟨hd, hall⟩ := forall_mem_cons.1 hall
    obtain ⟨x, hx⟩ := Option.isSome_iff_exists.1 hc
    obtain ⟨y, hy⟩ := Option.isSome_iff_exists.1 hd
    obtain ⟨b, hb⟩ := ih hall (by rw [length_cons, length_cons] at heven; omega)
    exact ⟨_, .cons hx hy hb⟩

/-- Characters that are read as bytes spell them. -/
theorem spells_of_decodeChars {cs : List Char} (h : decodeChars cs = .ok b) : Spells cs b := by
  have hdecode := h
  unfold decodeChars at hdecode
  split at hdecode
  next => exact nomatch hdecode
  next hnone =>
    split at hdecode
    next => exact nomatch hdecode
    next hodd =>
      obtain ⟨c, hc⟩ := exists_spells (by simpa using hnone) (by simpa using hodd)
      rwa [← Except.ok.inj (hc.decodeChars_eq.symm.trans h)]

/-- Digits read back as the bytes they were written for. -/
theorem decodeChars_chars (b : Bytes) : decodeChars (chars b) = .ok b := (spells_chars b).decodeChars_eq

theorem chars_inj {c : Bytes} (h : chars b = chars c) : b = c := (h ▸ spells_chars b).inj (spells_chars c)

theorem take_chars (n : Nat) (b : Bytes) : (chars b).take (2 * n) = chars (b.take n) := by
  induction n generalizing b with
  | zero => rfl
  | succ n ih =>
    cases b with
    | nil => rfl
    | cons x b => simp [Nat.mul_succ, ih]

theorem drop_chars (n : Nat) (b : Bytes) : (chars b).drop (2 * n) = chars (b.drop n) := by
  induction n generalizing b with
  | zero => rfl
  | succ n ih =>
    cases b with
    | nil => rfl
    | cons x b => simp [Nat.mul_succ, ih]

/-- A row of digits starts with another one where the bytes do. -/
theorem isPrefixOf_chars (p b : Bytes) : (chars p).isPrefixOf (chars b) = p.isPrefixOf b := by
  rw [Bool.eq_iff_iff, List.isPrefixOf_iff_prefix, List.isPrefixOf_iff_prefix,
    List.prefix_iff_eq_take, List.prefix_iff_eq_take, length_chars, take_chars]
  exact ⟨chars_inj, fun h => congrArg chars h⟩

end Hexadecimal

/-! ## Digits as text -/

/-- A text of plain characters takes one byte for each. -/
theorem Utf8.encode_ofList {cs : List Char} (h : ∀ c ∈ cs, c.toNat < 0x80) :
    Utf8.encode (String.ofList cs) = cs.map (·.toNat.toUInt8) := by
  unfold Utf8.encode
  rw [String.toList_ofList]
  induction cs with
  | nil => rfl
  | cons c cs ih =>
    have hc : String.utf8EncodeChar c = [c.toNat.toUInt8] :=
      if_pos (Nat.le_of_lt_succ (h c (mem_cons_self ..)))
    rw [flatMap_cons, hc, ih fun d hd => h d (mem_cons_of_mem _ hd)]
    rfl

namespace Numeral

variable {largest : Nat}

/-- The number that bytes stand for behind a number `n`, the high byte first. -/
def bigEndian (n : Nat) (b : Bytes) : Nat := b.foldl (fun acc d => acc * 256 + d.toNat) n

theorem le_bigEndian (n : Nat) (b : Bytes) : n ≤ bigEndian n b := by
  induction b generalizing n with
  | nil => exact Nat.le_refl n
  | cons x b ih =>
    have h := ih (n * 256 + x.toNat)
    simp only [bigEndian, foldl_cons] at h ⊢
    omega

theorem bigEndian_lt (n : Nat) (b : Bytes) : bigEndian n b < (n + 1) * 256 ^ b.length := by
  induction b generalizing n with
  | nil => simp [bigEndian]
  | cons x b ih =>
    have h := ih (n * 256 + x.toNat)
    have hx := x.toNat_lt
    calc bigEndian (n * 256 + x.toNat) b
      _ < (n * 256 + x.toNat + 1) * 256 ^ b.length := h
      _ ≤ ((n + 1) * 256) * 256 ^ b.length := Nat.mul_le_mul_right _ (by omega)
      _ = (n + 1) * 256 ^ (b.length + 1) := by rw [Nat.pow_succ, Nat.mul_assoc, Nat.mul_comm 256]

/-- Digits in a text stand for the same bytes only. -/
theorem map_chars_inj {b c : Bytes}
    (h : (Hexadecimal.chars b).map (·.toNat.toUInt8) = (Hexadecimal.chars c).map (·.toNat.toUInt8)) : b = c := by
  have hback : ∀ d : Bytes, (((Hexadecimal.chars d).map (·.toNat.toUInt8)).map fun u => Char.ofNat u.toNat) =
      Hexadecimal.chars d := by
    intro d
    rw [map_map]
    refine (map_congr_left fun e he => ?_).trans (map_id _)
    have hascii := Hexadecimal.isAscii_of_mem_chars e he
    show Char.ofNat e.toNat.toUInt8.toNat = e
    rw [UInt8.toNat_ofNat_of_lt' (by show _ < 256; omega), Char.ofNat_toNat]
  apply Hexadecimal.chars_inj
  rw [← hback b, h, hback c]

/-- Two digits more are one byte more. -/
theorem accumulate_spells {cs : List Char} {b : Bytes} (hb : Hexadecimal.Spells cs b) {n : Nat}
    (h : bigEndian n b ≤ largest) :
    accumulate 16 largest false n (cs.map (·.toNat.toUInt8)) = .ok (bigEndian n b) := by
  induction hb generalizing n with
  | nil => rfl
  | @cons c d x y _ b hx hy _ ih =>
    have hc := Hexadecimal.reads_of_value? hx
    have hd := Hexadecimal.reads_of_value? hy
    have hjoin := Hexadecimal.toNat_join hc.lt hd.lt
    have hle := le_bigEndian (n * 256 + (x <<< 4 ||| y).toNat) b
    have hb : bigEndian (n * 256 + (x <<< 4 ||| y).toNat) b ≤ largest := h
    have hfst : ¬ largest < n * 16 + x.toNat := by omega
    have hsum : (n * 16 + x.toNat) * 16 + y.toNat = n * 256 + (x <<< 4 ||| y).toNat := by omega
    have hsnd : ¬ largest < n * 256 + (x <<< 4 ||| y).toNat := by omega
    simp only [map_cons, accumulate, Bool.false_and, Bool.false_eq_true, if_false, hc.digit, hd.digit,
      Nat.not_le.2 hc.lt, Nat.not_le.2 hd.lt, hfst, hsum, hsnd]
    exact ih hb

/-- The digits of up to four bytes read as the number that the bytes stand for. -/
theorem read_spells {cs : List Char} {b : Bytes} (h : Hexadecimal.Spells cs b) (hne : b ≠ []) (hlen : b.length ≤ 4) :
    read (.fixed 16) 32 (Utf8.encode (String.ofList cs)) = .ok (bigEndian 0 b) := by
  have hlt : bigEndian 0 b < 256 ^ 4 :=
    calc bigEndian 0 b
      _ < (0 + 1) * 256 ^ b.length := bigEndian_lt 0 b
      _ ≤ 256 ^ 4 := by
        rw [Nat.zero_add, Nat.one_mul]
        exact Nat.pow_le_pow_right (by decide) hlen
  rw [Utf8.encode_ofList fun c hc => (h.exists_reads c hc).elim fun _ hx => hx.2.isAscii]
  have hread := accumulate_spells h (by omega : bigEndian 0 b ≤ 2 ^ 32 - 1)
  cases h with
  | nil => exact absurd rfl hne
  | cons hx hy h => exact hread

theorem read_chars {b : Bytes} (hne : b ≠ []) (hlen : b.length ≤ 4) :
    read (.fixed 16) 32 (Utf8.encode (String.ofList (Hexadecimal.chars b))) = .ok (bigEndian 0 b) :=
  read_spells (Hexadecimal.spells_chars b) hne hlen

/-- Digits can be read if all numbers with as many digits are small enough. -/
theorem exists_accumulate {n : Nat} {text : Bytes} (hdigits : ∀ b ∈ text, ∃ d < 16, digit? b = some d)
    (hfit : (n + 1) * 16 ^ text.length ≤ largest + 1) : ∃ m, accumulate 16 largest false n text = .ok m := by
  induction text generalizing n with
  | nil => exact ⟨n, rfl⟩
  | cons b rest ih =>
    obtain ⟨d, hd, hb⟩ := hdigits b (mem_cons_self ..)
    have hle : (n * 16 + d + 1) * 16 ^ rest.length ≤ largest + 1 :=
      calc (n * 16 + d + 1) * 16 ^ rest.length
          ≤ (n + 1) * 16 * 16 ^ rest.length := Nat.mul_le_mul_right _ (by omega)
        _ = (n + 1) * 16 ^ (b :: rest).length := by rw [length_cons, Nat.pow_succ', Nat.mul_assoc]
        _ ≤ largest + 1 := hfit
    have hfirst : ¬ largest < n * 16 + d := by
      have := Nat.le_mul_of_pos_right (n * 16 + d + 1) (Nat.pow_pos (n := rest.length) (by decide : 0 < 16))
      omega
    obtain ⟨m, hm⟩ := ih (fun b hb => hdigits b (mem_cons_of_mem _ hb)) hle
    refine ⟨m, ?_⟩
    rw [accumulate, if_neg (by simp), hb]
    dsimp only
    rw [if_neg (by omega), if_neg hfirst, hm]

end Numeral

end Firmware
