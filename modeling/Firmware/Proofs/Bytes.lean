import Firmware.Bytes
import Mathlib.Algebra.Group.Nat.Defs
import Mathlib.Order.Bounds.Basic

/-!
# Rows, places and words of bytes
-/

namespace Firmware

open List

variable {align : UInt32} {k : Nat}

namespace Bytes

variable {b pattern src : Bytes} {i n off pos : Nat}

/-! ## Rows -/

theorem rowsOnto_cons (hn : 0 < n) (acc : List Bytes) (x : UInt8) (rest : Bytes) :
    rowsOnto n acc (x :: rest) = rowsOnto n ((x :: rest).take n :: acc) ((x :: rest).drop n) := by
  rw [rowsOnto, if_neg (by omega)]

theorem rowsOnto_nil (n : Nat) (acc : List Bytes) : rowsOnto n acc [] = acc.reverse := by
  rw [rowsOnto]
  split <;> rfl

theorem rowsOnto_eq (hn : 0 < n) (acc : List Bytes) (b : Bytes) :
    rowsOnto n acc b = acc.reverse ++ rowsOnto n [] b := by
  match b with
  | [] => rw [rowsOnto_nil, rowsOnto_nil, reverse_nil, append_nil]
  | x :: rest =>
    have hlt : ((x :: rest).drop n).length < (x :: rest).length := by
      rw [length_drop, length_cons]
      omega
    rw [rowsOnto_cons hn, rowsOnto_cons hn, rowsOnto_eq hn _ ((x :: rest).drop n),
      rowsOnto_eq hn [(x :: rest).take n] ((x :: rest).drop n), reverse_cons, append_assoc]
    rfl
termination_by b.length

@[simp] theorem rows_nil (n : Nat) : rows n [] = [] := rowsOnto_nil n []

theorem rows_of_ne_nil (hn : 0 < n) (hb : b ≠ []) : rows n b = b.take n :: rows n (b.drop n) := by
  obtain ⟨x, rest, rfl⟩ := exists_cons_of_ne_nil hb
  unfold rows
  rw [rowsOnto_cons hn, rowsOnto_eq hn]
  rfl

/-- Rows that were joined are found again. -/
theorem rows_flatten (hn : 0 < n) {bs : List Bytes} (h : ∀ b ∈ bs, b.length = n) : rows n bs.flatten = bs := by
  induction bs with
  | nil => exact rows_nil n
  | cons b rest ih =>
    have hb := h b (mem_cons_self ..)
    have hne : b ++ rest.flatten ≠ [] := by
      rw [← length_pos_iff, length_append]
      omega
    rw [flatten_cons, rows_of_ne_nil hn hne, take_left' hb, drop_left' hb, ih fun c hc => h c (mem_cons_of_mem b hc)]

/-- The rows of a byte string start at the multiples of their length. -/
theorem getElem?_rows (hn : 0 < n) (b : Bytes) (i : Nat) :
    (rows n b)[i]? = if i * n < b.length then some ((b.drop (i * n)).take n) else none := by
  induction i generalizing b with
  | zero =>
    cases b with
    | nil => rw [rows_nil]; rfl
    | cons x rest => rw [rows_of_ne_nil hn (cons_ne_nil x rest)]; simp
  | succ i ih =>
    by_cases hb : b = []
    · subst hb
      rw [rows_nil]
      rfl
    · rw [rows_of_ne_nil hn hb, getElem?_cons_succ, ih, length_drop, drop_drop, Nat.succ_mul, Nat.add_comm n]
      congr 1
      exact propext (by omega)

/-- Bytes that are whole rows. -/
theorem rows_of_length {count : Nat} (h : b.length = count * n) (hn : 0 < count → 0 < n) :
    rows n b = (List.range count).map fun i => (b.drop (i * n)).take n := by
  by_cases hcount : count = 0
  · subst hcount
    obtain rfl : b = [] := eq_nil_of_length_eq_zero (by omega)
    rw [rows_nil]
    rfl
  · have hpos := hn (by omega)
    refine ext_getElem? fun i => ?_
    rw [getElem?_rows hpos, getElem?_map, h]
    by_cases hi : i < count
    · rw [if_pos ((Nat.mul_lt_mul_right hpos).2 hi), getElem?_range hi]
      rfl
    · rw [if_neg (fun hlt => hi ((Nat.mul_lt_mul_right hpos).1 hlt)), getElem?_eq_none (by simpa using hi)]
      rfl

/-! ## Places -/

@[simp] theorem length_resize (b : Bytes) (n : Nat) (fill : UInt8) : (b.resize n fill).length = n := by
  unfold resize
  rw [length_append, length_take, length_replicate]
  omega

theorem resize_of_le (h : b.length ≤ n) (fill : UInt8) : b.resize n fill = b ++ List.replicate (n - b.length) fill := by
  rw [resize, take_of_length_le h]

section

variable (h : off + src.length ≤ b.length)
include h

theorem length_overwrite : (b.overwrite off src).length = b.length := by
  simp only [overwrite, length_append, length_take, length_drop]
  omega

/-- An overwritten byte is the new one where there is one, and the old one elsewhere. -/
theorem getElem?_overwrite (i : Nat) :
    (b.overwrite off src)[i]? = if off ≤ i then (src[i - off]?).or b[i]? else b[i]? := by
  unfold overwrite
  rw [take_of_length_le (by omega : src.length ≤ b.length - off)]
  by_cases hoff : off ≤ i
  · rw [if_pos hoff, append_assoc, getElem?_append_right (by rw [length_take]; omega), length_take,
      Nat.min_eq_left (by omega)]
    by_cases hsrc : i - off < src.length
    · rw [getElem?_append_left hsrc, getElem?_eq_getElem hsrc]
      rfl
    · rw [getElem?_append_right (by omega), getElem?_eq_none (by omega : src.length ≤ i - off),
        getElem?_drop, Option.none_or]
      congr 1
      omega
  · rw [if_neg hoff, append_assoc, getElem?_append_left (by rw [length_take]; omega), getElem?_take_of_lt (by omega)]

theorem getElem?_overwrite_outside (hi : i < off ∨ off + src.length ≤ i) : (b.overwrite off src)[i]? = b[i]? := by
  rw [getElem?_overwrite h]
  by_cases hoff : off ≤ i
  · rw [if_pos hoff, getElem?_eq_none (by omega), Option.none_or]
  · rw [if_neg hoff]

/-- What was written stands where it was written. -/
theorem drop_overwrite : (b.overwrite off src).drop off = src ++ b.drop (off + src.length) := by
  unfold overwrite
  rw [take_of_length_le (by omega : src.length ≤ b.length - off), append_assoc, drop_left' (by rw [length_take]; omega)]

end

/-- A pattern is found where it stands. -/
theorem of_findFrom (h : findFrom pattern pos b = some i) : pos ≤ i ∧ pattern.isPrefixOf (b.drop (i - pos)) = true := by
  induction b generalizing pos with
  | nil =>
    rw [findFrom] at h
    by_cases hempty : pattern.isEmpty = true
    · rw [if_pos hempty] at h
      rw [List.isEmpty_iff.1 hempty]
      exact ⟨Nat.le_of_eq (Option.some.inj h), rfl⟩
    · rw [if_neg hempty] at h
      exact nomatch h
  | cons x rest ih =>
    rw [findFrom] at h
    by_cases hhere : pattern.isPrefixOf (x :: rest) = true
    · rw [if_pos hhere] at h
      obtain rfl := Option.some.inj h
      rw [Nat.sub_self]
      exact ⟨Nat.le_refl _, hhere⟩
    · rw [if_neg hhere] at h
      obtain ⟨hle, hthere⟩ := ih h
      refine ⟨by omega, ?_⟩
      rw [show i - pos = (i - (pos + 1)) + 1 by omega, drop_succ_cons]
      exact hthere

/-- The first place is found. -/
theorem first_of_findFrom (h : findFrom pattern pos b = some i) {j : Nat} (hpos : pos ≤ j) (hj : j < i) :
    ¬ pattern.isPrefixOf (b.drop (j - pos)) = true := by
  induction b generalizing pos with
  | nil =>
    rw [findFrom] at h
    split at h
    next => exact absurd (Option.some.inj h) (by omega)
    next => exact nomatch h
  | cons x rest ih =>
    rw [findFrom] at h
    split at h
    next => exact absurd (Option.some.inj h) (by omega)
    next hhere =>
      by_cases heq : j = pos
      · subst heq
        rwa [Nat.sub_self]
      · have hrest := ih h (by omega)
        rwa [show j - pos = (j - (pos + 1)) + 1 by omega, drop_succ_cons]

/-- A pattern that is not found stands nowhere. -/
theorem of_findFrom_eq_none (h : findFrom pattern pos b = none) (k : Nat) : ¬ pattern.isPrefixOf (b.drop k) = true := by
  induction b generalizing pos k with
  | nil =>
    rw [findFrom] at h
    split at h
    next => exact nomatch h
    next hempty =>
      rw [drop_nil]
      cases pattern with
      | nil => exact absurd rfl hempty
      | cons => exact Bool.false_ne_true
  | cons x rest ih =>
    rw [findFrom] at h
    split at h
    next => exact nomatch h
    next hhere =>
      cases k with
      | zero => exact hhere
      | succ k => exact ih h k

/-! ## Words -/

/-- One of the bytes of a word, in its place. -/
theorem toNat_place (w : UInt32) {k : Nat} (hk : k ≤ 24) :
    ((w >>> k.toUInt32).toUInt8.toUInt32 <<< k.toUInt32).toNat = w.toNat / 2 ^ k % 2 ^ 8 * 2 ^ k := by
  have hshift : k.toUInt32.toNat % 32 = k := by
    rw [UInt32.toNat_ofNat_of_lt' (by show k < 4294967296; omega), Nat.mod_eq_of_lt (by omega)]
  have hle : w.toNat / 2 ^ k % 2 ^ 8 * 2 ^ k ≤ 255 * 2 ^ 24 :=
    Nat.mul_le_mul (by omega) (Nat.pow_le_pow_right (by decide) hk)
  rw [UInt32.toNat_shiftLeft, UInt8.toNat_toUInt32, UInt32.toNat_toUInt8, UInt32.toNat_shiftRight, hshift,
    Nat.shiftRight_eq_div_pow, Nat.shiftLeft_eq]
  exact Nat.mod_eq_of_lt (Nat.lt_of_le_of_lt hle (by decide))

/-- The word at an offset is made of the two bytes there. -/
theorem word16_drop (b : Bytes) (k : Nat) :
    word16 (b.drop k) = (b[k]?.getD 0).toUInt16 ||| ((b[k + 1]?.getD 0).toUInt16 <<< 8) := by
  simp only [word16, getD_eq_getElem?_getD, getElem?_drop, Nat.add_zero]

/-- A word is put together again from its four bytes. -/
theorem word32_ofWord32 (w : UInt32) (rest : Bytes) : word32 (ofWord32 w ++ rest) = w := by
  have hw := w.toNat_lt
  -- bits that do not overlap add up
  have hjoin : ∀ lo hi k : Nat, lo < 2 ^ k → lo ||| hi * 2 ^ k = hi * 2 ^ k + lo := by
    intro lo hi k hlo
    rw [Nat.or_comm, ← Nat.shiftLeft_eq, Nat.shiftLeft_add_eq_or_of_lt hlo]
  have h8 : ((w >>> 8).toUInt8.toUInt32 <<< 8).toNat = _ := toNat_place w (by decide : 8 ≤ 24)
  have h16 : ((w >>> 16).toUInt8.toUInt32 <<< 16).toNat = _ := toNat_place w (by decide : 16 ≤ 24)
  have h24 : ((w >>> 24).toUInt8.toUInt32 <<< 24).toNat = _ := toNat_place w (by decide : 24 ≤ 24)
  show w.toUInt8.toUInt32 ||| ((w >>> 8).toUInt8.toUInt32 <<< 8) ||| ((w >>> 16).toUInt8.toUInt32 <<< 16) |||
    ((w >>> 24).toUInt8.toUInt32 <<< 24) = w
  apply UInt32.toNat_inj.1
  rw [UInt32.toNat_or, UInt32.toNat_or, UInt32.toNat_or, UInt8.toNat_toUInt32, UInt32.toNat_toUInt8, h8, h16, h24,
    hjoin _ _ 8 (by omega), hjoin _ _ 16 (by omega), hjoin _ _ 24 (by omega)]
  simp only [Nat.reducePow]
  omega

/-- A word stands at the end of what comes in front of it. -/
theorem word32At_append {front : Bytes} {k : Nat} (h : front.length = k) (w : UInt32) (rest : Bytes) :
    word32At (front ++ (ofWord32 w ++ rest)) k = w := by
  unfold word32At
  rw [drop_left' h, word32_ofWord32]

/-- The words at the start. -/
theorem word32At_flatMap (ws : List UInt32) (rest : Bytes) {w : UInt32} (h : ws[i]? = some w) :
    word32At (ws.flatMap ofWord32 ++ rest) (4 * i) = w := by
  induction ws generalizing i with
  | nil => exact nomatch h
  | cons v ws ih =>
    rw [flatMap_cons, append_assoc]
    cases i with
    | zero =>
      obtain rfl := Option.some.inj h
      exact word32_ofWord32 ..
    | succ i => exact ih h

/-- A word is read again in the order in which it was written. -/
theorem number_ofWord32In (order : ByteOrder) (w : UInt32) (rest : Bytes) :
    number order 4 (ofWord32In order w ++ rest) = w.toNat := by
  have hw := w.toNat_lt
  have h8 : (w >>> 8).toUInt8.toNat = w.toNat / 2 ^ 8 % 2 ^ 8 := by
    rw [UInt32.toNat_toUInt8, UInt32.toNat_shiftRight, Nat.shiftRight_eq_div_pow]
    rfl
  have h16 : (w >>> 16).toUInt8.toNat = w.toNat / 2 ^ 16 % 2 ^ 8 := by
    rw [UInt32.toNat_toUInt8, UInt32.toNat_shiftRight, Nat.shiftRight_eq_div_pow]
    rfl
  have h24 : (w >>> 24).toUInt8.toNat = w.toNat / 2 ^ 24 % 2 ^ 8 := by
    rw [UInt32.toNat_toUInt8, UInt32.toNat_shiftRight, Nat.shiftRight_eq_div_pow]
    rfl
  have hdigits : number order 4 (ofWord32In order w ++ rest) =
      (((0 * 256 + (w >>> 24).toUInt8.toNat) * 256 + (w >>> 16).toUInt8.toNat) * 256 + (w >>> 8).toUInt8.toNat) * 256 +
        w.toUInt8.toNat := by
    cases order <;> rfl
  rw [hdigits, h8, h16, h24, UInt32.toNat_toUInt8]
  omega

/-- The words at the start, in the order in which they were written. -/
theorem number_drop_flatMap (order : ByteOrder) (ws : List UInt32) (rest : Bytes) {w : UInt32} (h : ws[i]? = some w) :
    number order 4 ((ws.flatMap (ofWord32In order) ++ rest).drop (4 * i)) = w.toNat := by
  induction ws generalizing i with
  | nil => exact nomatch h
  | cons v ws ih =>
    rw [flatMap_cons, append_assoc]
    cases i with
    | zero =>
      obtain rfl := Option.some.inj h
      exact number_ofWord32In ..
    | succ i =>
      have hlength : (ofWord32In order v).length = 4 := by cases order <;> rfl
      rw [show 4 * (i + 1) = 4 + 4 * i by omega, ← drop_drop, drop_left' hlength]
      exact ih h

end Bytes

theorem Words.getElem?_toBytes (ws : Words) (i : Nat) : ws.toBytes[i]? =
      ws[i / 2]?.map fun w : UInt16 => if i % 2 = 0 then w.toUInt8 else (w >>> 8).toUInt8 := by
  induction ws generalizing i with
  | nil => rfl
  | cons w rest ih =>
    match i with
    | 0 => rfl
    | 1 => rfl
    | i + 2 =>
      show (Words.toBytes rest)[i]? = _
      rw [ih, Nat.add_mod_right, Nat.add_div_right _ (by decide)]
      rfl

theorem Words.length_toBytes (ws : Words) : ws.toBytes.length = 2 * ws.length := by
  induction ws with
  | nil => rfl
  | cons w rest ih =>
    show (Words.toBytes rest).length + 2 = 2 * (rest.length + 1)
    omega

/-! ## Machine arithmetic -/

/-- Without the bits below a power of two, a number is rounded down to a multiple of it. -/
theorem toNat_and_not_mask {a : UInt32} (h : align.toNat = 2 ^ k) :
    (a &&& ~~~(align - 1)).toNat = a.toNat - a.toNat % align.toNat := by
  have hpos : 0 < align.toNat := by
    rw [h]
    exact Nat.two_pow_pos k
  have hmask : (align - 1).toNat = 2 ^ k - 1 := by
    have hone : (1 : UInt32) ≤ align := UInt32.le_iff_toNat_le.2 hpos
    rw [UInt32.toNat_sub_of_le _ _ hone, h]
    rfl
  have hlow : (a &&& (align - 1)).toNat = a.toNat % align.toNat := by
    rw [UInt32.toNat_and, hmask, Nat.and_two_pow_sub_one_eq_mod, h]
  -- a number is put together from what the mask leaves and what it takes
  have hsum : (a &&& ~~~(align - 1)) + (a &&& (align - 1)) = a := by
    apply UInt32.toBitVec_inj.1
    rw [UInt32.toBitVec_add, UInt32.toBitVec_and, UInt32.toBitVec_and, UInt32.toBitVec_not,
      BitVec.add_eq_or_of_and_eq_zero]
    · ext i hi
      rw [BitVec.getElem_or, BitVec.getElem_and, BitVec.getElem_and, BitVec.getElem_not, ← Bool.and_or_distrib_left,
        Bool.not_or_self, Bool.and_true]
    · ext i hi
      rw [BitVec.getElem_and, BitVec.getElem_and, BitVec.getElem_and, BitVec.getElem_not, BitVec.getElem_zero,
        Bool.and_assoc, Bool.and_left_comm (!_), Bool.not_and_self, Bool.and_false, Bool.and_false]
  have hadd := congrArg UInt32.toNat hsum
  have hle : (a &&& ~~~(align - 1)).toNat ≤ a.toNat := by
    rw [UInt32.toNat_and]
    exact Nat.and_le_left
  have hlt := a.toNat_lt
  have hmod : a.toNat % align.toNat ≤ a.toNat := Nat.mod_le ..
  rw [UInt32.toNat_add, hlow] at hadd
  omega

theorem toNat_alignUp {v : UInt32} (h : align.toNat = 2 ^ k) (hv : v.toNat + align.toNat ≤ 2 ^ 32) :
    (alignUp v align).toNat = v.toNat + align.toNat - 1 - (v.toNat + align.toNat - 1) % align.toNat := by
  have hpos : 0 < align.toNat := by
    rw [h]
    exact Nat.two_pow_pos k
  have hne : (align == 0) = false := by
    apply beq_eq_false_iff_ne.2
    rintro rfl
    exact absurd hpos (by decide)
  have hsum : (v + align - 1).toNat = v.toNat + align.toNat - 1 := by
    rw [UInt32.toNat_sub, UInt32.toNat_add]
    have : (1 : UInt32).toNat = 1 := rfl
    omega
  rw [alignUp, hne, if_neg (by decide), toNat_and_not_mask h, hsum]

/-- Aligning gives the least multiple that is not below. -/
theorem isLeast_alignUp {v : UInt32} (h : align.toNat = 2 ^ k) (hv : v.toNat + align.toNat ≤ 2 ^ 32) :
    IsLeast {m | align.toNat ∣ m ∧ v.toNat ≤ m} (alignUp v align).toNat := by
  have hpos : 0 < align.toNat := by
    rw [h]
    exact Nat.two_pow_pos k
  rw [toNat_alignUp h hv]
  generalize v.toNat = a, align.toNat = n at *
  have hmod := Nat.mod_lt (a + n - 1) hpos
  refine ⟨⟨Nat.dvd_sub_mod _, by omega⟩, ?_⟩
  rintro _ ⟨⟨c, rfl⟩, hle⟩
  have hdiv := Nat.div_add_mod (a + n - 1) n
  have hc : (a + n - 1) / n < c + 1 := by
    apply Nat.div_lt_of_lt_mul
    rw [Nat.mul_succ]
    omega
  have hmul := Nat.mul_le_mul_left n (Nat.le_of_lt_succ hc)
  omega

end Firmware
