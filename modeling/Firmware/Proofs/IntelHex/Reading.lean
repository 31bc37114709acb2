import Firmware.Proofs.IntelHex.Entry

/-!
# Reading lines of any form

Templates come from outside, and their lines may have space around them, digits in either case or no colon. What is read
of such a line are the digits on it, two for each byte (`spells_of_bytes`), so a line is at least as long as they are
(`length_of_bytes`), and one that starts as a data record, or ends a file, has the type of one in its fourth byte
(`type_of_dataAddress?`, `type_of_isEnd`). A record that starts with a colon has all parts of its line
(`exists_layout`), and reading is the inverse of writing (`parse_render_inverse`).
-/

open List

namespace Firmware

namespace Utf8

/-- A character takes a byte or more. -/
theorem length_le_encode (s : String) : s.toList.length ≤ (encode s).length := by
  have hchar : ∀ c : Char, 1 ≤ (String.utf8EncodeChar c).length := by
    intro c
    rw [String.length_utf8EncodeChar]
    exact c.utf8Size_pos
  unfold encode
  induction s.toList with
  | nil => exact Nat.zero_le _
  | cons c rest ih =>
    have h := hchar c
    rw [flatMap_cons, length_append, length_cons]
    omega

end Utf8

namespace IntelHex

open Hexadecimal

variable {line : String} {b : Bytes} {cs rest : List Char} {r : Record}

theorem spells_of_bytes (h : bytes line = .ok b) : Spells (digits line) b := by
  unfold bytes at h
  dsimp only at h
  split at h
  next b' hdecode =>
    obtain rfl := Except.ok.inj h
    exact spells_of_decodeChars hdecode
  next => exact nomatch h

/-- Where a line starts with its colon, only space behind the digits is trimmed. -/
theorem exists_blanks (h : line.toList = ':' :: cs) :
    ∃ blanks, cs = digits line ++ blanks ∧ ∀ c ∈ blanks, Text.isBlank c = true := by
  have hcolon : Text.isBlank ':' = false := by decide
  let blanks := ((':' :: cs).reverse.takeWhile Text.isBlank).reverse
  have hblanks : ∀ c ∈ blanks, Text.isBlank c = true := fun c hc =>
    all_eq_true.1 all_takeWhile c (mem_reverse.1 hc)
  have hsplit : ':' :: cs = Text.trimChars line.toList ++ blanks := by
    unfold Text.trimChars
    rw [h, dropWhile_cons, hcolon, if_neg Bool.false_ne_true, ← reverse_append, takeWhile_append_dropWhile,
      reverse_reverse]
  unfold digits
  cases htrim : Text.trimChars line.toList with
  | nil =>
    -- the colon itself is no space
    rw [htrim, nil_append] at hsplit
    have := hblanks ':' (hsplit ▸ mem_cons_self)
    rw [hcolon] at this
    exact nomatch this
  | cons c rest =>
    rw [htrim] at hsplit
    obtain ⟨rfl, hcs⟩ := List.cons.inj hsplit
    exact ⟨blanks, hcs, hblanks⟩

/-- What stands in front of a character that is no space is not trimmed. -/
theorem exists_digits {d : Char} (hd : Text.isBlank d = false) {mid : List Char}
    (h : line.toList = ':' :: (mid ++ d :: cs)) : ∃ back, digits line = mid ++ d :: back := by
  obtain ⟨blanks, hsplit, hblanks⟩ := exists_blanks h
  have hmem : d ∉ blanks := fun hmem => Bool.false_ne_true (hd.symm.trans (hblanks d hmem))
  obtain ⟨back, -, rfl⟩ | ⟨back, hdigits, hback⟩ := append_eq_append_iff.1 hsplit.symm
  · exact absurd (by simp) hmem
  · cases back with
    | nil =>
      obtain rfl : d :: cs = blanks := hback
      exact absurd mem_cons_self hmem
    | cons e back =>
      obtain rfl := (List.cons.inj hback).1
      exact ⟨back, hdigits⟩

/-- A line has at least the digits of its bytes. -/
theorem length_of_bytes (h : bytes line = .ok b) : 2 * b.length ≤ (Utf8.encode line).length := by
  have htrim : (Text.trimChars line.toList).length ≤ line.toList.length := by
    unfold Text.trimChars
    rw [length_reverse]
    refine Nat.le_trans (dropWhile_sublist _).length_le ?_
    rw [length_reverse]
    exact (dropWhile_sublist _).length_le
  have hdigits : (digits line).length ≤ (Text.trimChars line.toList).length := by
    unfold digits
    split
    next rest hrest =>
      rw [hrest]
      exact Nat.le_succ _
    next => exact Nat.le_refl _
  have hline := Utf8.length_le_encode line
  -- two digits make a byte
  rw [← (spells_of_bytes h).length_eq]
  omega

theorem length_encode_render (b : Bytes) : (Utf8.encode (render b)).length = 2 * b.length + 3 := by
  rw [encode_render, length_cons, length_map, length_chars, length_append]
  simp only [length_cons, length_nil]
  omega

theorem exists_of_takeAny {n : Nat} {head : List Char} (h : takeAny n cs = some (head, rest)) :
    head.length = n ∧ cs = head ++ rest := by
  unfold takeAny at h
  dsimp only at h
  split at h
  next hhead =>
    obtain ⟨rfl, rfl⟩ := Prod.mk.inj (Option.some.inj h)
    rw [Bool.and_eq_true, beq_iff_eq] at hhead
    exact ⟨hhead.1, (take_append_drop n cs).symm⟩
  next => exact nomatch h

theorem exists_of_after? {lead : List Char} (h : after? lead cs = some rest) : cs = lead ++ rest := by
  unfold after? at h
  split at h
  next hlead =>
    obtain ⟨back, rfl⟩ := List.isPrefixOf_iff_prefix.1 hlead
    rw [← Option.some.inj h, drop_left]
  next => exact nomatch h

/-- A line that starts as a data record has a colon and six characters in front of its type. -/
theorem exists_of_dataAddress? (h : (dataAddress? line).isSome) :
    ∃ head rest, head.length = 6 ∧ line.toList = ':' :: (head ++ '0' :: '0' :: rest) := by
  obtain ⟨start, hstart, -⟩ := Option.map_eq_some_iff.1 (Option.isSome_iff_exists.1 h).choose_spec
  obtain ⟨cs, hcolon, hstart⟩ := Option.bind_eq_some_iff.1 hstart
  obtain ⟨⟨count, cs₂⟩, hcount, hstart⟩ := Option.bind_eq_some_iff.1 hstart
  obtain ⟨⟨address, cs₃⟩, haddress, hstart⟩ := Option.bind_eq_some_iff.1 hstart
  obtain ⟨rest, htype, -⟩ := Option.bind_eq_some_iff.1 hstart
  obtain ⟨htwo, rfl⟩ := exists_of_takeAny hcount
  obtain ⟨hfour, rfl⟩ := exists_of_takeAny haddress
  refine ⟨count ++ address, rest, by rw [length_append, htwo, hfour], ?_⟩
  rw [exists_of_after? hcolon, exists_of_after? htype]
  simp

/-- The fourth byte of a line is that of the two digits behind the first six. -/
theorem byte_three_of_digits {head : List Char} {c d : Char} (hhead : head.length = 6)
    (hline : line.toList = ':' :: (head ++ c :: d :: rest)) (hd : Text.isBlank d = false) (hbytes : bytes line = .ok b) :
    ∃ x y, value? c = some x ∧ value? d = some y ∧ b[3]? = some (x <<< 4 ||| y) := by
  -- the second digit keeps the space that may stand behind it apart from what stands in front
  rw [show head ++ c :: d :: rest = (head ++ [c]) ++ d :: rest by simp] at hline
  obtain ⟨back, hdigits⟩ := exists_digits hd hline
  have hspells := spells_of_bytes hbytes
  rw [hdigits, append_assoc, singleton_append] at hspells
  match head, hhead with
  | [_, _, _, _, _, _], _ =>
    cases hspells with | cons _ _ hspells
    cases hspells with | cons _ _ hspells
    cases hspells with | cons _ _ hspells
    cases hspells with | cons hx hy hspells
    exact ⟨_, _, hx, hy, rfl⟩

/-- A line that starts as a data record has the type of one, if its bytes can be read. -/
theorem type_of_dataAddress? (h : (dataAddress? line).isSome) (hbytes : bytes line = .ok b) :
    b[3]? = some dataType := by
  obtain ⟨head, rest, hhead, hline⟩ := exists_of_dataAddress? h
  obtain ⟨x, y, hx, hy, hthird⟩ := byte_three_of_digits hhead hline (by decide) hbytes
  have hzero : value? '0' = some 0 := by decide
  obtain rfl := Option.some.inj (hx.symm.trans hzero)
  obtain rfl := Option.some.inj (hy.symm.trans hzero)
  exact hthird

theorem length_of_dataAddress? (h : (dataAddress? line).isSome) (hbytes : bytes line = .ok b) : 4 ≤ b.length :=
  (List.getElem?_eq_some_iff.1 (type_of_dataAddress? h hbytes)).1

/-- A line that ends a file has the type of an end, if its bytes can be read. -/
theorem type_of_isEnd (h : isEnd line = true) (hbytes : bytes line = .ok b) : b[3]? = some endType := by
  obtain ⟨rest, hrest⟩ := List.isPrefixOf_iff_prefix.1 h
  have hline : line.toList = ':' :: (['0', '0', '0', '0', '0', '0'] ++ '0' :: '1' :: rest) := hrest.symm
  obtain ⟨x, y, hx, hy, hthird⟩ := byte_three_of_digits rfl hline (by decide) hbytes
  obtain rfl := Option.some.inj (hx.symm.trans (by decide : value? '0' = some 0))
  obtain rfl := Option.some.inj (hy.symm.trans (by decide : value? '1' = some 1))
  exact hthird

/-- The bytes of a line that is read as a record. -/
theorem bytes_of_parse (h : Record.parse line = .ok r) :
    ∃ hi lo sum, bytes line = .ok (r.data.length.toUInt8 :: hi :: lo :: r.type :: (r.data ++ [sum])) ∧
      r.data.length < 256 ∧ hi.toNat * 256 + lo.toNat = r.address.toNat := by
  obtain ⟨hlen, hlt, hbytes⟩ := Record.parse_eq_ok_iff.1 h
  refine ⟨_, _, _, by rw [hbytes, Record.content, hlen]; rfl, hlen ▸ hlt, ?_⟩
  rw [toNat_high16, UInt16.toNat_toUInt8]
  omega

/-- The parts of a line that starts with its colon and is read as a record. -/
theorem exists_layout (hcolon : line.toList.head? = some ':') (h : Record.parse line = .ok r) :
    Nonempty (Layout line r) := by
  obtain ⟨cs, hcs⟩ := head?_eq_some_iff.1 hcolon
  obtain ⟨blanks, hsplit, hblanks⟩ := exists_blanks hcs
  obtain ⟨hi, lo, checksum, hbytes, hlength, haddress⟩ := bytes_of_parse h
  have hspells : Spells (digits line) ([r.data.length.toUInt8] ++ ([hi, lo] ++ ([r.type] ++ (r.data ++ [checksum])))) :=
    spells_of_bytes hbytes
  obtain ⟨count, back, hcount, spells_count, hspells⟩ := hspells.split
  obtain ⟨low, back, rfl, spells_low, hspells⟩ := hspells.split
  obtain ⟨type, back, rfl, spells_type, hspells⟩ := hspells.split
  obtain ⟨data, sum, rfl, spells_data, spells_sum⟩ := hspells.split
  have hline : line.toList = ':' :: (count ++ (low ++ (type ++ (data ++ (sum ++ blanks))))) := by
    rw [hcs, hsplit, hcount]
    simp only [append_assoc]
  have hvalue : Numeral.bigEndian 0 [hi, lo] = r.address.toNat := by
    rw [← haddress]
    simp [Numeral.bigEndian]
  exact ⟨⟨count, low, type, data, sum, blanks, [hi, lo], checksum, hline, hlength, rfl, hvalue, spells_count, spells_low,
    spells_type, spells_data, spells_sum, hblanks⟩⟩

/-! ## Records and their lines -/

/-- The characters of a line without the space around it, in upper case and with a colon in front. -/
def canonical (line : String) : List Char :=
  let cs := (Text.trimChars line.toList).map Text.upper
  if cs.head? = some ':' then cs else ':' :: cs

theorem canonical_of_bytes (h : bytes line = .ok b) : canonical line = ':' :: chars b := by
  have hupper := (spells_of_bytes h).map_upper
  have hcolon : Text.upper ':' = ':' := by decide
  unfold digits at hupper
  unfold canonical
  dsimp only
  split at hupper
  next rest htrim => rw [htrim, map_cons, hcolon, head?_cons, if_pos rfl, hupper]
  next =>
    rw [hupper]
    exact if_neg fun hhead => ne_colon_of_mem_chars _ (mem_of_head? hhead) rfl

/-- Another byte in one place is another sum. -/
theorem sum_set_ne {i : Nat} {x y : UInt8} (hy : b[i]? = some y) (hne : x ≠ y) :
    Bytes.sum (b.set i x) ≠ Bytes.sum b := by
  obtain ⟨hi, rfl⟩ := List.getElem?_eq_some_iff.1 hy
  have hsum : ∀ z, Bytes.sum (b.set i z) = Bytes.sum (b.take i) + (z + Bytes.sum (b.drop (i + 1))) := by
    intro z
    rw [set_eq_take_append_cons_drop, if_pos hi, sum_append, ← singleton_append, sum_append,
      show Bytes.sum [z] = z from UInt8.zero_add z]
  intro heq
  have hself := hsum b[i]
  rw [set_getElem_self, ← heq, hsum x] at hself
  exact hne (by grind)

/-- **Reading is the inverse of writing.** A record that is written reads back, and a line that is read as a record is
the one written for it, but for space around it, the case of digits and the colon. No line is read as a record whose
bytes are those of such a line but for one. -/
theorem parse_render_inverse :
    (∀ type address data, data.length ≤ 255 →
      Record.parse (renderRecord type address data) = .ok ⟨data.length, address, type, data⟩) ∧
    (∀ line r, Record.parse line = .ok r → (render r.content).toList = canonical line) ∧
    ∀ line line' r b i x y, Record.parse line = .ok r → bytes line = .ok b → b[i]? = some y → x ≠ y →
      bytes line' = .ok (b.set i x) → ∃ f, Record.parse line' = .error f := by
  refine ⟨fun type address data hlen => ?_, fun line r h => ?_, ?_⟩
  · exact Record.parse_eq_ok_iff.2 ⟨rfl, Nat.lt_succ_of_le hlen, bytes_render _⟩
  · obtain ⟨-, -, hbytes⟩ := Record.parse_eq_ok_iff.1 h
    rw [canonical_of_bytes hbytes, toList_render]
  · intro line line' r b i x y h hb hy hne hb'
    cases h' : Record.parse line' with
    | error f => exact ⟨f, rfl⟩
    | ok r' =>
      -- the bytes of both lines would add up to zero
      have hzero : ∀ {line r b}, Record.parse line = .ok r → bytes line = .ok b → Bytes.sum b = 0 := by
        intro line r b h hb
        rw [← Except.ok.inj ((Record.parse_eq_ok_iff.1 h).2.2.symm.trans hb)]
        exact sum_concat_eq_zero.2 rfl
      exact absurd ((hzero h' hb').trans (hzero h hb).symm) (sum_set_ne hy hne)

/-- Whether lines are no longer than a buffer can be. -/
def Short (lines : List String) : Prop := ∀ line ∈ lines, (Utf8.encode line).length ≤ largestBuffer

instance (lines : List String) : Decidable (Short lines) :=
  inferInstanceAs (Decidable (∀ line ∈ lines, (Utf8.encode line).length ≤ largestBuffer))

end IntelHex
end Firmware
