import Firmware.Image.Link
import Firmware.Proofs.Image.ProgramRows
import Firmware.Proofs.Text.Digits

/-!
# The header of a program

The header holds the address of the program and the first eight bytes of the template's hash, which is given in
digits. The digits are read as words, and each word is stored low byte first, so the bytes come out in the order in
which their digits stand (`programHeader_eq`).
-/

namespace Firmware

open List

/-! ## Hashes in digits -/

/-- Plain text reads back as it was written. -/
theorem Utf8.decode_map {cs : List Char} (h : ∀ c ∈ cs, c.toNat < 0x80) :
    Utf8.decode (cs.map (·.toNat.toUInt8)) = cs.map .char := by
  induction cs with
  | nil => rw [map_nil, Utf8.decode]; rfl
  | cons c rest ih =>
    have hc := h c (mem_cons_self ..)
    have hnat : c.toNat.toUInt8.toNat = c.toNat := UInt8.toNat_ofNat_of_lt' (Nat.lt_trans hc (by decide))
    have hlt : c.toNat.toUInt8 < 0x80 := by
      rw [UInt8.lt_iff_toNat_lt, hnat]
      exact hc
    have hfirst : ∀ b, Utf8.first? (c.toNat.toUInt8 :: b) = some (c, 1) := by
      intro b
      unfold Utf8.first?
      dsimp only
      rw [if_pos hlt, hnat, Char.ofNat_toNat]
    rw [map_cons, Utf8.decode, hfirst]
    dsimp only
    rw [Nat.sub_self, drop_zero, ih fun d hd => h d (mem_cons_of_mem c hd)]
    rfl

namespace Template

/-- The shown hash of a template whose hash is given in digits. -/
theorem exists_hash {t : Template} (h : ∀ c ∈ t.sha.toList, Hexadecimal.isDigit c = true) :
    ∃ hash : Bytes, t.hashText.toList = Hexadecimal.chars hash ∧ hash.length = 8 := by
  have hascii : ∀ c ∈ t.sha.toList, c.toNat < 0x80 := by
    intro c hc
    obtain ⟨x, hx⟩ := Option.isSome_iff_exists.1 (h c hc)
    exact (Hexadecimal.reads_of_value? hx).isAscii
  have hencode := Utf8.encode_ofList hascii
  rw [String.ofList_toList] at hencode
  have htake : Utf8.takeBytes 16 t.sha = (t.sha.toList.take 16).map (·.toNat.toUInt8) := by
    unfold Utf8.takeBytes
    rw [hencode, map_take]
  have hdisplay : (Utf8.display (Utf8.takeBytes 16 t.sha)).toList = t.sha.toList.take 16 := by
    unfold Utf8.display
    rw [htake, Utf8.decode_map (fun c hc => hascii c (mem_of_mem_take hc)), String.toList_ofList, map_map]
    exact map_id ..
  -- the digits are in upper case, and zeros complete a short hash
  unfold hashText
  dsimp only
  rw [String.toList_ofList, hdisplay, htake, length_map, length_take]
  have hlen : (t.sha.toList.take 16 ++ replicate (16 - min 16 t.sha.toList.length) '0').length = 16 := by
    simp only [length_append, length_take, length_replicate]
    omega
  have hdigits : ∀ c ∈ t.sha.toList.take 16 ++ replicate (16 - min 16 t.sha.toList.length) '0',
      Hexadecimal.isDigit c = true := by
    refine forall_mem_append.2 ⟨fun c hc => h c (mem_of_mem_take hc), fun c hc => ?_⟩
    rw [(mem_replicate.1 hc).2]
    decide
  obtain ⟨hash, hspells⟩ := Hexadecimal.exists_spells hdigits (by rw [hlen])
  exact ⟨hash, hspells.map_upper, by have := hspells.length_eq; omega⟩

end Template

/-! ## Words -/

namespace Image

theorem ofWord16_join (lo hi : UInt8) : Bytes.ofWord16 (hi.toNat * 256 + lo.toNat).toUInt16 = [lo, hi] := by
  have hlo := lo.toNat_lt
  have hhi := hi.toNat_lt
  have hnat : (hi.toNat * 256 + lo.toNat).toUInt16.toNat = hi.toNat * 256 + lo.toNat :=
    UInt16.toNat_ofNat_of_lt' (by show _ < 65536; omega)
  unfold Bytes.ofWord16
  congr 1
  · apply UInt8.toNat_inj.1
    rw [UInt16.toNat_toUInt8, hnat]
    omega
  · congr 1
    apply UInt8.toNat_inj.1
    rw [UInt16.toNat_toUInt8, UInt16.toNat_shiftRight, hnat]
    show (hi.toNat * 256 + lo.toNat) >>> 8 % 256 = hi.toNat
    rw [Nat.shiftRight_eq_div_pow]
    omega

theorem toBytes_word32 (w : UInt32) : Words.toBytes [w.toUInt16, (w >>> 16).toUInt16] = Bytes.ofWord32 w := by
  have hbyte : ∀ n : UInt32, (n.toUInt16 >>> 8).toUInt8 = (n >>> 8).toUInt8 := by
    intro n
    apply UInt8.toNat_inj.1
    rw [UInt16.toNat_toUInt8, UInt16.toNat_shiftRight, UInt32.toNat_toUInt16, UInt32.toNat_toUInt8,
      UInt32.toNat_shiftRight]
    show (n.toNat % 65536) >>> 8 % 256 = n.toNat >>> 8 % 256
    rw [Nat.shiftRight_eq_div_pow, Nat.shiftRight_eq_div_pow]
    omega
  have hshift : w >>> 16 >>> 8 = w >>> 24 := by
    apply UInt32.toNat_inj.1
    rw [UInt32.toNat_shiftRight, UInt32.toNat_shiftRight, UInt32.toNat_shiftRight]
    show w.toNat >>> 16 >>> 8 = w.toNat >>> 24
    rw [← Nat.shiftRight_add]
  show [w.toUInt16.toUInt8, (w.toUInt16 >>> 8).toUInt8, (w >>> 16).toUInt16.toUInt8,
    ((w >>> 16).toUInt16 >>> 8).toUInt8] = _
  rw [hbyte, hbyte, hshift, UInt32.toUInt8_toUInt16, UInt32.toUInt8_toUInt16]
  rfl

/-- A word of a hash: two of its bytes, the second one higher. -/
theorem read_hash_digits (lo hi : UInt8) :
    Numeral.read (.fixed 16) 16 (IntelHex.swapPairs ((Hexadecimal.chars [lo, hi]).map (·.toNat.toUInt8))) =
      .ok (hi.toNat * 256 + lo.toNat) := by
  have hlo := lo.toNat_lt
  have hhi := hi.toNat_lt
  have hswap : IntelHex.swapPairs ((Hexadecimal.chars [lo, hi]).map (·.toNat.toUInt8)) =
      (Hexadecimal.chars [hi, lo]).map (·.toNat.toUInt8) := by
    unfold IntelHex.swapPairs
    simp [Bytes.rows_of_ne_nil]
  rw [hswap]
  have hvalue : Numeral.bigEndian 0 [hi, lo] = hi.toNat * 256 + lo.toNat := by simp [Numeral.bigEndian]
  rw [← hvalue]
  exact Numeral.accumulate_spells (Hexadecimal.spells_chars [hi, lo]) (by rw [hvalue]; show _ ≤ 65535; omega)

theorem hashWords_eq {t : Template} {b0 b1 b2 b3 b4 b5 b6 b7 : UInt8}
    (h : t.hashText.toList = Hexadecimal.chars [b0, b1, b2, b3, b4, b5, b6, b7]) :
    hashWords t = .ok [(b1.toNat * 256 + b0.toNat).toUInt16, (b3.toNat * 256 + b2.toNat).toUInt16,
      (b5.toNat * 256 + b4.toNat).toUInt16, (b7.toNat * 256 + b6.toNat).toUInt16] := by
  have hencode : Utf8.encode t.hashText =
      (Hexadecimal.chars [b0, b1, b2, b3, b4, b5, b6, b7]).map (·.toNat.toUInt8) := by
    rw [← h, ← Utf8.encode_ofList (by rw [h]; exact Hexadecimal.isAscii_of_mem_chars), String.ofList_toList]
  -- four digits from a multiple of four on are those of two bytes
  have hdigits : ∀ i, ((Utf8.encode t.hashText).drop (i * 4)).take 4 =
      (Hexadecimal.chars (([b0, b1, b2, b3, b4, b5, b6, b7].drop (2 * i)).take 2)).map (·.toNat.toUInt8) := by
    intro i
    rw [hencode, ← map_drop, ← map_take, show i * 4 = 2 * (2 * i) by omega, Hexadecimal.drop_chars,
      show 4 = 2 * 2 from rfl, Hexadecimal.take_chars]
  have hshort : ∀ lo hi : UInt8, ¬ ((Hexadecimal.chars [lo, hi]).map (fun c => c.toNat.toUInt8)).length < 4 := by
    intro lo hi
    simp
  unfold hashWords
  simp only [hdigits, mapM_cons, mapM_nil, List.drop, List.take, hshort, if_false, read_hash_digits]
  rfl

theorem length_programHeader {t : Template} {header : Bytes} (h : programHeader t = .ok header) :
    header.length = 16 := by
  obtain ⟨hash, hhash, h⟩ := exists_of_bind_eq_ok h
  obtain rfl := Except.ok.inj h
  have hlen : hash.length = 4 := by
    unfold hashWords at hhash
    exact length_of_mapM hhash
  rw [Words.length_toBytes, length_append, hlen]
  rfl

/-- **The header.** For a template whose hash is given in digits, the header of a program holds the program's
address and the first eight bytes of the hash. -/
theorem programHeader_eq {t : Template} (h : ∀ c ∈ t.sha.toList, Hexadecimal.isDigit c = true) :
    ∃ hash : Bytes, t.hashText.toList = Hexadecimal.chars hash ∧ hash.length = 8 ∧
      programHeader t = .ok (Bytes.ofWord16 headerVersion ++ [0, 0] ++ Bytes.ofWord32 t.codeStartPadded ++ hash) := by
  obtain ⟨hash, hhash, hlen⟩ := Template.exists_hash h
  refine ⟨hash, hhash, hlen, ?_⟩
  match hash, hlen with
  | [b0, b1, b2, b3, b4, b5, b6, b7], _ =>
    unfold programHeader
    rw [hashWords_eq hhash]
    apply congrArg Except.ok
    have hstart := toBytes_word32 t.codeStartPadded
    unfold Words.toBytes at hstart ⊢
    simp only [flatMap_cons, flatMap_nil, append_nil, cons_append, nil_append] at hstart ⊢
    rw [ofWord16_join, ofWord16_join, ofWord16_join, ofWord16_join, ← hstart]
    simp [Bytes.ofWord16]

end Image
end Firmware
