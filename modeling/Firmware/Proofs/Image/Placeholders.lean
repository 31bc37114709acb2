import Firmware.Proofs.Image.Rewriting
import Firmware.Proofs.Uf2.Pages

/-!
# Templates without placeholders

Placeholders are looked for in every template. Where no record has the marker that starts one, the lines of a
template stay as they are (`replaceInLines_line`): the digits of the marker may well stand on a line, but only
across its parts, or half a byte off, and such places are passed over. A block file stays as it is where the marker
does not stand at a multiple of four (`replaceInPages_eq`).
-/

namespace Firmware

namespace ObjectHeader

open IntelHex IntelHex.Entry Hexadecimal List

/-- Whether an entry has the marker of a placeholder among its data. -/
def HasMarker (e : Entry) : Prop := marker <:+: e.data

instance (e : Entry) : Decidable (HasMarker e) := inferInstanceAs (Decidable (_ <:+: _))

theorem markerDigits_eq : markerDigits = (chars marker).map (·.toNat.toUInt8) := by decide +kernel

/-- The digits of the marker stand at a whole byte of the data exactly if the marker does. -/
theorem markerDigits_prefix_iff (e : Entry) (o : Nat) :
    markerDigits <+: (Utf8.encode e.line).drop (headDigits + 2 * o) ↔ marker <+: (e.data ++ [e.checksum]).drop o := by
  have hbytes : e.bytes.drop (4 + o) = (e.data ++ [e.checksum]).drop o := by
    rw [← drop_drop]
    rfl
  have hdigits : (Utf8.encode e.line).drop (headDigits + 2 * o) =
      (chars ((e.data ++ [e.checksum]).drop o)).map (·.toNat.toUInt8) := by
    rw [encode_line, show headDigits + 2 * o = 2 * (4 + o) + 1 by unfold headDigits; omega, drop_succ_cons,
      ← map_drop, drop_chars, hbytes]
  -- eight digits from a whole byte on are those of four bytes
  rw [hdigits, List.prefix_iff_eq_take, List.prefix_iff_eq_take, markerDigits_eq, length_map, length_chars,
    ← map_take, take_chars]
  exact ⟨fun h => Numeral.map_chars_inj h, fun h => congrArg (fun b => (chars b).map (·.toNat.toUInt8)) h⟩

theorem length_encode_line (e : Entry) : (Utf8.encode e.line).length = 2 * e.data.length + 11 := by
  rw [encode_line, length_cons, length_map, length_chars]
  simp only [Entry.bytes, addressBytes, length_cons, length_append, length_nil]
  omega

/-- The places in the line of a record are the offsets at which the marker stands in its data. -/
theorem isPlace_line {e : Entry} {i : Nat} :
    IsPlace e.line i ↔ ∃ o, i = headDigits + 2 * o ∧ o + marker.length ≤ e.data.length ∧ marker <+: e.data.drop o := by
  have hlength := length_encode_line e
  have height : markerDigits.length = 8 := by decide +kernel
  have hfour : marker.length = 4 := rfl
  have hnine : headDigits = 9 := rfl
  have hcut : ∀ o, o + marker.length ≤ e.data.length →
      (marker <+: (e.data ++ [e.checksum]).drop o ↔ marker <+: e.data.drop o) := by
    intro o ho
    rw [drop_append_of_le_length (by omega)]
    refine ⟨fun h => List.prefix_of_prefix_length_le h (List.prefix_append ..) ?_,
      fun h => h.trans (List.prefix_append ..)⟩
    rw [length_drop]
    omega
  constructor
  · rintro ⟨hmarker, hhead, hfits, hwhole⟩
    obtain ⟨o, rfl⟩ : ∃ o, i = headDigits + 2 * o := ⟨(i - headDigits) / 2, by omega⟩
    have ho : o + marker.length ≤ e.data.length := by omega
    exact ⟨o, rfl, ho, (hcut o ho).1 ((markerDigits_prefix_iff e o).1 (List.isPrefixOf_iff_prefix.1 hmarker))⟩
  · rintro ⟨o, rfl, ho, hmarker⟩
    exact ⟨List.isPrefixOf_iff_prefix.2 ((markerDigits_prefix_iff e o).2 ((hcut o ho).2 hmarker)),
      Nat.le_add_right .., by omega, by omega⟩

theorem replaceInLine_line (t : Template) {e : Entry} (h : ¬ HasMarker e) (rest : List String) (fuel : Nat)
    {pos : Nat} (hpos : pos ≤ (Utf8.encode e.line).length) :
    replaceInLine t fuel pos (e.line :: rest) = .ok (e.line :: rest) := by
  have hnone : ∀ i, ¬ IsPlace e.line i := by
    intro i hplace
    obtain ⟨o, -, -, hmarker⟩ := isPlace_line.1 hplace
    exact h (hmarker.isInfix.trans (List.drop_suffix ..).isInfix)
  induction fuel generalizing pos with
  | zero => rfl
  | succ fuel ih =>
    have hvisits := visits_replaceInLine t fuel rest hpos
    generalize replaceInLine t (fuel + 1) pos (e.line :: rest) = result at hvisits
    cases hvisits with
    | done => rfl
    | passes i _ hlt => exact ih hlt
    | fails i _ _ hplace => exact absurd hplace (hnone i)
    | refused i _ _ _ _ hplace => exact absurd hplace (hnone i)
    | writes i _ _ _ hplace => exact absurd hplace (hnone i)

theorem replaceInLinesOnto_line (t : Template) {es : List Entry} (h : ∀ e ∈ es, ¬ HasMarker e) (n : Nat)
    (acc : List String) : replaceInLinesOnto t n acc (es.map line) = .ok (acc.reverse ++ es.map line) := by
  induction es generalizing n acc with
  | nil =>
    unfold replaceInLinesOnto
    cases n <;> rfl
  | cons e rest ih =>
    cases n with
    | zero => rfl
    | succ n =>
      have he := replaceInLine_line t (h e (mem_cons_self ..)) (rest.map line)
        ((Utf8.encode e.line).length + 2) (Nat.zero_le _)
      rw [map_cons, replaceInLinesOnto, he]
      show replaceInLinesOnto t n (e.line :: acc) (rest.map line) = _
      rw [ih fun f hf => h f (mem_cons_of_mem e hf), reverse_cons, append_assoc]
      rfl

/-- **Lines without placeholders** stay as they are. -/
theorem replaceInLines_line (t : Template) {es : List Entry} (h : ∀ e ∈ es, ¬ HasMarker e) :
    replaceInLines t (es.map line) = .ok (es.map line) :=
  replaceInLinesOnto_line t h ..

/-! ## In block files -/

/-- Whether writes leave the marker of a placeholder at an aligned address. -/
def HoldsMarker (j : Journal) : Prop :=
  ∃ a : UInt32, a.toNat % 4 = 0 ∧ ∀ i, i < marker.length → j.byteAt? (a + i.toUInt32) = marker[i]?

/-- Bytes among which the first one of the marker does not occur leave no marker. -/
theorem not_holdsMarker {j : Journal} (h : ∀ w ∈ j, 0x40 ∉ w.data) : ¬ HoldsMarker j := by
  rintro ⟨a, -, hmarker⟩
  have hfirst : j.byteAt? (a + (0 : Nat).toUInt32) = some 0x40 := hmarker 0 (by decide)
  obtain ⟨w, hw, hbyte⟩ := Journal.exists_of_byteAt? hfirst
  exact h w hw (mem_of_getElem? hbyte)

open Uf2 BlockFile

variable {f : BlockFile} {j : Journal}

/-- A page of a file without the marker has none at a multiple of four. -/
theorem not_isPrefixOf_page (h : f.Records j) (hnone : ¬ HoldsMarker j) {p : Page} (hp : p ∈ f.pages) {k : Nat}
    (hk : k < payloadSize / 4) : ¬ marker.isPrefixOf (p.data.drop (k * 4)) = true := by
  intro hstarts
  have hk : k < 64 := hk
  obtain ⟨rest, hrest⟩ := List.isPrefixOf_iff_prefix.1 hstarts
  have haddress := h.sound.toNat_pageAddress hp (by omega : k * 4 < 256)
  apply hnone
  refine ⟨p.number <<< 8 + (k * 4).toUInt32, by omega, fun i hi => ?_⟩
  have hi : i < 4 := hi
  have hsum : p.number <<< 8 + (k * 4).toUInt32 + i.toUInt32 = p.number <<< 8 + (k * 4 + i).toUInt32 := by
    rw [UInt32.add_assoc]
    congr 1
    exact (UInt32.ofNat_add ..).symm
  have hbyte : f.byteAt? (p.number <<< 8 + (k * 4 + i).toUInt32) = marker[i]? := by
    rw [h.sound.byteAt?_page hp (by omega), ← getElem?_drop, ← hrest, getElem?_append_left hi]
  obtain ⟨m, hm⟩ : ∃ m, marker[i]? = some m := ⟨_, getElem?_eq_getElem hi⟩
  -- the marker has no byte like those of erased flash
  have herased : m ≠ eraseValue := by
    have hmem := mem_of_getElem? hm
    intro heq
    rw [heq] at hmem
    exact absurd hmem (by decide)
  rw [hm] at hbyte
  have hheld := ((h.reflects _ _).1 hbyte).2
  rw [hsum, hm]
  cases hj : j.byteAt? (p.number <<< 8 + (k * 4 + i).toUInt32) with
  | none =>
    rw [hj] at hheld
    exact absurd hheld.symm herased
  | some b =>
    rw [hj] at hheld
    exact congrArg some hheld

/-- **Block files without placeholders** stay as they are. -/
theorem replaceInPages_eq (t : Template) (h : f.Records j) (hnone : ¬ HoldsMarker j) : replaceInPages t f = .ok f := by
  have hpage : ∀ p ∈ f.pages, replaceInPage t f p.number = .ok f := by
    intro p hp
    have hfilter : ((List.range (payloadSize / 4)).map (· * 4)).filter
        (fun off => marker.isPrefixOf (p.data.drop off)) = [] := by
      rw [filter_eq_nil_iff]
      intro off hoff
      obtain ⟨k, hk, rfl⟩ := mem_map.1 hoff
      exact not_isPrefixOf_page h hnone hp (mem_range.1 hk)
    unfold replaceInPage
    dsimp only
    rw [h.sound.read_page hp, Option.getD_some, hfilter]
    rfl
  -- no page changes the file, so the next one finds it as it was
  unfold replaceInPages pageNumbers
  rw [foldlM_map]
  generalize f.pages = pages at hpage
  induction pages with
  | nil => rfl
  | cons p rest ih =>
    rw [foldlM_cons, hpage p (mem_cons_self ..)]
    exact ih fun q hq => hpage q (mem_cons_of_mem p hq)

end ObjectHeader
end Firmware
