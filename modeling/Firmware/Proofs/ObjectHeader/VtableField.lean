import Firmware.Proofs.ObjectHeader.Runs

/-!
# Dispatch tables in headers

Where objects are counted, the header of an object in flash starts with the count of such objects, and has 16 bits for
the address of its dispatch table. Such a header has no byte at its ends that could belong to a placeholder, so once it
is written no later step meets it (`Kept.step`): what a search leaves at a placeholder is the placeholder or the header
of that object (`kept_of_run`).

The address is shifted and cut to its lower 16 bits without a further look. Elsewhere it is refused if bits are lost.
So the 16 bits stand for the address exactly if it would not be refused (`vtable_field_faithful_iff`).
-/

namespace Firmware
namespace ObjectHeader

open Places Relation Uf2 BlockFile IntelHex

variable {G : Type} [Places G] {t : Template} {m₀ m m' : G → Option UInt8} {a a' : G} {k k' : Kind} {c : Bytes}
  {h : ObjectHeader}

/-! ## What overlaps -/

/-- The bytes of a header that starts with the count of objects in flash. -/
theorem encode_first (hgc : t.target.gc = false) (hok : ofContent t k c = .ok h) : h.encode[0]? = some 0xfe := by
  obtain ⟨vtable, -, -, rfl⟩ := ofContent_eq_ok.1 hok
  unfold encode
  rw [ofWord32_firstWord hgc]
  rfl

/-- No byte of a placeholder is one that a header starts or ends with. -/
theorem placeholder_ne_ends (k : Kind) {d : Nat} (hd : d < size) :
    k.placeholder[d]? ≠ some 0 ∧ k.placeholder[d]? ≠ some 0xfe := by
  refine ⟨placeholder_ne_zero k hd, fun h => ?_⟩
  have hmem := List.mem_of_getElem? h
  cases k <;> exact absurd hmem (by decide)

/-- Headers and placeholders do not overlap. -/
theorem StandIn.ne_of_header (hgc : t.target.gc = false) (hp : StandIn m a k.placeholder)
    (hok : ofContent t k' c = .ok h) (hc : c.length ≤ window) (hh : StandIn m a' h.encode) {d e : Nat} (hd : d < size)
    (he : e < size) : up a d ≠ up a' e := by
  intro heq
  have hsize : size = 6 := rfl
  rcases Nat.le_total d e with hle | hle
  · -- the end of the header lies in the placeholder
    have hstart := eq_up_of_up_eq heq hle
    have hlast := hh 5 (by decide : 5 < size)
    have hbyte := hp (5 - (e - d)) (show _ < size by omega)
    rw [hstart, up_up, show e - d + (5 - (e - d)) = 5 by omega, hlast, encode_last hok hc] at hbyte
    exact (placeholder_ne_ends k (by omega)).1 hbyte.symm
  · -- its start does
    have hstart := eq_up_of_up_eq heq.symm hle
    have hfirst := hh 0 (by decide : 0 < size)
    rw [hstart, up_up, Nat.add_zero, hp (d - e) (show _ < size by omega), encode_first hgc hok] at hfirst
    exact (placeholder_ne_ends k (by omega)).2 hfirst

/-- A placeholder does not start within another one. -/
theorem StandIn.not_up (hp : StandIn m a k.placeholder) {d : Nat} (hpos : 0 < d) (hd : d < size) :
    ¬ StandIn m (up a d) k'.placeholder := fun hp' =>
  hp.not_marker hpos hd fun e he =>
    (hp' e (Nat.lt_of_lt_of_le he (by show 4 ≤ 6; decide))).trans (List.getElem?_append_left he)

/-- Placeholders that overlap are one. -/
theorem StandIn.eq_of_up_eq (hp : StandIn m a k.placeholder) (hp' : StandIn m a' k'.placeholder) {d e : Nat}
    (hd : d < size) (he : e < size) (heq : up a d = up a' e) : a = a' ∧ k = k' := by
  have hplace : a = a' := by
    rcases Nat.lt_trichotomy d e with hlt | rfl | hgt
    · have hstart := eq_up_of_up_eq heq (Nat.le_of_lt hlt)
      exact absurd (hstart ▸ hp) (hp'.not_up (by omega) (by omega))
    · exact up_inj heq
    · have hstart := eq_up_of_up_eq heq.symm (Nat.le_of_lt hgt)
      exact absurd (hstart ▸ hp') (hp.not_up (by omega) (by omega))
  subst hplace
  have hsign : some k.sign = some k'.sign := (hp 4 (by decide : 4 < size)).symm.trans (hp' 4 (by decide : 4 < size))
  exact ⟨rfl, Kind.sign_inj (Option.some.inj hsign)⟩

/-! ## Runs -/

/-- Whether a header of an object of a kind stands at a place. -/
def HeaderIn (t : Template) (m : G → Option UInt8) (a : G) (k : Kind) : Prop :=
  ∃ c h, ofContent t k c = .ok h ∧ c.length ≤ window ∧ StandIn m a h.encode

/-- Whether what stands at the placeholders of a memory is still a placeholder, or the header of its object. -/
def Kept (t : Template) (m₀ m : G → Option UInt8) : Prop :=
  ∀ a k, StandIn m₀ a (Kind.placeholder k) → StandIn m a k.placeholder ∨ HeaderIn t m a k

/-- What stands apart from the place of a step stays. -/
theorem StandIn.of_apart {b : Bytes} (hb : StandIn m a b) (hframe : ∀ x, (∀ d < size, x ≠ up a' d) → m' x = m x)
    (hapart : ∀ d < b.length, ∀ e < size, up a d ≠ up a' e) : StandIn m' a b := by
  intro d hd
  rw [hframe _ (hapart d hd), hb d hd]

theorem Kept.step (hgc : t.target.gc = false) (h : Kept t m₀ m) (hstep : Replaces t m m') : Kept t m₀ m' := by
  obtain ⟨a', k', c, header, hplaceholder, hok, hc, hheader, hframe⟩ := hstep
  intro a k hstart
  -- a step replaces this placeholder, or it goes elsewhere: nothing that stands here overlaps its place
  obtain hstill | ⟨c₀, h₀, hok₀, hc₀, hthere⟩ := h a k hstart
  · by_cases hoverlap : ∃ d < size, ∃ e < size, up a d = up a' e
    · obtain ⟨d, hd, e, he, heq⟩ := hoverlap
      obtain ⟨rfl, rfl⟩ := hstill.eq_of_up_eq hplaceholder hd he heq
      exact .inr ⟨c, header, hok, hc, hheader⟩
    · exact .inl (hstill.of_apart hframe fun d hd e he heq => hoverlap ⟨d, hd, e, he, heq⟩)
  · refine .inr ⟨c₀, h₀, hok₀, hc₀, hthere.of_apart hframe fun d hd e he heq => ?_⟩
    exact hplaceholder.ne_of_header hgc hok₀ hc₀ hthere he hd heq.symm

theorem kept_of_run (hgc : t.target.gc = false) (hrun : ReflTransGen (Replaces t) m₀ m) : Kept t m₀ m := by
  induction hrun with
  | refl => exact fun a k hstart => .inl hstart
  | tail _ hstep ih => exact ih.step hgc hstep

/-! ## The field of a header -/

/-- The 16 bits of a header for the address of a dispatch table. -/
def vtableField (t : Template) (vtable : UInt32) : UInt16 := (shiftRight32 vtable t.target.vtableShift).toUInt16

/-- Whether 16 bits stand for the address of a dispatch table: the address comes back from them, and they are what it is
stored in elsewhere. -/
def StandsFor (t : Template) (v : UInt16) (vtable : UInt32) : Prop :=
  shiftLeft32 v.toUInt32 t.target.vtableShift = vtable ∧ t.encodeVtable vtable = .ok v.toUInt32

/-- What is left of an address if it is shifted and cut stands for it exactly if it would not be refused. -/
theorem standsFor_vtableField_iff (t : Template) (vtable : UInt32) :
    StandsFor t (vtableField t vtable) vtable ↔ ∃ w, t.encodeVtable vtable = .ok w := by
  refine ⟨fun h => ⟨_, h.2⟩, fun ⟨w, hw⟩ => ?_⟩
  have hok := hw
  unfold Template.encodeVtable at hok
  dsimp only at hok
  split at hok
  · exact nomatch hok
  · rename_i hchecks
    obtain rfl := Except.ok.inj hok
    rw [Bool.or_eq_true, decide_eq_true_eq, bne_iff_ne, not_or, not_not] at hchecks
    obtain ⟨hrange, hback⟩ := hchecks
    -- within the range nothing is cut off
    have hcut : (vtableField t vtable).toUInt32 = shiftRight32 vtable t.target.vtableShift := by
      apply UInt32.toNat_inj.1
      rw [vtableField, UInt16.toNat_toUInt32, UInt32.toNat_toUInt16]
      have : (shiftRight32 vtable t.target.vtableShift).toNat < 0xffff :=
        Nat.lt_of_not_le fun hle => hrange (UInt32.le_iff_toNat_le.2 hle)
      exact Nat.mod_eq_of_lt (by omega)
    exact ⟨by rw [hcut, hback], by rw [hcut, hw]⟩

/-- Clearing the lowest bit of an odd address. -/
theorem and_not_one_eq {address : UInt32} (h : address.toNat % 4 = 1) : address &&& ~~~1 = address ^^^ 1 := by
  apply UInt32.toNat_inj.1
  have hclear := toNat_and_not_mask (a := address) (show (2 : UInt32).toNat = 2 ^ 1 from rfl)
  rw [show (2 : UInt32) - 1 = 1 from rfl, show (2 : UInt32).toNat = 2 from rfl] at hclear
  rw [xor_one_eq (by omega), hclear]
  omega

/-- The bytes of a header, where objects are counted. -/
theorem encode_eq_of_ofContent (hgc : t.target.gc = false) (hok : ofContent t k c = .ok h) :
    ∃ address n, t.address? k.vtable = some address ∧
      h.encode = Bytes.ofWord16 0xfffe ++ Bytes.ofWord16 (vtableField t (address &&& ~~~1)) ++ Bytes.ofWord16 n := by
  obtain ⟨vtable, hvtable, -, rfl⟩ := ofContent_eq_ok.1 hok
  obtain ⟨address, haddress, hodd, rfl⟩ := vtableOf_eq_ok.1 hvtable
  refine ⟨address, (k.lengthOf c).toUInt16, haddress, ?_⟩
  unfold encode
  rw [ofWord32_firstWord hgc, and_not_one_eq hodd, vtableField]

/-- Whether what a search leaves at each placeholder is the placeholder, or a header whose 16 bits for the dispatch
table stand for its address exactly if the address would not be refused. -/
def Compresses (t : Template) (m m' : G → Option UInt8) : Prop :=
  ∀ a k, StandIn m a (Kind.placeholder k) → StandIn m' a k.placeholder ∨
    ∃ address n, t.address? k.vtable = some address ∧
      StandIn m' a (Bytes.ofWord16 0xfffe ++ Bytes.ofWord16 (vtableField t (address &&& ~~~1)) ++ Bytes.ofWord16 n) ∧
      (StandsFor t (vtableField t (address &&& ~~~1)) (address &&& ~~~1) ↔
        ∃ w, t.encodeVtable (address &&& ~~~1) = .ok w)

theorem Kept.compresses (hgc : t.target.gc = false) (h : Kept t m m') : Compresses t m m' := by
  intro a k hstart
  obtain hstill | ⟨c, header, hok, -, hthere⟩ := h a k hstart
  · exact .inl hstill
  · obtain ⟨address, n, haddress, hencode⟩ := encode_eq_of_ofContent hgc hok
    exact .inr ⟨address, n, haddress, hencode ▸ hthere, standsFor_vtableField_iff t _⟩

/-- Where objects are counted, a header that is written into a flat image, a block file or record lines stands for the
address of its dispatch table exactly if that address would not be refused elsewhere. -/
theorem vtable_field_faithful_iff (t : Template) (hgc : t.target.gc = false) :
    (∀ b b', replaceIn t b = .ok b' → Compresses t (memoryOf b) (memoryOf b')) ∧
    (∀ f f' : BlockFile, f.Sound → replaceInPages t f = .ok f' → Compresses t f.byteAt? f'.byteAt?) ∧
    (∀ lines lines', Short lines → replaceInLines t lines = .ok lines' →
      Compresses t (memoryOf (dataOf lines)) (memoryOf (dataOf lines'))) := by
  refine ⟨fun b b' h => ?_, fun f f' hf h => ?_, fun lines lines' hshort h => ?_⟩
  · exact (kept_of_run hgc (run_replaceIn h)).compresses hgc
  · exact (kept_of_run hgc (run_replaceInPages hf h).2).compresses hgc
  · exact (kept_of_run hgc (run_replaceInLines hshort h)).compresses hgc

theorem vtable_field_faithful_paged :
    (tables (Template.pagedTarget 0) 0x2001 0x3001).target.gc = false ∧
    replaceIn (tables (Template.pagedTarget 0) 0x2001 0x3001) stringAndBuffer =
      .ok [0xfe, 0xff, 0x00, 0x08, 1, 0, 0x61, 0, 0xfe, 0xff, 0x00, 0x0c, 0, 0, 1, 2, 3, 4] ∧
    Compresses (tables (Template.pagedTarget 0) 0x2001 0x3001) (memoryOf stringAndBuffer)
      (memoryOf [0xfe, 0xff, 0x00, 0x08, 1, 0, 0x61, 0, 0xfe, 0xff, 0x00, 0x0c, 0, 0, 1, 2, 3, 4]) := by
  have hgc : (tables (Template.pagedTarget 0) 0x2001 0x3001).target.gc = false := rfl
  have hreplaced : replaceIn (tables (Template.pagedTarget 0) 0x2001 0x3001) stringAndBuffer =
      .ok [0xfe, 0xff, 0x00, 0x08, 1, 0, 0x61, 0, 0xfe, 0xff, 0x00, 0x0c, 0, 0, 1, 2, 3, 4] := rfl
  exact ⟨hgc, hreplaced, (vtable_field_faithful_iff _ hgc).1 _ _ hreplaced⟩

/-- The dispatch table of strings lies where an address has more bits than a header holds: it is refused, and yet a
header is written, for the address zero. -/
theorem vtable_field_cut :
    (tables (Template.pagedTarget 0) 0x100001 0x3001).target.gc = false ∧
    (tables (Template.pagedTarget 0) 0x100001 0x3001).address? Kind.string.vtable = some 0x100001 ∧
    (tables (Template.pagedTarget 0) 0x100001 0x3001).encodeVtable 0x100000 =
      .error (.vtableNotEncodable 0x100000 2) ∧
    replaceIn (tables (Template.pagedTarget 0) 0x100001 0x3001) stringAndBuffer =
      .ok [0xfe, 0xff, 0x00, 0x00, 1, 0, 0x61, 0, 0xfe, 0xff, 0x00, 0x0c, 0, 0, 1, 2, 3, 4] ∧
    ¬ StandsFor (tables (Template.pagedTarget 0) 0x100001 0x3001) 0 0x100000 :=
  ⟨rfl, rfl, rfl, rfl, fun h => absurd h.1 (by decide)⟩

end ObjectHeader
end Firmware
