import Firmware.Uf2.BlockFile
import Mathlib.Algebra.Group.Nat.Defs

/-!
# Writes to flash

An image says which bytes go where, as a row of writes of which a later one wins. Record lines and
block files are two ways to put down such a row; `Journal` is what both of them are read as. Addresses have
32 bits and wrap around.
-/

namespace Firmware

open List Option

/-- The distance of two addresses, going up and around. -/
theorem toNat_sub_address (a b : UInt32) : (a - b).toNat = if b.toNat ≤ a.toNat then a.toNat - b.toNat
      else 2 ^ 32 + a.toNat - b.toNat := by
  have ha := a.toNat_lt
  have hb := b.toNat_lt
  rw [UInt32.toNat_sub]
  split <;> omega

/-- Bytes that go to flash from an address on. -/
structure Write where
  address : UInt32
  data : Bytes
deriving DecidableEq, Repr

namespace Write

variable {w : Write}

/-- The byte that a write puts at an address. -/
def byteAt? (w : Write) (a : UInt32) : Option UInt8 := w.data[(a - w.address).toNat]?

/-- Whether a write needs the page of an address: it starts there or puts a byte there. -/
def Touches (w : Write) (a : UInt32) : Prop :=
  ∃ b : UInt32, Uf2.BlockFile.pageOf b = Uf2.BlockFile.pageOf a ∧
    (b = w.address ∨ (w.byteAt? b).isSome)

/-- The address behind a write, counted without wrapping around. -/
def stop (w : Write) : Nat := w.address.toNat + w.data.length

/-- What is left of a write behind its first bytes ends where the write does. -/
theorem stop_drop (w : Write) {n : Nat} (hn : n < w.data.length) (h : w.stop ≤ 2 ^ 32) :
    stop ⟨w.address + n.toUInt32, w.data.drop n⟩ = w.stop := by
  unfold stop at h ⊢
  rw [UInt32.toNat_add, UInt32.toNat_ofNat_of_lt' (by show n < 4294967296; omega), length_drop]
  omega

/-- Where a write does not wrap around, its bytes stand at consecutive addresses. -/
theorem byteAt?_eq (h : w.stop ≤ 2 ^ 32) (a : UInt32) :
    w.byteAt? a = if w.address.toNat ≤ a.toNat then w.data[a.toNat - w.address.toNat]? else none := by
  have ha := a.toNat_lt
  have hstop : w.address.toNat + w.data.length ≤ 4294967296 := h
  unfold byteAt?
  rw [UInt32.toNat_sub]
  show w.data[(4294967296 - w.address.toNat + a.toNat) % 4294967296]? = _
  by_cases hle : w.address.toNat ≤ a.toNat
  · rw [if_pos hle, show (4294967296 - w.address.toNat + a.toNat) % 4294967296 = a.toNat - w.address.toNat by omega]
  · -- an address in front of the write is as far behind it as flash is large
    rw [if_neg hle, getElem?_eq_none (by omega)]

theorem isSome_byteAt? (h : w.stop ≤ 2 ^ 32) (a : UInt32) :
    (w.byteAt? a).isSome ↔ w.address.toNat ≤ a.toNat ∧ a.toNat < w.stop := by
  rw [byteAt?_eq h]
  unfold stop
  by_cases hle : w.address.toNat ≤ a.toNat
  · rw [if_pos hle, isSome_getElem?]
    omega
  · rw [if_neg hle]
    exact ⟨fun hnone => (nomatch hnone), fun hand => absurd hand.1 hle⟩

theorem byteAt?_eq_none (h : w.stop ≤ 2 ^ 32) {a : UInt32} (ha : a.toNat < w.address.toNat ∨ w.stop ≤ a.toNat) :
    w.byteAt? a = none := by
  rw [← not_isSome_iff_eq_none, isSome_byteAt? h]
  omega

/-- Other bytes of the same number go to the same addresses. -/
theorem isSome_byteAt?_of_length {data : Bytes} (h : data.length = w.data.length) (a : UInt32) :
    (byteAt? ⟨w.address, data⟩ a).isSome ↔ (w.byteAt? a).isSome := by
  unfold byteAt?
  rw [isSome_getElem?, isSome_getElem?, h]

/-- Whether two writes put bytes at one address. -/
def Meets (v w : Write) : Prop := ∃ a, (v.byteAt? a).isSome ∧ (w.byteAt? a).isSome

/-- Two writes meet where one of them starts within the other, which may reach around the end of flash. -/
theorem meets_iff {v : Write} (hv : v.data.length ≤ 2 ^ 32) (hw : w.data.length ≤ 2 ^ 32) :
    v.Meets w ↔ v.data ≠ [] ∧ w.data ≠ [] ∧ (v.address.toNat < w.stop ∧ w.address.toNat < v.stop ∨
      v.address.toNat + 2 ^ 32 < w.stop ∨ w.address.toNat + 2 ^ 32 < v.stop) := by
  have hva := v.address.toNat_lt
  have hwa := w.address.toNat_lt
  rw [← length_pos_iff, ← length_pos_iff]
  unfold Meets byteAt? stop
  simp only [isSome_getElem?, toNat_sub_address]
  constructor
  · -- an address in both, which either of them may reach by going around
    rintro ⟨a, hav, haw⟩
    have ha := a.toNat_lt
    split at hav <;> split at haw <;> omega
  · rintro ⟨hvpos, hwpos, hmeet⟩
    -- the later of the two starts is in both, going around where one of them does
    by_cases hin : (if v.address.toNat ≤ w.address.toNat then w.address.toNat - v.address.toNat
        else 2 ^ 32 + w.address.toNat - v.address.toNat) < v.data.length
    · refine ⟨w.address, hin, ?_⟩
      rw [if_pos (Nat.le_refl _), Nat.sub_self]
      exact hwpos
    · refine ⟨v.address, ?_, ?_⟩
      · rw [if_pos (Nat.le_refl _), Nat.sub_self]
        exact hvpos
      · split at hin <;> split <;> omega

/-- Two writes meet where a byte of one goes to an address of the other. -/
theorem meets_iff_exists {v : Write} :
    v.Meets w ↔ ∃ i < w.data.length, (v.byteAt? (w.address + i.toUInt32)).isSome := by
  constructor
  · rintro ⟨a, hv, hw⟩
    rw [byteAt?, isSome_getElem?] at hw
    refine ⟨(a - w.address).toNat, hw, ?_⟩
    have hback : w.address + (a - w.address).toNat.toUInt32 = a := by
      show w.address + UInt32.ofNat (a - w.address).toNat = a
      rw [UInt32.ofNat_toNat, UInt32.add_comm, UInt32.sub_add_cancel]
    rwa [hback]
  · rintro ⟨i, hi, hv⟩
    refine ⟨_, hv, ?_⟩
    rw [byteAt?, isSome_getElem?]
    -- going around may lead to a byte in front of this one
    calc (w.address + i.toUInt32 - w.address).toNat
        = i % 2 ^ 32 := by rw [UInt32.add_comm, UInt32.add_sub_cancel]; exact UInt32.toNat_ofNat'
      _ ≤ i := Nat.mod_le ..
      _ < w.data.length := hi

instance (v w : Write) : Decidable (v.Meets w) := decidable_of_iff _ meets_iff_exists.symm

/-- The first `n` bytes of a write and those behind them are the whole write. -/
theorem byteAt?_split (w : Write) {n : Nat} (hn : n < 2 ^ 32) (hlen : w.data.length ≤ 2 ^ 32)
    (a : UInt32) :
    ((⟨w.address + n.toUInt32, w.data.drop n⟩ : Write).byteAt? a).or
      ((⟨w.address, w.data.take n⟩ : Write).byteAt? a) = w.byteAt? a := by
  have hnat : n.toUInt32.toNat = n := UInt32.toNat_ofNat_of_lt' hn
  have hsub : a - (w.address + n.toUInt32) = a - w.address - n.toUInt32 := by grind
  simp only [byteAt?, hsub, toNat_sub_address (a - w.address), hnat]
  -- only the distance from the start of the write counts
  generalize (a - w.address).toNat = d
  by_cases hd : n ≤ d
  · rw [if_pos hd, getElem?_drop, getElem?_take_eq_none hd, or_none]
    congr 1
    omega
  · rw [if_neg hd, getElem?_take_of_lt (by omega), getElem?_eq_none (by simp; omega)]
    rfl

/-- Bytes that are written behind others belong to the same write. -/
theorem byteAt?_append (address : UInt32) {first second : Bytes} (h : first.length + second.length ≤ 2 ^ 32)
    (hfirst : first.length < 2 ^ 32) (a : UInt32) :
    (byteAt? ⟨address + first.length.toUInt32, second⟩ a).or (byteAt? ⟨address, first⟩ a) =
      byteAt? ⟨address, first ++ second⟩ a := by
  have hsplit := byteAt?_split ⟨address, first ++ second⟩ hfirst (by rw [length_append]; exact h) a
  rwa [drop_left, take_left] at hsplit

/-- A write with zeros behind its bytes. -/
theorem byteAt?_append_zeros {n : Nat} (h : w.stop + n ≤ 2 ^ 32) (a : UInt32) :
    byteAt? ⟨w.address, w.data ++ List.replicate n 0⟩ a =
      (w.byteAt? a).or (if w.stop ≤ a.toNat ∧ a.toNat < w.stop + n then some 0 else none) := by
  have hall : stop ⟨w.address, w.data ++ List.replicate n 0⟩ ≤ 2 ^ 32 := by
    unfold stop at h ⊢
    rw [length_append, length_replicate, ← Nat.add_assoc]
    exact h
  rw [byteAt?_eq hall, byteAt?_eq (Nat.le_trans (Nat.le_add_right ..) h)]
  dsimp only
  unfold stop
  by_cases hle : w.address.toNat ≤ a.toNat
  · rw [if_pos hle, if_pos hle]
    by_cases hin : a.toNat < w.address.toNat + w.data.length
    · rw [getElem?_append_left (by omega), if_neg (by omega), or_none]
    · rw [getElem?_append_right (by omega), getElem?_replicate,
        getElem?_eq_none (by omega : w.data.length ≤ a.toNat - w.address.toNat), none_or]
      by_cases hzero : a.toNat < w.address.toNat + w.data.length + n
      · rw [if_pos (by omega), if_pos (by omega)]
      · rw [if_neg (by omega), if_neg (by omega)]
  · rw [if_neg hle, if_neg hle, if_neg (by omega)]
    rfl

end Write

/-- Writes in order; a later one wins. -/
abbrev Journal := List Write

namespace Journal

variable {j : Journal} {a : UInt32} {b : UInt8}

/-- The byte that stands at an address after the writes. -/
def byteAt? : Journal → UInt32 → Option UInt8
  | [], _ => none
  | w :: rest, a => (byteAt? rest a).or (w.byteAt? a)

/-- Whether one of the writes needs the page of an address. -/
def Touches (j : Journal) (a : UInt32) : Prop := ∃ w ∈ j, w.Touches a

/-- Whether flash that is erased in the pages of the writes has a byte at an address after
them. -/
def Holds (j : Journal) (a : UInt32) (b : UInt8) : Prop :=
  j.Touches a ∧ (j.byteAt? a).getD Uf2.eraseValue = b

/-- Whether writes follow each other with growing addresses and do not overlap. -/
def Ordered (j : Journal) : Prop :=
  List.Pairwise (fun v w : Write => v.address < w.address ∧ v.stop ≤ w.address.toNat) j

instance (j : Journal) : Decidable j.Ordered := inferInstanceAs (Decidable (List.Pairwise _ _))

/-- Whether each write ends before those that follow it start. -/
def Apart (j : Journal) : Prop := List.Pairwise (fun v w : Write => v.stop ≤ w.address.toNat) j

theorem Ordered.apart (h : j.Ordered) : j.Apart := List.Pairwise.imp And.right h

/-- The address behind all writes, counted without wrapping around. -/
def stop (j : Journal) : Nat := j.foldr (fun w n => max w.stop n) 0

theorem stop_le_iff {n : Nat} : j.stop ≤ n ↔ ∀ w ∈ j, w.stop ≤ n := by
  unfold stop
  induction j with
  | nil => simp
  | cons w rest ih => rw [foldr_cons, Nat.max_le, ih, forall_mem_cons]

@[simp] theorem byteAt?_nil (a : UInt32) : byteAt? [] a = none := rfl

@[simp] theorem byteAt?_cons (w : Write) (j : Journal) (a : UInt32) :
    byteAt? (w :: j) a = (j.byteAt? a).or (w.byteAt? a) := rfl

theorem byteAt?_append (j k : Journal) (a : UInt32) : byteAt? (j ++ k) a = (k.byteAt? a).or (j.byteAt? a) := by
  induction j with
  | nil => simp
  | cons w j ih => simp [ih, Option.or_assoc]

/-- A byte that stands at an address was put there by one of the writes. -/
theorem exists_of_byteAt? (h : j.byteAt? a = some b) : ∃ w ∈ j, w.byteAt? a = some b := by
  induction j with
  | nil => exact nomatch h
  | cons w j ih =>
    rw [byteAt?_cons, or_eq_some_iff] at h
    obtain h | ⟨-, h⟩ := h
    · obtain ⟨w', hw', hb⟩ := ih h
      exact ⟨w', mem_cons_of_mem _ hw', hb⟩
    · exact ⟨w, mem_cons_self .., h⟩

/-- Nothing stands where none of the writes goes. -/
theorem byteAt?_eq_none (h : ∀ w ∈ j, w.byteAt? a = none) : j.byteAt? a = none := by
  cases hb : j.byteAt? a with
  | none => rfl
  | some b =>
    obtain ⟨w, hw, hwb⟩ := exists_of_byteAt? hb
    rw [h w hw] at hwb
    exact nomatch hwb

/-- Putting other bytes in the place of one of several writes that do not overlap changes the bytes of that write
and nothing else. -/
theorem byteAt?_replace {front back : Journal} {w : Write} (hapart : (front ++ w :: back).Apart)
    (hstop : ∀ v ∈ w :: back, v.stop ≤ 2 ^ 32) {data : Bytes} (hlen : data.length = w.data.length) (a : UInt32) :
    (front ++ ⟨w.address, data⟩ :: back).byteAt? a =
      if w.address.toNat ≤ a.toNat ∧ a.toNat < w.stop then data[a.toNat - w.address.toNat]?
      else (front ++ w :: back).byteAt? a := by
  have hnew : Write.stop ⟨w.address, data⟩ = w.stop := by
    unfold Write.stop
    rw [hlen]
  have hw : w.stop ≤ 2 ^ 32 := hstop w (mem_cons_self ..)
  by_cases hin : w.address.toNat ≤ a.toNat ∧ a.toNat < w.stop
  · -- what follows starts behind the write
    have hback : back.byteAt? a = none := by
      apply byteAt?_eq_none
      intro v hv
      have hle := (pairwise_cons.1 (pairwise_append.1 hapart).2.1).1 v hv
      exact Write.byteAt?_eq_none (hstop v (mem_cons_of_mem _ hv)) (.inl (by omega))
    have hbyte : Write.byteAt? ⟨w.address, data⟩ a = data[a.toNat - w.address.toNat]? := by
      rw [Write.byteAt?_eq (by rw [hnew]; exact hw)]
      exact if_pos hin.1
    have hsome : (data[a.toNat - w.address.toNat]?).isSome := by
      rw [isSome_getElem?, hlen]
      unfold Write.stop at hin
      omega
    obtain ⟨b, hb⟩ := isSome_iff_exists.1 hsome
    rw [if_pos hin, byteAt?_append, byteAt?_cons, hback, hbyte, hb]
    rfl
  · -- neither the old nor the new bytes go there
    have hold : w.byteAt? a = none := Write.byteAt?_eq_none hw (by omega)
    have hother : Write.byteAt? ⟨w.address, data⟩ a = none :=
      Write.byteAt?_eq_none (by rw [hnew]; exact hw) (by rw [hnew]; show a.toNat < w.address.toNat ∨ _; omega)
    rw [if_neg hin, byteAt?_append, byteAt?_append, byteAt?_cons, byteAt?_cons, hold, hother]

/-- Bytes that are written over a write have the same effect at once where nothing in between meets it. -/
theorem byteAt?_overwrite (front : Journal) {back : Journal} {w : Write} (hback : ∀ v ∈ back, ¬ v.Meets w) {data : Bytes}
    (hlen : data.length = w.data.length) (a : UInt32) :
    (front ++ ⟨w.address, data⟩ :: back).byteAt? a = byteAt? (front ++ w :: back ++ [⟨w.address, data⟩]) a := by
  rw [byteAt?_append, byteAt?_append, byteAt?_append, byteAt?_cons, byteAt?_cons, byteAt?_cons, byteAt?_nil, none_or]
  have hsame := Write.isSome_byteAt?_of_length hlen a
  by_cases hsome : (w.byteAt? a).isSome
  · -- where the bytes go, what is written in between has none
    have hnone : back.byteAt? a = none := by
      apply byteAt?_eq_none
      intro v hv
      rw [← not_isSome_iff_eq_none]
      exact fun hv' => hback v hv ⟨a, hv', hsome⟩
    obtain ⟨b, hb⟩ := isSome_iff_exists.1 (hsame.2 hsome)
    rw [hnone, hb]
    rfl
  · have hnew := not_isSome_iff_eq_none.1 fun hnew => hsome (hsame.1 hnew)
    rw [hnew, not_isSome_iff_eq_none.1 hsome]
    rfl

theorem touches_of_byteAt? (h : j.byteAt? a = some b) : j.Touches a := by
  obtain ⟨w, hw, hb⟩ := exists_of_byteAt? h
  exact ⟨w, hw, a, rfl, .inr (by rw [hb]; rfl)⟩

theorem holds_of_byteAt? (h : j.byteAt? a = some b) : j.Holds a b := ⟨touches_of_byteAt? h, by rw [h]; rfl⟩

theorem touches_append (j k : Journal) (a : UInt32) : (j ++ k).Touches a ↔ j.Touches a ∨ k.Touches a := by
  simp only [Touches, mem_append, or_and_right, exists_or]

end Journal
end Firmware
