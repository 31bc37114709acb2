import Firmware.Image.ObjectHeader
import Firmware.Proofs.Bytes
import Firmware.Proofs.Template.Preservation
import Mathlib.Algebra.Ring.Parity
import Mathlib.Data.Nat.Bitwise

/-!
# Placeholders and the headers that replace them

A placeholder is six bytes long and a header is as long. What all containers have in common is said here: which bytes
count as a placeholder (`startKind?_eq_some`), which header an object gets (`ofContent_eq_ok`), and that nothing that
looks like a placeholder can overlap another one (`StandsAt.apart`) or a header (`not_standsAt_of_zero`), since the last
byte of a header is zero.
-/

namespace Firmware

/-- Bytes stand at an offset if each of them does. -/
theorem Bytes.prefix_drop_iff {p b : Bytes} {i : Nat} : p <+: b.drop i ↔ ∀ d < p.length, b[i + d]? = p[d]? := by
  rw [List.prefix_iff_getElem?]
  constructor
  · intro h d hd
    rw [← List.getElem?_drop, h d hd, List.getElem?_eq_getElem hd]
  · intro h d hd
    rw [List.getElem?_drop, h d hd, List.getElem?_eq_getElem hd]

/-- Places from which one can count up. -/
class Places (G : Type) where
  up : G → Nat → G
  up_up : ∀ a d e, up (up a d) e = up a (d + e)
  up_inj : ∀ {a b : G} {d}, up a d = up b d → a = b

namespace Places

instance : Places Nat where
  up := (· + ·)
  up_up := Nat.add_assoc
  up_inj := Nat.add_right_cancel

instance : Places UInt32 where
  up a d := a + d.toUInt32
  up_up a d e := by
    rw [UInt32.add_assoc]
    exact congrArg (a + ·) (UInt32.ofNat_add ..).symm
  up_inj h := (UInt32.add_left_inj _).1 h

theorem up_address (a : UInt32) (d : Nat) : up a d = a + d.toUInt32 := rfl

theorem up_nat (i d : Nat) : up i d = i + d := rfl

variable {G : Type} [Places G]

/-- Places that are reached from two others lie behind one another. -/
theorem eq_up_of_up_eq {a b : G} {d e : Nat} (h : up a d = up b e) (hle : d ≤ e) : a = up b (e - d) := by
  apply up_inj (d := d)
  rw [up_up, h, Nat.sub_add_cancel hle]

end Places

namespace ObjectHeader

open Places

variable {k k' : Kind} {b : Bytes} {i j : Nat} {t : Template} {h : ObjectHeader}

/-! ## Placeholders -/

theorem Kind.forall_iff {p : Kind → Prop} : (∀ k, p k) ↔ p .string ∧ p .buffer := by
  refine ⟨fun h => ⟨h _, h _⟩, fun h k => ?_⟩
  cases k with
  | string => exact h.1
  | buffer => exact h.2

instance (p : Kind → Prop) [DecidablePred p] : Decidable (∀ k, p k) := decidable_of_iff _ Kind.forall_iff.symm

/-- The byte that tells the kind of an object in its placeholder. -/
def Kind.sign : Kind → UInt8
  | .string => 0x40
  | .buffer => 0x23

theorem Kind.sign_inj (h : k.sign = k'.sign) : k = k' := by
  revert k k'
  decide

/-- The bytes of a placeholder. -/
def Kind.placeholder (k : Kind) : Bytes := marker ++ [k.sign, 0x3A]

theorem Kind.length_placeholder (k : Kind) : k.placeholder.length = size := rfl

/-- Whether the placeholder of an object stands at an offset. -/
def StandsAt (b : Bytes) (i : Nat) (k : Kind) : Prop := k.placeholder <+: b.drop i

instance (b : Bytes) (i : Nat) (k : Kind) : Decidable (StandsAt b i k) := inferInstanceAs (Decidable (_ <+: _))

/-- The kind of the object whose placeholder starts the bytes. -/
def startKind? (b : Bytes) : Option Kind :=
  if marker.isPrefixOf b then kind? (b.drop marker.length) else none

theorem kind?_eq_some {c : Bytes} : kind? c = some k ↔ [k.sign, 0x3A] <+: c := by
  constructor
  · intro h
    unfold kind? at h
    split at h
    next rest => obtain rfl := Option.some.inj h; exact ⟨rest, rfl⟩
    next rest => obtain rfl := Option.some.inj h; exact ⟨rest, rfl⟩
    next => exact nomatch h
  · rintro ⟨rest, rfl⟩
    cases k <;> rfl

/-- A placeholder starts the bytes exactly if its kind is read off them. -/
theorem startKind?_eq_some : startKind? b = some k ↔ k.placeholder <+: b := by
  unfold startKind? Kind.placeholder
  constructor
  · intro h
    split at h
    next hmarker =>
      obtain ⟨rest, rfl⟩ := List.isPrefixOf_iff_prefix.1 hmarker
      rw [List.drop_left, kind?_eq_some] at h
      exact (List.prefix_append_right_inj marker).2 h
    next => exact nomatch h
  · rintro ⟨rest, rfl⟩
    have hmarker : marker <+: marker ++ [k.sign, 0x3A] ++ rest := (List.prefix_append ..).trans (List.prefix_append ..)
    rw [if_pos (List.isPrefixOf_iff_prefix.2 hmarker), kind?_eq_some, List.append_assoc, List.drop_left]
    exact List.prefix_append ..

theorem startKind?_eq_none : startKind? b = none ↔ ∀ k : Kind, ¬ k.placeholder <+: b := by
  simp only [Option.eq_none_iff_forall_ne_some, ne_eq, startKind?_eq_some]

/-- Where the marker stands, the kind of the object decides on its header. -/
theorem at?_eq (t : Template) (h : marker <+: b) : at? t b = match startKind? b with
      | none => .ok none
      | some k => (ofContent t k (b.drop size)).map some := by
  have hmarker := List.isPrefixOf_iff_prefix.2 h
  have hkind : startKind? b = kind? (b.drop marker.length) := if_pos hmarker
  unfold at?
  rw [hkind]
  cases kind? (b.drop marker.length) <;> exact if_pos hmarker

theorem marker_of_at? {found : Option ObjectHeader} (h : at? t b = .ok found) : marker <+: b := by
  unfold at? at h
  split at h
  next hmarker => exact List.isPrefixOf_iff_prefix.1 hmarker
  next => exact nomatch h

/-- A header is found where a placeholder stands, and is that of its kind. -/
theorem exists_of_at? (hat : at? t b = .ok (some h)) :
    ∃ k : Kind, k.placeholder <+: b ∧ ofContent t k (b.drop size) = .ok h := by
  rw [at?_eq t (marker_of_at? hat)] at hat
  cases hkind : startKind? b with
  | none =>
    rw [hkind] at hat
    exact nomatch hat
  | some k =>
    rw [hkind] at hat
    obtain ⟨h', hcontent, heq⟩ := exists_of_map_eq_ok hat
    exact ⟨k, startKind?_eq_some.1 hkind, by rw [hcontent, Option.some.inj heq]⟩

/-! ## Places -/

theorem standsAt_iff : StandsAt b i k ↔ ∀ d < size, b[i + d]? = k.placeholder[d]? := Bytes.prefix_drop_iff

theorem StandsAt.length_le (h : StandsAt b i k) : i + size ≤ b.length := by
  have hlen := List.IsPrefix.length_le h
  rw [k.length_placeholder, List.length_drop] at hlen
  have hsize : size = 6 := rfl
  omega

theorem placeholder_ne_zero (k : Kind) {d : Nat} (hd : d < size) : k.placeholder[d]? ≠ some 0 := by
  have hall : ∀ d < 6, ∀ k : Kind, k.placeholder[d]? ≠ some 0 := by decide
  exact hall d hd k

/-- No placeholder covers a zero. -/
theorem not_standsAt_of_zero (hzero : b[j]? = some 0) (hi : i ≤ j) (hj : j < i + size) (k : Kind) :
    ¬ StandsAt b i k := by
  intro h
  have hbyte := standsAt_iff.1 h (j - i) (by omega)
  rw [show i + (j - i) = j by omega, hzero] at hbyte
  exact placeholder_ne_zero k (by omega) hbyte.symm

/-- Bytes of a placeholder that could start the marker of another one do not go on as a marker does. -/
theorem placeholder_shifted (k : Kind) {d : Nat} (hd : 0 < d) (hsize : d < size) :
    k.placeholder[d]? ≠ some 0x40 ∨ k.placeholder[d + 1]? = some 0x3A := by
  have hall : ∀ d < 6, 0 < d → ∀ k : Kind, k.placeholder[d]? ≠ some 0x40 ∨ k.placeholder[d + 1]? = some 0x3A := by
    decide
  exact hall d hsize hd k

/-- Whether bytes stand in a memory from a place on. -/
def StandIn {G : Type} [Places G] (m : G → Option UInt8) (a : G) (b : Bytes) : Prop :=
  ∀ d < b.length, m (up a d) = b[d]?

/-- Within a placeholder no marker starts but its own. -/
theorem StandIn.not_marker {G : Type} [Places G] {m : G → Option UInt8} {a : G} (hp : StandIn m a k.placeholder)
    {d : Nat} (hpos : 0 < d) (hd : d < size) : ¬ StandIn m (up a d) marker := by
  intro hmarker
  have hfirst := hmarker 0 (by decide)
  have hsecond := hmarker 1 (by decide)
  rw [up_up] at hfirst hsecond
  obtain hne | hcolon := placeholder_shifted k hpos hd
  · exact hne ((hp d hd).symm.trans hfirst)
  · -- the sign of a string looks like the start of a marker, and a colon follows it
    rw [hp (d + 1) (List.getElem?_eq_some_iff.1 hcolon).1, hcolon] at hsecond
    exact absurd hsecond (by decide)

theorem StandsAt.not_marker (h : StandsAt b i k) (hij : i < j) (hj : j < i + size) : ¬ marker <+: b.drop j := by
  intro hmarker
  obtain ⟨d, rfl⟩ := Nat.exists_eq_add_of_lt hij
  exact StandIn.not_marker (k := k) (m := fun i => b[i]?) (a := i) (standsAt_iff.1 h) (Nat.succ_pos d) (by omega)
    (Bytes.prefix_drop_iff.1 hmarker)

theorem StandsAt.marker (h : StandsAt b i k) : marker <+: b.drop i := (List.prefix_append ..).trans h

/-- Placeholders do not overlap. -/
theorem StandsAt.apart (h : StandsAt b i k) (h' : StandsAt b j k') (hij : i < j) : i + size ≤ j := by
  by_contra hlt
  exact h.not_marker hij (by omega) h'.marker

theorem StandsAt.kind_eq (h : StandsAt b i k) (h' : StandsAt b i k') : k = k' :=
  Option.some.inj ((startKind?_eq_some.2 h).symm.trans (startKind?_eq_some.2 h'))

/-! ## Headers -/

/-- The number that is stored as the length of an object: a string ends in front of its first zero. -/
def Kind.lengthOf : Kind → Bytes → Nat
  | .string, content => (content.takeWhile (· != 0)).length
  | .buffer, _ => 0

/-- The address of the dispatch table of a kind, without the bit that marks a function. -/
def vtableOf (t : Template) (k : Kind) : Except Failure UInt32 :=
  match t.address? k.vtable with
  | none => .error (.missingVtable k.vtable)
  | some address =>
    if address == 0 then .error (.missingVtable k.vtable)
    else if (address ^^^ 1) &&& 3 != 0 then .error (.unalignedVtable (address ^^^ 1))
    else .ok (address ^^^ 1)

theorem ofContent_eq (t : Template) (k : Kind) (content : Bytes) :
    ofContent t k content = vtableOf t k >>= fun vtable =>
      if content.length ≤ k.lengthOf content then .error .constantTooLong
      else .ok ⟨firstWord t.target vtable, (k.lengthOf content).toUInt16⟩ := by
  unfold ofContent vtableOf
  cases t.address? k.vtable with
  | none => rfl
  | some address =>
    dsimp only
    split
    · rfl
    · split
      · rfl
      · cases k <;> rfl

/-- An object has a header if its dispatch table has an address that can be stored and its content does not end too
early. -/
theorem ofContent_eq_ok {content : Bytes} :
    ofContent t k content = .ok h ↔ ∃ vtable, vtableOf t k = .ok vtable ∧ k.lengthOf content < content.length ∧
      h = ⟨firstWord t.target vtable, (k.lengthOf content).toUInt16⟩ := by
  rw [ofContent_eq]
  cases vtableOf t k with
  | error f => exact ⟨fun h => (nomatch h), fun ⟨_, h, _⟩ => (nomatch h)⟩
  | ok vtable =>
    show (if _ then _ else _) = _ ↔ _
    by_cases hlong : content.length ≤ k.lengthOf content
    · rw [if_pos hlong]
      refine ⟨fun h => (nomatch h), ?_⟩
      rintro ⟨_, -, hlt, -⟩
      omega
    · rw [if_neg hlong]
      constructor
      · intro h
        exact ⟨vtable, rfl, by omega, (Except.ok.inj h).symm⟩
      · rintro ⟨vtable', hvtable, -, rfl⟩
        rw [Except.ok.inj hvtable]

theorem length_encode (h : ObjectHeader) : h.encode.length = size := rfl

/-- The last byte of a header is zero, since no length reaches beyond what is looked at. -/
theorem encode_last {content : Bytes} (hok : ofContent t k content = .ok h) (hlen : content.length ≤ window) :
    h.encode[5]? = some 0 := by
  obtain ⟨vtable, -, hlt, rfl⟩ := ofContent_eq_ok.1 hok
  have hwindow : window = 200 := rfl
  show some ((k.lengthOf content).toUInt16 >>> 8).toUInt8 = some 0
  congr 1
  apply UInt8.toNat_inj.1
  rw [UInt16.toNat_toUInt8, UInt16.toNat_shiftRight, UInt16.toNat_ofNat_of_lt' (by show _ < 65536; omega)]
  show k.lengthOf content >>> 8 % 256 = 0
  rw [Nat.shiftRight_eq_div_pow]
  omega

/-! ## Dispatch tables -/

/-- Without the lowest bit, an odd address is the one before it. -/
theorem xor_one_eq {address : UInt32} (h : address.toNat % 2 = 1) : (address ^^^ 1).toNat = address.toNat - 1 := by
  rw [UInt32.toNat_xor]
  exact Nat.xor_one_of_odd (Nat.odd_iff.2 h)

theorem and_three_eq (a : UInt32) : (a &&& 3).toNat = a.toNat % 4 := by
  rw [UInt32.toNat_and]
  exact Nat.and_two_pow_sub_one_eq_mod a.toNat 2

/-- The dispatch table of a kind can be stored exactly if its address is one more than a multiple of four. -/
theorem vtableOf_eq_ok {vtable : UInt32} : vtableOf t k = .ok vtable ↔
      ∃ address, t.address? k.vtable = some address ∧ address.toNat % 4 = 1 ∧ vtable = address ^^^ 1 := by
  unfold vtableOf
  cases t.address? k.vtable with
  | none => exact ⟨fun h => (nomatch h), fun ⟨_, h, _⟩ => (nomatch h)⟩
  | some address =>
    -- the lowest bit is turned, not cleared, so an even address is refused as well
    have hxor : (address ^^^ 1).toNat % 4 = 0 ↔ address.toNat % 4 = 1 := by
      by_cases hodd : address.toNat % 2 = 1
      · rw [xor_one_eq hodd]
        omega
      · have hadd : (address ^^^ 1).toNat = address.toNat + 1 := by
          rw [UInt32.toNat_xor]
          exact Nat.xor_one_of_even (Nat.even_iff.2 (by omega))
        rw [hadd]
        omega
    have hmask : ((address ^^^ 1) &&& 3 != 0) = false ↔ address.toNat % 4 = 1 := by
      rw [bne_eq_false_iff_eq, ← UInt32.toNat_inj, and_three_eq, ← hxor]
      rfl
    dsimp only
    by_cases hone : address.toNat % 4 = 1
    · have hne : (address == 0) = false := by
        rw [beq_eq_false_iff_ne]
        rintro rfl
        exact absurd hone (by decide)
      rw [hne, if_neg Bool.false_ne_true, hmask.2 hone, if_neg Bool.false_ne_true]
      constructor
      · intro h
        exact ⟨address, rfl, hone, (Except.ok.inj h).symm⟩
      · rintro ⟨address', haddress, -, rfl⟩
        rw [Option.some.inj haddress]
    · have hset : ((address ^^^ 1) &&& 3 != 0) = true := by
        rw [← Bool.not_eq_false, hmask]
        exact hone
      refine ⟨fun h => ?_, ?_⟩
      · rw [hset] at h
        split at h <;> exact nomatch h
      · rintro ⟨address', haddress, hmod, -⟩
        rw [← Option.some.inj haddress] at hmod
        exact absurd hmod hone

/-- Where objects are counted, a header starts with the count of objects in flash and the lower 16 bits of what is left
of the address of the dispatch table. -/
theorem ofWord32_firstWord {t : Target} (hgc : t.gc = false) (vtable : UInt32) : Bytes.ofWord32 (firstWord t vtable) =
      Bytes.ofWord16 0xfffe ++ Bytes.ofWord16 (shiftRight32 vtable t.vtableShift).toUInt16 := by
  have hword : firstWord t vtable = flashCount ||| (shiftRight32 vtable t.vtableShift <<< 16) := by
    unfold firstWord
    rw [hgc, if_neg Bool.false_ne_true]
  generalize shiftRight32 vtable t.vtableShift = v at hword
  have hv := v.toNat_lt
  -- the count fills the lower half, so the bits of the two add up
  have hnat : (firstWord t vtable).toNat = v.toNat % 65536 * 65536 + 65534 := by
    rw [hword, UInt32.toNat_or, UInt32.toNat_shiftLeft, Nat.or_comm]
    show v.toNat <<< 16 % 4294967296 ||| 65534 = _
    rw [Nat.shiftLeft_eq, show v.toNat * 2 ^ 16 % 4294967296 = (v.toNat % 65536) <<< 16 by rw [Nat.shiftLeft_eq]; omega,
      ← Nat.shiftLeft_add_eq_or_of_lt (by decide : 65534 < 2 ^ 16), Nat.shiftLeft_eq]
  generalize firstWord t vtable = w at hnat
  -- byte by byte, as parts of that number
  have hbyte : ∀ (x y : UInt8), x.toNat = y.toNat → x = y := fun _ _ h => UInt8.toNat_inj.1 h
  show [w.toUInt8, (w >>> 8).toUInt8, (w >>> 16).toUInt8, (w >>> 24).toUInt8] =
    [0xfe, 0xff, v.toUInt16.toUInt8, (v.toUInt16 >>> 8).toUInt8]
  congr 1
  · apply hbyte
    rw [UInt32.toNat_toUInt8, hnat]
    show _ = 254
    omega
  congr 1
  · apply hbyte
    rw [UInt32.toNat_toUInt8, UInt32.toNat_shiftRight, hnat]
    show (_ >>> 8) % 256 = 255
    rw [Nat.shiftRight_eq_div_pow]
    omega
  congr 1
  · apply hbyte
    rw [UInt32.toNat_toUInt8, UInt32.toNat_shiftRight, hnat, UInt16.toNat_toUInt8, UInt32.toNat_toUInt16]
    show (_ >>> 16) % 256 = _
    rw [Nat.shiftRight_eq_div_pow]
    omega
  congr 1
  · apply hbyte
    rw [UInt32.toNat_toUInt8, UInt32.toNat_shiftRight, hnat, UInt16.toNat_toUInt8, UInt16.toNat_shiftRight,
      UInt32.toNat_toUInt16]
    show (_ >>> 24) % 256 = (_ >>> 8) % 256
    rw [Nat.shiftRight_eq_div_pow, Nat.shiftRight_eq_div_pow]
    omega

/-- A template that holds the dispatch tables of strings and buffers, as functions at the given addresses. -/
def tables (target : Target) (string buffer : UInt32) : Template where
  sha := "0123456789abcdef"
  commBase := 0x20000000
  functions := [(Kind.vtable .string, { name := Kind.vtable .string, argsFormat := [], value := string }),
    (Kind.vtable .buffer, { name := Kind.vtable .buffer, argsFormat := [], value := buffer })]
  target

end ObjectHeader
end Firmware
