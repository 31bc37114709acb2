import Firmware.Proofs.ObjectHeader.Placeholder
import Mathlib.Data.Nat.Find

/-!
# Placeholders in a flat image

An image is changed while it is scanned. What a scan finds does not depend on that: a header is written over its own
placeholder only, and what stands behind it is as it was before (`visit_later`). So a scan that goes up through offsets
replaces the placeholders that stood there at the start, with headers for what followed them at the start
(`replaced_of_visitAll`), and it fails only where one of these headers cannot be made (`exists_visitAll`).

The scan of a flat image goes through every fourth offset, but not to the end (`replaceIn_eq`): an object whose
placeholder is among the last eight bytes keeps it (`replaceIn_patched_iff`).
-/

open List

namespace Firmware

namespace Bytes

theorem drop_overwrite_behind {b : Bytes} {off : Nat} {src : Bytes} (h : off + src.length ≤ b.length) {j : Nat}
    (hj : off + src.length ≤ j) : (b.overwrite off src).drop j = b.drop j := by
  refine ext_getElem? fun d => ?_
  rw [getElem?_drop, getElem?_drop, getElem?_overwrite_outside h (.inr (by omega))]

theorem getElem?_overwrite_inside {b : Bytes} {off : Nat} {src : Bytes} (h : off + src.length ≤ b.length) {d : Nat}
    (hd : d < src.length) : (b.overwrite off src)[off + d]? = src[d]? := by
  rw [getElem?_overwrite h, if_pos (by omega), Nat.add_sub_cancel_left, getElem?_eq_getElem hd]
  rfl

theorem overwrite_append {old new : Bytes} (hlen : new.length = old.length) (first rest : Bytes) :
    overwrite (first ++ (old ++ rest)) first.length new = first ++ (new ++ rest) := by
  unfold overwrite
  simp only [take_left, drop_append, length_append, Nat.add_sub_cancel_left, hlen, append_assoc]
  rw [take_of_length_le (by omega), drop_eq_nil_of_le (by omega), drop_eq_nil_of_le (Nat.le_refl _), Nat.sub_self]
  rfl

end Bytes

namespace ObjectHeader

variable {t : Template} {b b' : Bytes} {i j : Nat} {k : Kind} {h : ObjectHeader}
variable {n : Nat} {offsets : List Nat}

/-! ## One offset -/

/-- What is looked at of the object at an offset, behind its placeholder. -/
def content (b : Bytes) (i : Nat) : Bytes := (b.drop (i + size)).take (window - size)

/-- Replaces the placeholder at an offset, if one stands there. -/
def visit (t : Template) (b : Bytes) (i : Nat) : Except Failure Bytes :=
  match startKind? (b.drop i) with
  | none => .ok b
  | some k => (ofContent t k (content b i)).map fun h => b.overwrite i h.encode

theorem length_content_le (b : Bytes) (i : Nat) : (content b i).length ≤ window - size := length_take_le ..

theorem startKind?_drop_eq_none : startKind? (b.drop i) = none ↔ ∀ k, ¬ StandsAt b i k := startKind?_eq_none

theorem visit_of_not_standsAt (hnone : ∀ k, ¬ StandsAt b i k) : visit t b i = .ok b := by
  unfold visit
  rw [startKind?_drop_eq_none.2 hnone]

theorem visit_of_standsAt (hstands : StandsAt b i k) :
    visit t b i = (ofContent t k (content b i)).map fun h => b.overwrite i h.encode := by
  unfold visit
  rw [startKind?_eq_some.2 hstands]

/-- What is looked at from an offset on is the placeholder and its content. -/
theorem at?_window (hmarker : marker <+: b.drop i) : at? t ((b.drop i).take window) = match startKind? (b.drop i) with
      | none => .ok none
      | some k => (ofContent t k (content b i)).map some := by
  have hstart : ∀ p : Bytes, p.length ≤ window → (p <+: (b.drop i).take window ↔ p <+: b.drop i) := by
    intro p hp
    exact ⟨fun hpre => hpre.trans (List.take_prefix ..), fun hpre => List.prefix_take_iff.2 ⟨hpre, hp⟩⟩
  have hkind : startKind? ((b.drop i).take window) = startKind? (b.drop i) := by
    refine Option.ext fun k => ?_
    rw [startKind?_eq_some, startKind?_eq_some, hstart _ (by cases k <;> decide)]
  have hcontent : ((b.drop i).take window).drop size = content b i := by
    rw [drop_take, drop_drop]
    rfl
  rw [at?_eq t ((hstart marker (by decide)).2 hmarker), hkind]
  cases startKind? (b.drop i) with
  | none => rfl
  | some k => exact congrArg (fun rest => (ofContent t k rest).map some) hcontent

theorem visit_of_marker (hmarker : marker <+: b.drop i) : visit t b i =
      (at? t ((b.drop i).take window)).map fun found => found.elim b fun h => b.overwrite i h.encode := by
  rw [at?_window hmarker]
  unfold visit
  cases startKind? (b.drop i) with
  | none => rfl
  | some k => cases hok : ofContent t k (content b i) <;> simp only [hok, Except.map, Option.elim]

theorem visit_of_not_marker (hmarker : ¬ marker <+: b.drop i) : visit t b i = .ok b :=
  visit_of_not_standsAt fun _ hstands => hmarker hstands.marker

/-- A header is written where it fits. -/
theorem StandsAt.fits (hstands : StandsAt b i k) (h : ObjectHeader) : i + h.encode.length ≤ b.length :=
  hstands.length_le

/-- A header that is written leaves a zero where the colon of the placeholder was. -/
theorem StandsAt.overwrite_last (hstands : StandsAt b i k) (hok : ofContent t k (content b i) = .ok h) :
    (b.overwrite i h.encode)[i + 5]? = some 0 := by
  rw [Bytes.getElem?_overwrite_inside (hstands.fits h) (by rw [length_encode]; decide)]
  exact encode_last hok (Nat.le_trans (length_content_le ..) (by decide))

/-- A header ends with a zero, so no placeholder reaches into it from behind its start. -/
theorem standsAt_overwrite (hstands : StandsAt b i k) (hok : ofContent t k (content b i) = .ok h) (hij : i < j)
    (k' : Kind) : StandsAt (b.overwrite i h.encode) j k' ↔ StandsAt b j k' := by
  have hsize : size = 6 := rfl
  have hlast := hstands.overwrite_last hok
  by_cases hj : i + size ≤ j
  · unfold StandsAt
    rw [Bytes.drop_overwrite_behind (hstands.fits h) hj]
  · -- within the header none stands now, and within the placeholder none stood
    constructor
    · intro hnew
      exact absurd hnew (not_standsAt_of_zero hlast (by omega) (by omega) k')
    · intro hold
      exact absurd (hstands.apart hold hij) hj

theorem content_overwrite (hstands : StandsAt b i k) (h : ObjectHeader) (hj : i + size ≤ j) :
    content (b.overwrite i h.encode) j = content b j := by
  unfold content
  rw [Bytes.drop_overwrite_behind (hstands.fits h) (by rw [length_encode]; omega)]

/-- What a visit can do: it leaves the image alone where no placeholder stands, or writes a header over it. -/
theorem visit_cases (t : Template) (b : Bytes) (i : Nat) : (∀ k, ¬ StandsAt b i k) ∧ visit t b i = .ok b ∨
      ∃ k, StandsAt b i k ∧ ((∃ f, ofContent t k (content b i) = .error f ∧ visit t b i = .error f) ∨
        ∃ h, ofContent t k (content b i) = .ok h ∧ visit t b i = .ok (b.overwrite i h.encode)) := by
  cases hkind : startKind? (b.drop i) with
  | none =>
    have hnone := startKind?_drop_eq_none.1 hkind
    exact .inl ⟨hnone, visit_of_not_standsAt hnone⟩
  | some k =>
    have hstands : StandsAt b i k := startKind?_eq_some.1 hkind
    refine .inr ⟨k, hstands, ?_⟩
    rw [visit_of_standsAt hstands]
    cases ofContent t k (content b i) with
    | error f => exact .inl ⟨f, rfl, rfl⟩
    | ok h => exact .inr ⟨h, rfl, rfl⟩

theorem visit_eq_ok (hvisit : visit t b i = .ok b') : (∀ k, ¬ StandsAt b i k) ∧ b' = b ∨
      ∃ k h, StandsAt b i k ∧ ofContent t k (content b i) = .ok h ∧ b' = b.overwrite i h.encode := by
  obtain ⟨hnone, heq⟩ | ⟨k, hstands, ⟨f, -, heq⟩ | ⟨h, hok, heq⟩⟩ := visit_cases t b i
  · exact .inl ⟨hnone, Except.ok.inj (hvisit.symm.trans heq)⟩
  · exact nomatch heq.symm.trans hvisit
  · exact .inr ⟨k, h, hstands, hok, Except.ok.inj (hvisit.symm.trans heq)⟩

/-- A visit does not change which placeholders stand behind its offset, nor what follows them. -/
theorem visit_later (hvisit : visit t b i = .ok b') (hij : i < j) :
    (∀ k, StandsAt b' j k ↔ StandsAt b j k) ∧ ∀ k, StandsAt b j k → content b' j = content b j := by
  obtain ⟨-, rfl⟩ | ⟨k, h, hstands, hok, rfl⟩ := visit_eq_ok hvisit
  · exact ⟨fun _ => Iff.rfl, fun _ _ => rfl⟩
  · exact ⟨standsAt_overwrite hstands hok hij, fun k' hlater => content_overwrite hstands h (hstands.apart hlater hij)⟩

theorem length_of_visit (hvisit : visit t b i = .ok b') : b'.length = b.length := by
  obtain ⟨-, rfl⟩ | ⟨k, h, hstands, -, rfl⟩ := visit_eq_ok hvisit
  · rfl
  · exact Bytes.length_overwrite (hstands.fits h)

/-! ## Many offsets -/

/-- Replaces the placeholders at offsets, one after the other. -/
def visitAll (t : Template) (b : Bytes) (offsets : List Nat) : Except Failure Bytes := offsets.foldlM (visit t) b

@[simp] theorem visitAll_nil (t : Template) (b : Bytes) : visitAll t b [] = .ok b := rfl

theorem visitAll_cons (t : Template) (b : Bytes) (i : Nat) (rest : List Nat) :
    visitAll t b (i :: rest) = visit t b i >>= fun b => visitAll t b rest := foldlM_cons

theorem visitAll_append (t : Template) (b : Bytes) (first second : List Nat) :
    visitAll t b (first ++ second) = visitAll t b first >>= fun b => visitAll t b second := foldlM_append

theorem length_of_visitAll (hok : visitAll t b offsets = .ok b') : b'.length = b.length := by
  induction offsets generalizing b with
  | nil => rw [Except.ok.inj hok]
  | cons i rest ih =>
    rw [visitAll_cons] at hok
    obtain ⟨b₁, hvisit, hrest⟩ := exists_of_bind_eq_ok hok
    exact (ih hrest).trans (length_of_visit hvisit)

/-- Offsets at which no placeholder stands are passed over. -/
theorem visitAll_of_not_standsAt (hnone : ∀ i ∈ offsets, ∀ k, ¬ StandsAt b i k) : visitAll t b offsets = .ok b := by
  induction offsets with
  | nil => rfl
  | cons i rest ih =>
    rw [visitAll_cons, visit_of_not_standsAt (hnone i (mem_cons_self ..))]
    exact ih fun j hj => hnone j (mem_cons_of_mem i hj)

/-- What stands in front of the bytes that are scanned does not matter. -/
theorem visit_append (t : Template) (first b : Bytes) (i : Nat) :
    visit t (first ++ b) (first.length + i) = (visit t b i).map (first ++ ·) := by
  have hdrop : ∀ n, (first ++ b).drop (first.length + n) = b.drop n := by
    intro n
    rw [← drop_drop, drop_left]
  have hcontent : content (first ++ b) (first.length + i) = content b i := by
    unfold content
    rw [Nat.add_assoc, hdrop]
  have hover : ∀ src, Bytes.overwrite (first ++ b) (first.length + i) src = first ++ b.overwrite i src := by
    intro src
    unfold Bytes.overwrite
    rw [Nat.add_assoc, hdrop, take_length_add_append, length_append, Nat.add_sub_add_left]
    simp only [append_assoc]
  unfold visit
  rw [hdrop, hcontent]
  cases startKind? (b.drop i) with
  | none => rfl
  | some k => cases hok : ofContent t k (content b i) <;> simp only [hok, Except.map, hover]

theorem visitAll_map_add (t : Template) (first b : Bytes) (offsets : List Nat) :
    visitAll t (first ++ b) (offsets.map (first.length + ·)) = (visitAll t b offsets).map (first ++ ·) := by
  induction offsets generalizing b with
  | nil => rfl
  | cons i rest ih =>
    rw [map_cons, visitAll_cons, visitAll_cons, visit_append]
    cases visit t b i with
    | error f => rfl
    | ok b' => exact ih b'

/-- Whether the placeholders at offsets have been replaced, and nothing else has changed. -/
structure Replaced (t : Template) (offsets : List Nat) (b b' : Bytes) : Prop where
  length : b'.length = b.length
  header : ∀ i ∈ offsets, ∀ k, StandsAt b i k →
    ∃ h, ofContent t k (content b i) = .ok h ∧ (b'.drop i).take size = h.encode
  frame : ∀ j, (∀ i ∈ offsets, ∀ k, StandsAt b i k → j < i ∨ i + size ≤ j) → b'[j]? = b[j]?

theorem take_drop_eq {src : Bytes} (hlen : src.length = size) (hbytes : ∀ d < size, b[i + d]? = src[d]?) :
    (b.drop i).take size = src := by
  refine ext_getElem? fun d => ?_
  by_cases hd : d < size
  · rw [getElem?_take_of_lt hd, getElem?_drop, hbytes d hd]
  · rw [getElem?_take_eq_none (by omega), getElem?_eq_none (by omega)]

/-- **A scan** that goes up replaces what stood at its offsets at the start. -/
theorem replaced_of_visitAll (hsorted : offsets.Pairwise (· < ·)) (hok : visitAll t b offsets = .ok b') :
    Replaced t offsets b b' := by
  -- on the offsets; what is left of them finds the placeholders that the image had before the first visit
  induction offsets generalizing b with
  | nil =>
    obtain rfl := Except.ok.inj hok
    exact ⟨rfl, fun i hi => absurd hi not_mem_nil, fun _ _ => rfl⟩
  | cons i rest ih =>
    obtain ⟨hfirst, hsorted⟩ := pairwise_cons.1 hsorted
    rw [visitAll_cons] at hok
    obtain ⟨b₁, hvisit, hok⟩ := exists_of_bind_eq_ok hok
    obtain ⟨hlength, hheaders, hframe⟩ := ih hsorted hok
    have hlater := fun j (hj : j ∈ rest) => visit_later hvisit (hfirst j hj)
    obtain ⟨hnone, rfl⟩ | ⟨k, h, hstands, hheader, rfl⟩ := visit_eq_ok hvisit
    · refine ⟨hlength, fun j hj k hk => ?_, fun j hj => hframe j fun i' hi' => hj i' (mem_cons_of_mem i hi')⟩
      obtain rfl | hj := mem_cons.1 hj
      · exact absurd hk (hnone k)
      · exact hheaders j hj k hk
    · have hfits := hstands.fits h
      have hbehind : ∀ j ∈ rest, ∀ k', StandsAt (b.overwrite i h.encode) j k' → i + size ≤ j := fun j hj k' hk' =>
        hstands.apart (((hlater j hj).1 k').1 hk') (hfirst j hj)
      refine ⟨hlength.trans (Bytes.length_overwrite hfits), fun j hj k' hk' => ?_, fun j hj => ?_⟩
      · obtain rfl | hj := mem_cons.1 hj
        · -- the header that was written first stays, since the others go behind it
          obtain rfl := hstands.kind_eq hk'
          refine ⟨h, hheader, take_drop_eq (length_encode h) fun d hd => ?_⟩
          rw [hframe (j + d) fun j' hj' k' hk' => .inl (by have := hbehind j' hj' k' hk'; omega)]
          exact Bytes.getElem?_overwrite_inside hfits hd
        · have hcontent := (hlater j hj).2 k' hk'
          obtain ⟨h', hok', htake⟩ := hheaders j hj k' (((hlater j hj).1 k').2 hk')
          exact ⟨h', hcontent ▸ hok', htake⟩
      · rw [hframe j fun j' hj' k' hk' => hj j' (mem_cons_of_mem i hj') k' (((hlater j' hj').1 k').1 hk')]
        exact Bytes.getElem?_overwrite_outside hfits (hj i (mem_cons_self ..) k hstands)

/-- An offset that is visited loses its placeholder, and one that is not keeps it. -/
theorem Replaced.byte_five (h : Replaced t offsets b b')
    (hstands : StandsAt b i k) : b'[i + 5]? = some 0 ↔ i ∈ offsets := by
  have hsize : size = 6 := rfl
  constructor
  · intro hzero
    by_contra hnot
    have hkept : b'[i + 5]? = b[i + 5]? := by
      refine h.frame (i + 5) fun i' hi' k' hstands' => ?_
      rcases Nat.lt_trichotomy i i' with hlt | rfl | hgt
      · have := hstands.apart hstands' hlt
        omega
      · exact absurd hi' hnot
      · have := hstands'.apart hstands hgt
        omega
    rw [hkept, standsAt_iff.1 hstands 5 (by decide)] at hzero
    exact placeholder_ne_zero k (by decide) hzero
  · intro hi
    obtain ⟨hd, hok, htake⟩ := h.header i hi k hstands
    rw [← getElem?_drop, ← getElem?_take_of_lt (by decide : 5 < size), htake]
    exact encode_last hok (Nat.le_trans (length_content_le ..) (by decide))

/-- A scan that goes up succeeds where all headers can be made. -/
theorem exists_visitAll (hsorted : offsets.Pairwise (· < ·))
    (hall : ∀ i ∈ offsets, ∀ k, StandsAt b i k → ∃ h, ofContent t k (content b i) = .ok h) :
    ∃ b', visitAll t b offsets = .ok b' := by
  -- on the offsets; a visit leaves the objects behind it the headers that they had
  induction offsets generalizing b with
  | nil => exact ⟨b, rfl⟩
  | cons i rest ih =>
    obtain ⟨hfirst, hsorted⟩ := pairwise_cons.1 hsorted
    rw [visitAll_cons]
    obtain ⟨-, heq⟩ | ⟨k, hstands, ⟨f, herror, -⟩ | ⟨h, -, heq⟩⟩ := visit_cases t b i
    · rw [heq]
      exact ih hsorted fun j hj => hall j (mem_cons_of_mem i hj)
    · obtain ⟨h, hok⟩ := hall i (mem_cons_self ..) k hstands
      exact nomatch herror.symm.trans hok
    · have hlater := fun j (hj : j ∈ rest) => visit_later heq (hfirst j hj)
      rw [heq]
      refine ih hsorted fun j hj k' hk' => ?_
      have hold := ((hlater j hj).1 k').1 hk'
      rw [(hlater j hj).2 k' hold]
      exact hall j (mem_cons_of_mem i hj) k' hold

/-! ## The flat image -/

/-- The offsets from one on at which the scan of an image looks, where `n` bytes are left of it. -/
def fourthsFrom (i n : Nat) : List Nat := List.range' i ((n - 8 + 3) / 4) 4

theorem fourthsFrom_of_lt (hn : 8 < n) : fourthsFrom i n = i :: fourthsFrom (i + 4) (n - 4) := by
  unfold fourthsFrom
  rw [show (n - 8 + 3) / 4 = (n - 4 - 8 + 3) / 4 + 1 by omega]
  exact range'_succ

theorem mem_fourthsFrom : i ∈ fourthsFrom 0 n ↔ i % 4 = 0 ∧ i + 8 < n := by
  unfold fourthsFrom
  rw [mem_range']
  constructor
  · rintro ⟨d, hd, rfl⟩
    omega
  · rintro ⟨hmod, hlt⟩
    exact ⟨i / 4, by omega, by omega⟩

theorem pairwise_fourthsFrom (i n : Nat) : (fourthsFrom i n).Pairwise (· < ·) := pairwise_lt_range' 4

theorem fourthsFrom_of_le (hn : n ≤ 8) : fourthsFrom i n = [] := by
  unfold fourthsFrom
  rw [show (n - 8 + 3) / 4 = 0 by omega]
  rfl

/-- What is left of an image behind the reversed bytes `acc` is scanned from there on. -/
theorem replaceOnto_eq (t : Template) (acc b : Bytes) :
    replaceOnto t acc b = visitAll t (acc.reverse ++ b) (fourthsFrom acc.length b.length) := by
  have hdrop : ∀ acc b : Bytes, (acc.reverse ++ b).drop acc.length = b := fun acc b =>
    drop_left' length_reverse
  -- the bytes that are passed over move from the image to those behind which it is scanned
  have hpassed : ∀ (acc : Bytes) (b0 b1 b2 b3 : UInt8) (rest : Bytes),
      (b3 :: b2 :: b1 :: b0 :: acc).reverse ++ rest = acc.reverse ++ (b0 :: b1 :: b2 :: b3 :: rest) := by simp
  fun_induction replaceOnto t acc b with
  | case1 acc b0 b1 b2 b3 b4 b5 b6 b7 b8 rest here hmarker f hat =>
    rw [fourthsFrom_of_lt (by simp), visitAll_cons,
      visit_of_marker (by rwa [hdrop, ← List.isPrefixOf_iff_prefix]), hdrop, hat]
    rfl
  | case2 acc b0 b1 b2 b3 b4 b5 b6 b7 b8 rest here hmarker hat ih =>
    rw [fourthsFrom_of_lt (by simp), visitAll_cons,
      visit_of_marker (by rwa [hdrop, ← List.isPrefixOf_iff_prefix]), hdrop, hat, ih, hpassed]
    rfl
  | case3 acc b0 b1 b2 b3 b4 b5 b6 b7 b8 rest here hmarker header hat ih =>
    have hmarker' : marker <+: (acc.reverse ++ here).drop acc.length := by
      rwa [hdrop, ← List.isPrefixOf_iff_prefix]
    have hvisit : visit t (acc.reverse ++ here) acc.length =
        .ok ((b7 :: b6 :: header.encode.reverse ++ acc).reverse ++ (b8 :: rest)) := by
      have hover := Bytes.overwrite_append (show header.encode.length = [b0, b1, b2, b3, b4, b5].length from rfl)
        acc.reverse (b6 :: b7 :: b8 :: rest)
      rw [length_reverse] at hover
      rw [visit_of_marker hmarker', hdrop, hat]
      exact congrArg Except.ok (hover.trans (by simp))
    -- no placeholder starts four bytes behind another one, nor within its header
    have hnext : ∀ k, ¬ StandsAt ((b7 :: b6 :: header.encode.reverse ++ acc).reverse ++ (b8 :: rest))
        (acc.length + 4) k := by
      intro k hk
      obtain ⟨k', hk', -⟩ := exists_of_at? hat
      have hstands : StandsAt (acc.reverse ++ here) acc.length k' := by
        unfold StandsAt
        rw [hdrop]
        exact hk'.trans (List.take_prefix ..)
      have hapart := hstands.apart (((visit_later hvisit (by omega)).1 k).1 hk) (by omega)
      exact absurd hapart (by have hsize : size = 6 := rfl; omega)
    rw [fourthsFrom_of_lt (by simp), visitAll_cons, hvisit, ih]
    show visitAll t _ _ = visitAll t _ (fourthsFrom (acc.length + 4) (rest.length + 5))
    rw [show (b7 :: b6 :: header.encode.reverse ++ acc).length = acc.length + 4 + 4 by
      simp [length_encode, size]; omega]
    by_cases hlen : rest.length + 5 ≤ 8
    · rw [fourthsFrom_of_le hlen, fourthsFrom_of_le (by simp; omega)]
    · rw [fourthsFrom_of_lt (by omega : 8 < rest.length + 5), visitAll_cons, visit_of_not_standsAt hnext]
      rfl
  | case4 acc b0 b1 b2 b3 b4 b5 b6 b7 b8 rest here hmarker ih =>
    rw [fourthsFrom_of_lt (by simp), visitAll_cons,
      visit_of_not_marker (by rwa [hdrop, ← List.isPrefixOf_iff_prefix]), ih, hpassed]
    rfl
  | case5 acc b hshort =>
    have hlen : b.length ≤ 8 := by
      by_contra hlt
      obtain ⟨n, hn⟩ := Nat.exists_eq_add_of_le' (Nat.lt_of_not_le hlt)
      match b, hn with
      | b0 :: b1 :: b2 :: b3 :: b4 :: b5 :: b6 :: b7 :: b8 :: rest, _ => exact hshort _ _ _ _ _ _ _ _ _ _ rfl
    rw [fourthsFrom_of_le hlen, visitAll_nil]

theorem replaceIn_eq (t : Template) (b : Bytes) : replaceIn t b = visitAll t b (fourthsFrom 0 b.length) :=
  replaceOnto_eq t [] b

/-- Headers take the place of what they replace. -/
theorem length_of_replaceIn (h : replaceIn t b = .ok b') : b'.length = b.length := by
  rw [replaceIn_eq] at h
  exact length_of_visitAll h

/-! ## Objects -/

/-- Whether an object with a placeholder stands at an offset: objects are aligned and have at least one byte. -/
def IsObject (b : Bytes) (i : Nat) (k : Kind) : Prop := i % 4 = 0 ∧ StandsAt b i k ∧ i + size < b.length

/-- Whether `n` is the length of the object at an offset: a string ends in front of its first zero. -/
def IsLength (b : Bytes) (i : Nat) : Kind → Nat → Prop
  | .string, n => b[i + size + n]? = some 0 ∧ ∀ m < n, b[i + size + m]? ≠ some 0
  | .buffer, n => n = 0

/-- The bytes of a header for a dispatch table and a length. Where objects are counted, the count of objects in flash
stands in front of what is left of the address. -/
def headerBytes (t : Target) (vtable : UInt32) (length : Nat) : Bytes :=
  (if t.gc then Bytes.ofWord32 vtable
    else Bytes.ofWord16 0xfffe ++ Bytes.ofWord16 (shiftRight32 vtable t.vtableShift).toUInt16) ++
  Bytes.ofWord16 length.toUInt16

/-- Whether exactly those objects of an image for which `p` holds have got their headers. -/
structure Patched (t : Template) (p : Nat → Prop) (b b' : Bytes) : Prop where
  length : b'.length = b.length
  header : ∀ i k, IsObject b i k → p i → ∃ address n, t.address? k.vtable = some address ∧ IsLength b i k n ∧
    (b'.drop i).take size = headerBytes t.target (address - 1) n
  frame : ∀ j, (∀ i k, IsObject b i k → p i → j < i ∨ i + size ≤ j) → b'[j]? = b[j]?

theorem encode_eq_headerBytes (t : Target) (vtable : UInt32) (length : Nat) :
    encode ⟨firstWord t vtable, length.toUInt16⟩ = headerBytes t vtable length := by
  unfold encode headerBytes
  cases hgc : t.gc with
  | true =>
    unfold firstWord
    rw [hgc, if_pos rfl, if_pos rfl]
  | false => rw [ofWord32_firstWord hgc, if_neg Bool.false_ne_true]

theorem length_takeWhile_ne_zero {s : Bytes} (hzero : s[n]? = some 0) (hfirst : ∀ m < n, s[m]? ≠ some 0) :
    (s.takeWhile (· != 0)).length = n := by
  obtain ⟨hn, heq⟩ := List.getElem?_eq_some_iff.1 hzero
  have hindex : s.findIdx (fun a => !(a != 0)) = n := by
    refine (findIdx_eq hn).2 ⟨by rw [heq]; rfl, fun m hm => ?_⟩
    have hne : s[m] ≠ 0 := fun h => hfirst m hm (List.getElem?_eq_some_iff.2 ⟨by omega, h⟩)
    rw [Bool.not_eq_false']
    exact bne_iff_ne.2 hne
  rw [takeWhile_eq_take_findIdx_not, hindex, length_take, Nat.min_eq_left (Nat.le_of_lt hn)]

/-- The zero behind a string is found if it stands in what is looked at. -/
theorem lengthOf_content (hn : IsLength b i k n) (hshort : n < window - size) (hsome : i + size < b.length) :
    k.lengthOf (content b i) = n ∧ n < (content b i).length := by
  have hcontent : ∀ m < window - size, (content b i)[m]? = b[i + size + m]? := by
    intro m hm
    unfold content
    rw [getElem?_take_of_lt hm, getElem?_drop]
  cases k with
  | string =>
    obtain ⟨hzero, hfirst⟩ := hn
    rw [← hcontent n hshort] at hzero
    refine ⟨length_takeWhile_ne_zero hzero fun m hm => ?_, (List.getElem?_eq_some_iff.1 hzero).1⟩
    rw [hcontent m (by omega)]
    exact hfirst m hm
  | buffer =>
    obtain rfl : n = 0 := hn
    refine ⟨rfl, ?_⟩
    unfold content
    rw [length_take, length_drop]
    have hwindow : window - size = 194 := rfl
    omega

/-- Where a string is followed by a zero in time, objects have a length. -/
theorem exists_isLength (hend : k = .string → ∃ n < window - size, b[i + size + n]? = some 0) :
    ∃ n < window - size, IsLength b i k n := by
  cases k with
  | string =>
    obtain ⟨n, hn, hzero⟩ := hend rfl
    have hex : ∃ n, b[i + size + n]? = some 0 := ⟨n, hzero⟩
    exact ⟨Nat.find hex, Nat.lt_of_le_of_lt (Nat.find_min' hex hzero) hn, Nat.find_spec hex,
      fun m hm => Nat.find_min hex hm⟩
  | buffer => exact ⟨0, by decide, rfl⟩

/-- The header of an object whose dispatch table and length are known. -/
theorem exists_ofContent {address : UInt32} (haddress : t.address? k.vtable = some address)
    (hmod : address.toNat % 4 = 1) (hn : IsLength b i k n) (hshort : n < window - size) (hsome : i + size < b.length) :
    ∃ h, ofContent t k (content b i) = .ok h ∧ h.encode = headerBytes t.target (address - 1) n := by
  obtain ⟨hlength, hlt⟩ := lengthOf_content hn hshort hsome
  have hxor : address ^^^ 1 = address - 1 := by
    apply UInt32.toNat_inj.1
    have hone : (1 : UInt32).toNat = 1 := rfl
    rw [xor_one_eq (by omega), UInt32.toNat_sub_of_le _ _ (UInt32.le_iff_toNat_le.2 (by omega)), hone]
  refine ⟨_, ofContent_eq_ok.2 ⟨_, vtableOf_eq_ok.2 ⟨address, haddress, hmod, rfl⟩, ?_, rfl⟩, ?_⟩
  · rwa [hlength]
  · rw [encode_eq_headerBytes, hlength, hxor]

theorem IsLength.unique {n' : Nat} (hn : IsLength b i k n) (hn' : IsLength b i k n') : n = n' := by
  cases k with
  | string =>
    obtain ⟨hzero, hfirst⟩ := hn
    obtain ⟨hzero', hfirst'⟩ := hn'
    rcases Nat.lt_trichotomy n n' with hlt | heq | hgt
    · exact absurd hzero (hfirst' n hlt)
    · exact heq
    · exact absurd hzero' (hfirst n' hgt)
  | buffer => exact Eq.trans hn hn'.symm

section

variable (htables : ∀ k : Kind, ∃ address, t.address? k.vtable = some address ∧ address.toNat % 4 = 1)
  (hends : ∀ i, IsObject b i .string → ∃ n < window - size, b[i + size + n]? = some 0)

include htables hends

/-- Where the dispatch tables are known and strings end in time, every object has a header. -/
theorem IsObject.exists_header (hobject : IsObject b i k) :
    ∃ address n h, t.address? k.vtable = some address ∧ IsLength b i k n ∧ ofContent t k (content b i) = .ok h ∧
      h.encode = headerBytes t.target (address - 1) n := by
  obtain ⟨address, haddress, hone⟩ := htables k
  obtain ⟨n, hshort, hn⟩ := exists_isLength (b := b) (i := i) fun heq : k = .string => hends i (heq ▸ hobject)
  obtain ⟨h, hok, hbytes⟩ := exists_ofContent haddress hone hn hshort hobject.2.2
  exact ⟨address, n, h, haddress, hn, hok, hbytes⟩

/-- A scan gives their headers to the objects that it meets. -/
theorem Replaced.patched (h : Replaced t (fourthsFrom 0 b.length) b b') :
    Patched t (fun i => i + 8 < b.length) b b' := by
  have hsize : size = 6 := rfl
  refine ⟨h.length, fun i k hobject hi => ?_, fun j hj => h.frame j fun i hi k hk => ?_⟩
  · obtain ⟨address, n, hd, haddress, hn, hok, hbytes⟩ := hobject.exists_header htables hends
    obtain ⟨hd', hok', htake⟩ := h.header i (mem_fourthsFrom.2 ⟨hobject.1, hi⟩) k hobject.2.1
    obtain rfl := Except.ok.inj (hok.symm.trans hok')
    exact ⟨address, n, haddress, hn, htake.trans hbytes⟩
  · obtain ⟨hmod, hlt⟩ := mem_fourthsFrom.1 hi
    exact hj i k ⟨hmod, hk, by omega⟩ hlt

/-- An object that has got its header has lost the colon of its placeholder. -/
theorem Patched.last_eq_zero {p : Nat → Prop} (h : Patched t p b b') (hobject : IsObject b i k) (hi : p i) :
    b'[i + 5]? = some 0 := by
  obtain ⟨address, n, haddress, hn, htake⟩ := h.header i k hobject hi
  obtain ⟨address', n', hd, haddress', hn', hok, hbytes⟩ := hobject.exists_header htables hends
  obtain rfl := Option.some.inj (haddress.symm.trans haddress')
  obtain rfl := hn.unique hn'
  rw [← getElem?_drop, ← getElem?_take_of_lt (by decide : 5 < size), htake, ← hbytes]
  exact encode_last hok (Nat.le_trans (length_content_le ..) (by decide))

end

/-- **The scan of a flat image** succeeds where the dispatch tables are known and every string ends in time, and gives
their headers to exactly the objects that have more than eight bytes from their placeholder on. So all of them get one
exactly if none stands in the last eight bytes. -/
theorem replaceIn_patched_iff (t : Template) (b : Bytes)
    (htables : ∀ k : Kind, ∃ address, t.address? k.vtable = some address ∧ address.toNat % 4 = 1)
    (hends : ∀ i, IsObject b i .string → ∃ n < window - size, b[i + size + n]? = some 0) :
    ∃ b', replaceIn t b = .ok b' ∧ Patched t (fun i => i + 8 < b.length) b b' ∧
      (Patched t (fun _ => True) b b' ↔ ∀ i k, IsObject b i k → i + 8 < b.length) := by
  have hsize : size = 6 := rfl
  have hsorted := pairwise_fourthsFrom 0 b.length
  have hall : ∀ i ∈ fourthsFrom 0 b.length, ∀ k, StandsAt b i k → ∃ h, ofContent t k (content b i) = .ok h := by
    intro i hi k hstands
    obtain ⟨hmod, hlt⟩ := mem_fourthsFrom.1 hi
    have hobject : IsObject b i k := ⟨hmod, hstands, by omega⟩
    obtain ⟨_, _, h, -, -, hok, -⟩ := hobject.exists_header htables hends
    exact ⟨h, hok⟩
  obtain ⟨b', hok⟩ := exists_visitAll hsorted hall
  have hreplaced := replaced_of_visitAll hsorted hok
  have hpatched := hreplaced.patched htables hends
  refine ⟨b', (replaceIn_eq t b).trans hok, hpatched, fun hevery i k hobject => ?_, fun hmet => ?_⟩
  · -- with a header the object has a zero for its colon, so the scan visits it
    have hzero := hevery.last_eq_zero htables hends hobject trivial
    exact (mem_fourthsFrom.1 ((hreplaced.byte_five hobject.2.1).1 hzero)).2
  · exact ⟨hpatched.length, fun i k hobject _ => hpatched.header i k hobject (hmet i k hobject),
      fun j hj => hpatched.frame j fun i k hobject _ => hj i k hobject trivial⟩

/-- A string, a buffer and the end of the image. -/
def stringAndBuffer : Bytes := Kind.placeholder .string ++ [0x61, 0] ++ Kind.placeholder .buffer ++ [1, 2, 3, 4]

/-- A string that ends the image. -/
def lastString : Bytes := Kind.placeholder .string ++ [0x61, 0]

theorem tables_known : ∀ k : Kind, ∃ address,
    (tables (Template.pagedTarget 0) 0x2001 0x3001).address? k.vtable = some address ∧ address.toNat % 4 = 1
  | .string => ⟨0x2001, by decide +kernel, by decide⟩
  | .buffer => ⟨0x3001, by decide +kernel, by decide⟩

theorem replaceIn_stringAndBuffer :
    (∀ i, IsObject stringAndBuffer i .string → ∃ n < window - size, stringAndBuffer[i + size + n]? = some 0) ∧
    ∃ b', replaceIn (tables (Template.pagedTarget 0) 0x2001 0x3001) stringAndBuffer = .ok b' ∧
      Patched (tables (Template.pagedTarget 0) 0x2001 0x3001) (fun i => i + 8 < stringAndBuffer.length)
        stringAndBuffer b' ∧
      (Patched (tables (Template.pagedTarget 0) 0x2001 0x3001) (fun _ => True) stringAndBuffer b' ↔
        ∀ i k, IsObject stringAndBuffer i k → i + 8 < stringAndBuffer.length) := by
  have hends : ∀ i, IsObject stringAndBuffer i .string →
      ∃ n < window - size, stringAndBuffer[i + size + n]? = some 0 := by
    intro i hobject
    have hall : ∀ i < 18, StandsAt stringAndBuffer i .string → i = 0 := by decide
    obtain rfl := hall i (Nat.lt_of_le_of_lt (Nat.le_add_right i size) hobject.2.2) hobject.2.1
    exact ⟨1, by decide, by decide⟩
  exact ⟨hends, replaceIn_patched_iff _ _ tables_known hends⟩

/-- A string that ends the image keeps its placeholder. -/
theorem replaceIn_lastString :
    (∀ i, IsObject lastString i .string → ∃ n < window - size, lastString[i + size + n]? = some 0) ∧
    IsObject lastString 0 .string ∧
    replaceIn (tables (Template.pagedTarget 0) 0x2001 0x3001) lastString = .ok lastString ∧
    ¬ Patched (tables (Template.pagedTarget 0) 0x2001 0x3001) (fun _ => True) lastString lastString := by
  have hobject : IsObject lastString 0 .string := ⟨rfl, by decide, by decide⟩
  refine ⟨fun i hi => ?_, hobject, rfl, fun hpatched => ?_⟩
  · have hall : ∀ i < 8, StandsAt lastString i .string → i = 0 := by decide
    obtain rfl := hall i (Nat.lt_of_le_of_lt (Nat.le_add_right i size) hi.2.2) hi.2.1
    exact ⟨1, by decide, by decide⟩
  · obtain ⟨address, n, -, hn, htake⟩ := hpatched.header 0 .string hobject trivial
    have hfirst : (headerBytes (Template.pagedTarget 0) (address - 1) n)[0]? = some 0xfe := rfl
    rw [show (tables (Template.pagedTarget 0) 0x2001 0x3001).target = Template.pagedTarget 0 from rfl] at htake
    rw [← htake] at hfirst
    exact absurd hfirst (by decide)

end ObjectHeader
end Firmware
