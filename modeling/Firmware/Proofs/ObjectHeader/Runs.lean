import Firmware.Proofs.IntelHex.Data
import Firmware.Proofs.ObjectHeader.PageScan
import Mathlib.Logic.Relation

/-!
# Replacing placeholders one by one

Flat images, block files and record lines are searched in different ways, but what is done to them is the same: one
after the other, placeholders get headers written over them. `Replaces` is one such step on a memory, which says for
each place which byte stands there. Places are numbers in a flat image and in the data of lines, and addresses that wrap
around in a block file; all that is asked of them is that one can count up from them (`Places`).

Every successful search is a run of such steps, whatever it searches (`run_replaceIn`, `run_replaceInPages`,
`run_replaceInLines`).
-/

namespace Firmware

open List

namespace ObjectHeader

open Places Relation Uf2 BlockFile IntelHex

/-- One step: a header for an object is written over its placeholder. -/
def Replaces {G : Type} [Places G] (t : Template) (m m' : G → Option UInt8) : Prop :=
  ∃ a k c h, StandIn m a (Kind.placeholder k) ∧ ofContent t k c = .ok h ∧ c.length ≤ window ∧ StandIn m' a h.encode ∧
    ∀ x, (∀ d < size, x ≠ up a d) → m' x = m x

/-- Bytes as a memory. -/
def memoryOf (b : Bytes) : Nat → Option UInt8 := fun i => b[i]?

variable {t : Template} {b b' : Bytes} {f f' : BlockFile} {lines lines' : List String}

/-- A loop whose steps are runs is a run. -/
theorem run_foldlM {α β M : Type} {R : M → M → Prop} {m : α → M} {P : α → Prop} {g : α → β → Except Failure α}
    (hstep : ∀ x y x', P x → g x y = .ok x' → P x' ∧ ReflTransGen R (m x) (m x')) {l : List β} {x x' : α} (hx : P x)
    (h : l.foldlM g x = .ok x') : P x' ∧ ReflTransGen R (m x) (m x') := by
  induction l generalizing x with
  | nil =>
    obtain rfl := Except.ok.inj h
    exact ⟨hx, .refl⟩
  | cons y rest ih =>
    rw [foldlM_cons] at h
    obtain ⟨x₁, hfirst, hrest⟩ := exists_of_bind_eq_ok h
    obtain ⟨hx₁, hrun⟩ := hstep x y x₁ hx hfirst
    obtain ⟨hx', hrun'⟩ := ih hx₁ hrest
    exact ⟨hx', hrun.trans hrun'⟩

/-! ## Flat images -/

/-- A step in a flat image. -/
theorem replaces_overwrite {i : Nat} {k : Kind} {h : ObjectHeader} (hstands : StandsAt b i k)
    (hok : ofContent t k (content b i) = .ok h) : Replaces t (memoryOf b) (memoryOf (b.overwrite i h.encode)) := by
  have hfits := hstands.fits h
  refine ⟨i, k, content b i, h, fun d hd => standsAt_iff.1 hstands d hd, hok,
    Nat.le_trans (length_content_le ..) (by decide), fun d hd => Bytes.getElem?_overwrite_inside hfits hd,
    fun x hx => ?_⟩
  refine Bytes.getElem?_overwrite_outside hfits ?_
  by_contra hnot
  have hsize : h.encode.length = size := rfl
  exact hx (x - i) (by omega) (by rw [up_nat]; omega)

/-- Whether a visit to some offset makes one image of another. -/
def Visited (t : Template) (b b' : Bytes) : Prop := ∃ i, visit t b i = .ok b'

/-- A visit is a step or does nothing. -/
theorem run_of_visited (h : ReflTransGen (Visited t) b b') : ReflTransGen (Replaces t) (memoryOf b) (memoryOf b') := by
  refine h.lift' memoryOf fun x x' ⟨i, hvisit⟩ => ?_
  obtain ⟨-, rfl⟩ | ⟨k, h, hstands, hok, rfl⟩ := visit_eq_ok hvisit
  · exact .refl
  · exact .single (replaces_overwrite hstands hok)

theorem run_replaceIn (h : replaceIn t b = .ok b') : ReflTransGen (Replaces t) (memoryOf b) (memoryOf b') := by
  rw [replaceIn_eq] at h
  refine run_of_visited (run_foldlM (P := fun _ => True) (m := id) (fun x i x' _ hvisit => ?_) trivial h).2
  exact ⟨trivial, .single ⟨i, hvisit⟩⟩

/-! ## Block files -/

/-- A write puts its bytes at the places that one counts up to from its address, and nowhere else. -/
theorem byteAt?_write_up {w : Write} (hlen : w.data.length ≤ 2 ^ 32) :
    StandIn w.byteAt? w.address w.data ∧ ∀ x, (∀ d < w.data.length, x ≠ up w.address d) → w.byteAt? x = none := by
  constructor
  · intro d hd
    have hback : w.address + d.toUInt32 - w.address = d.toUInt32 := by grind
    rw [up_address, Write.byteAt?, hback, UInt32.toNat_ofNat_of_lt' (by show d < 4294967296; omega)]
  · intro x hx
    unfold Write.byteAt?
    rw [List.getElem?_eq_none_iff]
    by_contra hlt
    refine hx (x - w.address).toNat (by omega) ?_
    rw [up_address, show (x - w.address).toNat.toUInt32 = x - w.address from UInt32.ofNat_toNat]
    grind

/-- A placeholder that is read stands in the file, as it has no erased bytes. -/
theorem standIn_of_read (hf : f.Sound) {a : UInt32} {k : Kind}
    (hread : k.placeholder <+: (f.read a window).getD []) : StandIn f.byteAt? a k.placeholder := by
  have hpage : ∃ p, f.find? (pageOf a) = some p := by
    by_contra hnone
    have hnone : f.find? (pageOf a) = none := by simpa [Option.eq_none_iff_forall_ne_some] using hnone
    rw [BlockFile.read, hnone] at hread
    have hle : size ≤ 0 := hread.length_le
    exact absurd hle (by decide)
  obtain ⟨p, hp⟩ := hpage
  rw [hf.read_eq hp (by decide), Option.getD_some] at hread
  intro d hd
  have hbyte := List.prefix_iff_getElem?.1 hread d hd
  have hwindow : d < window := Nat.lt_trans hd (by cases k <;> decide)
  rw [getElem?_bytesAt f a hwindow] at hbyte
  rw [up_address, getElem?_eq_getElem hd, ← hbyte]
  cases hthere : f.byteAt? (a + d.toUInt32) with
  | some x => rfl
  | none =>
    -- an erased byte was read, which is none of a placeholder
    rw [hthere] at hbyte
    have herased : eraseValue = k.placeholder[d] := Option.some.inj hbyte
    exact absurd (herased ▸ getElem_mem hd) (eraseValue_notMem k)

theorem length_read_le (hf : f.Sound) (a : UInt32) {n : Nat} (hn : n ≤ payloadSize) :
    ((f.read a n).getD []).length ≤ n := by
  cases hp : f.find? (pageOf a) with
  | none =>
    rw [BlockFile.read, hp]
    exact Nat.zero_le n
  | some p => rw [hf.read_eq hp hn, Option.getD_some, length_bytesAt]

/-- What is done at a place of a block file is nothing, or one step. -/
theorem run_replaceAt (hf : f.Sound) {a : UInt32} (h : replaceAt t f a = .ok f') :
    f'.Sound ∧ ReflTransGen (Replaces t) f.byteAt? f'.byteAt? := by
  unfold replaceAt at h
  obtain ⟨found, hat, h⟩ := exists_of_bind_eq_ok h
  cases found with
  | none =>
    obtain rfl := Except.ok.inj h
    exact ⟨hf, .refl⟩
  | some header =>
    obtain rfl := Except.ok.inj h
    obtain ⟨k, hplaceholder, hok⟩ := exists_of_at? hat
    have hstands := standIn_of_read hf hplaceholder
    obtain ⟨hwrite, houtside⟩ := byteAt?_write_up (w := ⟨a, header.encode⟩) (by show size ≤ 4294967296; decide)
    -- the header goes over bytes that the file has, those of the placeholder
    have hthere : ∀ x, ((⟨a, header.encode⟩ : Write).byteAt? x).isSome → (f.byteAt? x).isSome := by
      intro x hsome
      by_contra hnone
      have hnot : (⟨a, header.encode⟩ : Write).byteAt? x = none := houtside x fun d hd heq => hnone (by
        rw [heq, hstands d hd, getElem?_eq_getElem (show d < k.placeholder.length from hd)]
        rfl)
      rw [hnot] at hsome
      exact nomatch hsome
    obtain ⟨hsound, hbytes⟩ := hf.byteAt?_write (w := ⟨a, header.encode⟩) (cons_ne_nil _ _)
      (by show size ≤ 4294967296; decide) hthere 0
    refine ⟨hsound, .single ⟨a, k, _, header, hstands, hok, ?_, fun d hd => ?_, fun x hx => ?_⟩⟩
    · rw [length_drop]
      exact Nat.le_trans (Nat.sub_le ..) (length_read_le hf a (by decide))
    · rw [hbytes, hwrite d hd, getElem?_eq_getElem hd]
      rfl
    · rw [hbytes, houtside x hx, Option.none_or]

theorem run_replaceInPages (hf : f.Sound) (h : replaceInPages t f = .ok f') :
    f'.Sound ∧ ReflTransGen (Replaces t) f.byteAt? f'.byteAt? := by
  refine run_foldlM (P := Sound) (m := BlockFile.byteAt?) (fun g number g' hg hpage => ?_) hf h
  rw [replaceInPage_eq] at hpage
  exact run_foldlM (P := Sound) (m := BlockFile.byteAt?) (fun _ _ _ hsound hplace => run_replaceAt hsound hplace) hg
    hpage

/-! ## Record lines -/

/-- A header that is found for a place of a line is that of an object in the data of the lines. -/
theorem exists_of_headerAt {i : Nat} {h : ObjectHeader} (hi : offsetAt i < 2 ^ 63 - 4)
    (hheader : headerAt t lines i = .ok (some h)) :
    ∃ k, StandsAt (dataOf lines) (placeOf (offsetAt i) lines) k ∧
      ofContent t k (content (dataOf lines) (placeOf (offsetAt i) lines)) = .ok h := by
  unfold headerAt at hheader
  obtain ⟨c, hread, hat⟩ := exists_of_bind_eq_ok hheader
  have hc := readData_eq hi (by decide : 0 < window) hread
  obtain ⟨k, hplaceholder, hok⟩ := exists_of_at? hat
  rw [hc] at hplaceholder hok
  refine ⟨k, hplaceholder.trans (List.take_prefix ..), ?_⟩
  rwa [drop_take, drop_drop] at hok

/-- A header that is written into lines is written into their data. -/
theorem visited_of_stamps {original : List String} (hshort : Short original)
    (hlines : List.Forall₂ Rewritten original lines) (h : Stamps t lines lines') :
    Visited t (dataOf lines) (dataOf lines') := by
  obtain ⟨front, i, header, hplace, hheader, hwrite⟩ := h
  have hoff := offset_lt (fun l hl => hshort l (mem_of_mem_drop hl)) (List.forall₂_drop_append _ front _ hlines)
    hplace.le_length
  obtain ⟨k, hstands, hok⟩ := exists_of_headerAt hoff hheader
  rw [dataOf_append, dataOf_append, (dataOf_writeData hoff (encode_ne_nil header) hwrite).1]
  exact ⟨_, by rw [visit_append, visit_of_standsAt hstands, hok]; rfl⟩

theorem run_replaceInLines (hshort : Short lines) (h : replaceInLines t lines = .ok lines') :
    ReflTransGen (Replaces t) (memoryOf (dataOf lines)) (memoryOf (dataOf lines')) := by
  refine run_of_visited ?_
  have hrun := run_replaceInLinesOnto _ [] h
  clear h
  induction hrun with
  | refl => exact .refl
  | tail hbefore hstep ih =>
    exact ih.tail (visited_of_stamps hshort
      (rewritten_of_run hshort (List.forall₂_same.2 fun _ _ => .same) hbefore) hstep)

end ObjectHeader
end Firmware
