import Firmware.Proofs.Bytes
import Firmware.Proofs.Flash.Journal

/-!
# The contents of block files

A block file has the bytes that its writes leave, and erased bytes in the rest of the pages that they need
(`Records.foldl_write`). The argument goes from one page to all: a write that lies in one page is one more entry of
the journal, and every write is cut into such pieces.
-/

namespace Firmware

open Uf2 BlockFile List

/-! ## Places in pages -/

namespace Uf2.BlockFile

theorem pageOffset_eq (a : UInt32) : pageOffset a = a.toNat % 256 := by
  unfold pageOffset
  rw [UInt32.toNat_and]
  exact Nat.and_two_pow_sub_one_eq_mod a.toNat 8

theorem toNat_pageOf (a : UInt32) : (pageOf a).toNat = a.toNat / 256 := by
  unfold pageOf
  rw [UInt32.toNat_shiftRight]
  exact Nat.shiftRight_eq_div_pow a.toNat 8

theorem pageOf_eq_iff {a b : UInt32} : pageOf a = pageOf b ↔ a.toNat / 256 = b.toNat / 256 := by
  rw [← toNat_pageOf, ← toNat_pageOf]
  exact UInt32.toNat_inj.symm

end Uf2.BlockFile

namespace Write

/-- Whether a write lies in the page that it starts in. -/
def InPage (w : Write) : Prop := pageOffset w.address + w.data.length ≤ payloadSize

namespace InPage

variable {w : Write} {a : UInt32}

/-- A write that lies in one page puts its bytes at their places in the page. -/
theorem byteAt?_same (hw : w.InPage) (h : pageOf a = pageOf w.address) :
    w.byteAt? a = if pageOffset w.address ≤ pageOffset a
      then w.data[pageOffset a - pageOffset w.address]? else none := by
  unfold InPage at hw
  unfold byteAt?
  rw [pageOf_eq_iff] at h
  rw [pageOffset_eq] at hw ⊢
  rw [pageOffset_eq, toNat_sub_address]
  have hsize : payloadSize = 256 := rfl
  by_cases hle : w.address.toNat ≤ a.toNat
  · rw [if_pos hle, if_pos (by omega)]
    congr 1
    omega
  · have ha := w.address.toNat_lt
    rw [if_neg hle, if_neg (by omega), List.getElem?_eq_none_iff]
    omega

/-- A write that lies in one page leaves the other pages alone. -/
theorem byteAt?_other (hw : w.InPage) (h : pageOf a ≠ pageOf w.address) : w.byteAt? a = none := by
  unfold InPage at hw
  rw [Ne, pageOf_eq_iff] at h
  rw [pageOffset_eq] at hw
  have hsize : payloadSize = 256 := rfl
  have ha := w.address.toNat_lt
  unfold byteAt?
  rw [List.getElem?_eq_none_iff, toNat_sub_address]
  split <;> omega

theorem touches_iff (hw : w.InPage) : w.Touches a ↔ pageOf a = pageOf w.address := by
  constructor
  · rintro ⟨b, hb, rfl | hsome⟩
    · exact hb.symm
    · rw [← hb]
      by_cases h : pageOf b = pageOf w.address
      · exact h
      · rw [hw.byteAt?_other h] at hsome
        exact absurd hsome Bool.false_ne_true
  · intro h
    exact ⟨w.address, h.symm, .inl rfl⟩

end InPage

/-- A write needs the pages that its first bytes and those behind them need. -/
theorem touches_split (w : Write) {n : Nat} (hn : n < w.data.length) (hlen : w.data.length ≤ 2 ^ 32)
    (a : UInt32) :
    (⟨w.address, w.data.take n⟩ : Write).Touches a ∨
      (⟨w.address + n.toUInt32, w.data.drop n⟩ : Write).Touches a ↔ w.Touches a := by
  have hsplit := w.byteAt?_split (n := n) (by omega) hlen
  constructor
  · rintro (⟨b, hb, rfl | hsome⟩ | ⟨b, hb, rfl | hsome⟩)
    · exact ⟨_, hb, .inl rfl⟩
    · refine ⟨b, hb, .inr ?_⟩
      rw [← hsplit, Option.isSome_or, hsome, Bool.or_true]
    · -- the second part starts at a byte of the whole
      refine ⟨_, hb, .inr ?_⟩
      rw [← hsplit, Option.isSome_or]
      simp [byteAt?, hn]
    · refine ⟨b, hb, .inr ?_⟩
      rw [← hsplit, Option.isSome_or, hsome, Bool.true_or]
  · rintro ⟨b, hb, rfl | hsome⟩
    · exact .inl ⟨_, hb, .inl rfl⟩
    · rw [← hsplit, Option.isSome_or, Bool.or_eq_true] at hsome
      obtain hsome | hsome := hsome
      · exact .inr ⟨b, hb, .inr hsome⟩
      · exact .inl ⟨b, hb, .inr hsome⟩

end Write

namespace Journal

/-- Two rows of writes that leave the same bytes and need the same pages. -/
def Same (j k : Journal) : Prop :=
  ∀ a, j.byteAt? a = k.byteAt? a ∧ (j.Touches a ↔ k.Touches a)

theorem Same.append_left {j k : Journal} (h : Same j k) (i : Journal) : Same (i ++ j) (i ++ k) := by
  intro a
  rw [byteAt?_append, byteAt?_append, touches_append, touches_append, (h a).1, (h a).2]
  exact ⟨rfl, Iff.rfl⟩

theorem Same.holds_iff {j k : Journal} (h : Same j k) (a : UInt32) (b : UInt8) : j.Holds a b ↔ k.Holds a b := by
  rw [Holds, Holds, (h a).1, (h a).2]

end Journal

namespace Uf2.BlockFile

variable {f : BlockFile} {j : Journal} {p : Page}

/-- The pieces that data is cut into, as writes. -/
def pieces (w : Write) : Journal := (cut w.address w.data).map fun (address, data) => ⟨address, data⟩

theorem pieces_eq (w : Write) : pieces w = if w.data.length ≤ payloadSize - pageOffset w.address then [w]
      else ⟨w.address, w.data.take (payloadSize - pageOffset w.address)⟩ ::
        pieces ⟨w.address + (payloadSize - pageOffset w.address).toUInt32,
          w.data.drop (payloadSize - pageOffset w.address)⟩ := by
  unfold pieces
  rw [cut]
  split
  next h =>
    rw [if_pos (drop_eq_nil_iff.1 h)]
    rfl
  next x rest h =>
    have hlen : ¬ w.data.length ≤ payloadSize - pageOffset w.address := by
      intro hle
      rw [drop_eq_nil_iff.2 hle] at h
      exact cons_ne_nil x rest h.symm
    rw [if_neg hlen]
    simp only [map_cons, h]

/-- Every piece lies in one page, and together the pieces are the write. -/
theorem pieces_spec (w : Write) (hlen : w.data.length ≤ 2 ^ 32) :
    (∀ p ∈ pieces w, p.InPage) ∧ Journal.Same (pieces w) [w] := by
  rw [pieces_eq]
  have hoff := pageOffset_lt w.address
  split
  next hfit =>
    constructor
    · intro p hp
      obtain rfl := mem_singleton.1 hp
      unfold Write.InPage
      omega
    · exact fun a => ⟨rfl, Iff.rfl⟩
  next hcut =>
    -- the first piece fills its page, the others are those of what is left
    let n := payloadSize - pageOffset w.address
    have hn : n < w.data.length := Nat.lt_of_not_le hcut
    have hn32 : n < 2 ^ 32 := by omega
    obtain ⟨hpages, hsame⟩ := pieces_spec ⟨w.address + n.toUInt32, w.data.drop n⟩
      (by rw [length_drop]; omega)
    constructor
    · intro p hp
      obtain rfl | hp := mem_cons.1 hp
      · show pageOffset w.address + (w.data.take n).length ≤ payloadSize
        rw [length_take]
        omega
      · exact hpages p hp
    · intro a
      have hbyte := w.byteAt?_split hn32 hlen a
      have htouch := w.touches_split hn hlen a
      obtain ⟨hrest, hrestTouch⟩ := hsame a
      constructor
      · rw [Journal.byteAt?_cons, hrest]
        simpa using hbyte
      · simp only [Journal.Touches, mem_cons, not_mem_nil, or_false, exists_eq_or_imp, exists_eq_left] at hrestTouch ⊢
        rw [hrestTouch]
        exact htouch
termination_by w.data.length
decreasing_by simp only [length_drop]; omega

/-! ## Pages and bytes -/

/-- The byte of a block file at an address. -/
def byteAt? (f : BlockFile) (a : UInt32) : Option UInt8 :=
  (f.find? (pageOf a)).bind (·.data[pageOffset a]?)

/-- Whether the pages of a block file have different numbers of 24 bits and the size of a
payload. -/
structure Sound (f : BlockFile) : Prop where
  nodup : f.pageNumbers.Nodup
  size : ∀ p ∈ f.pages, p.data.length = payloadSize
  bound : ∀ p ∈ f.pages, p.number.toNat < 2 ^ 24

section

variable (h : f.Sound) (hp : p ∈ f.pages)
include h hp

/-- The pages of a file are found by their numbers. -/
theorem Sound.find?_number : f.find? p.number = some p := by
  have hnodup := h.nodup
  unfold pageNumbers at hnodup
  unfold find?
  generalize f.pages = pages at hp hnodup
  induction pages with
  | nil => exact absurd hp not_mem_nil
  | cons q rest ih =>
    rw [map_cons, nodup_cons] at hnodup
    obtain rfl | hp := mem_cons.1 hp
    · exact find?_cons_of_pos (by simp)
    · have hne : q.number ≠ p.number := fun heq => hnodup.1 (heq ▸ mem_map_of_mem hp)
      rw [find?_cons_of_neg (by simpa using hne), ih hp hnodup.2]

/-- A page starts at its number times the size of a page. -/
theorem Sound.toNat_pageStart : (p.number <<< 8).toNat = p.number.toNat * 256 := by
  have hbound := h.bound p hp
  rw [UInt32.toNat_shiftLeft]
  show p.number.toNat <<< 8 % 2 ^ 32 = _
  rw [Nat.shiftLeft_eq]
  omega

theorem Sound.toNat_pageAddress {off : Nat} (hoff : off < 256) :
    (p.number <<< 8 + off.toUInt32).toNat = p.number.toNat * 256 + off := by
  have hbound := h.bound p hp
  rw [UInt32.toNat_add, h.toNat_pageStart hp, UInt32.toNat_ofNat_of_lt' (by show off < 4294967296; omega)]
  omega

/-- The byte of a page at an offset. -/
theorem Sound.byteAt?_page {off : Nat} (hoff : off < 256) :
    f.byteAt? (p.number <<< 8 + off.toUInt32) = p.data[off]? := by
  have haddress := h.toNat_pageAddress hp hoff
  have hpage : pageOf (p.number <<< 8 + off.toUInt32) = p.number := by
    apply UInt32.toNat_inj.1
    rw [toNat_pageOf, haddress]
    omega
  unfold byteAt?
  rw [hpage, h.find?_number hp, pageOffset_eq, haddress, show (p.number.toNat * 256 + off) % 256 = off by omega]
  rfl

/-- A page is read as a whole. -/
theorem Sound.read_page : f.read (p.number <<< 8) payloadSize = some p.data := by
  have haddress := h.toNat_pageStart hp
  have hpage : pageOf (p.number <<< 8) = p.number := by
    apply UInt32.toNat_inj.1
    rw [toNat_pageOf, haddress]
    omega
  have hoffset : pageOffset (p.number <<< 8) = 0 := by
    rw [pageOffset_eq, haddress]
    omega
  rw [read, hpage, h.find?_number hp]
  dsimp only
  rw [hoffset, drop_zero, take_of_length_le (by rw [h.size p hp]; decide)]
  rfl

end

/-- Whether a block file has the bytes that writes leave. -/
def Reflects (f : BlockFile) (j : Journal) : Prop := ∀ a b, f.byteAt? a = some b ↔ j.Holds a b

section

variable (number : UInt32) (g : Page → Page) (hg : ∀ p, (g p).number = p.number) (pages : List Page)
include hg

theorem map_number_updatePage : (updatePage number g pages).map (·.number) = pages.map (·.number) := by
  induction pages with
  | nil => rfl
  | cons p rest ih =>
    rw [updatePage]
    split <;> simp [hg, ih]

theorem find?_updatePage (n : UInt32) :
    (updatePage number g pages).find? (·.number == n) = if n = number then (pages.find? (·.number == n)).map g
      else pages.find? (·.number == n) := by
  induction pages with
  | nil => simp [updatePage]
  | cons p rest ih =>
    rw [updatePage]
    by_cases hp : p.number = number
    · by_cases hn : n = number
      · simp [hp, hn, hg]
      · simp [hp, hg, Ne.symm hn, hn]
    · by_cases hn : n = number
      · subst hn
        simp [hp, ih]
      · by_cases hpn : p.number = n <;> simp [hp, hpn, ih, hn]

end

/-- The pages to write to, with the page of a number among them. -/
def withPage (f : BlockFile) (number flags : UInt32) : List Page :=
  if (f.find? number).isSome then f.pages else f.pages ++ [f.newPage number flags]

theorem find?_withPage (f : BlockFile) (number flags n : UInt32) : (f.withPage number flags).find? (·.number == n) =
      if n = number then some ((f.find? n).getD (f.newPage n flags)) else f.find? n := by
  unfold withPage
  by_cases hsome : (f.find? number).isSome
  · rw [if_pos hsome]
    split
    next h =>
      subst h
      obtain ⟨p, hp⟩ := Option.isSome_iff_exists.1 hsome
      rw [hp]
      exact hp
    next h => rfl
  · have hnone : f.find? number = none := by simpa using hsome
    rw [if_neg hsome, find?_append]
    split
    next h =>
      subst h
      have hnone' : f.pages.find? (·.number == n) = none := hnone
      rw [hnone, hnone']
      simp [newPage]
    next h =>
      have hnew : [f.newPage number flags].find? (·.number == n) = none := by
        simp [newPage, Ne.symm h]
      rw [hnew, Option.or_none]
      rfl

/-- What holds of the pages, and of a new one where it is made, holds of the pages to write to. -/
theorem forall_withPage {number flags : UInt32} {P : Page → Prop} (h : ∀ p ∈ f.pages, P p)
    (hnew : f.find? number = none → P (f.newPage number flags)) : ∀ p ∈ f.withPage number flags, P p := by
  intro p hp
  unfold withPage at hp
  split at hp
  next => exact h p hp
  next hnone =>
    obtain hp | hp := mem_append.1 hp
    · exact h p hp
    · rw [mem_singleton.1 hp]
      exact hnew (by simpa using hnone)

theorem forall_updatePage {number : UInt32} {g : Page → Page} {P : Page → Prop} {pages : List Page}
    (h : ∀ p ∈ pages, P p) (hg : ∀ p, P p → P (g p)) : ∀ p ∈ updatePage number g pages, P p := by
  induction pages with
  | nil => simp [updatePage]
  | cons q rest ih =>
    have hq := h q (mem_cons_self ..)
    have hrest := fun p hp => h p (mem_cons_of_mem q hp)
    intro p hp
    rw [updatePage] at hp
    split at hp
    · obtain rfl | hp := mem_cons.1 hp
      · exact hg q hq
      · exact hrest p hp
    · obtain rfl | hp := mem_cons.1 hp
      · exact hq
      · exact ih hrest p hp

/-- A page with the bytes of a write in place. -/
def overlay (w : Write) (p : Page) : Page :=
  { p with data := p.data.overwrite (pageOffset w.address) w.data }

theorem pages_writePage (f : BlockFile) (w : Write) (flags : UInt32) : (f.writePage w.address w.data flags).pages =
      updatePage (pageOf w.address) (overlay w) (f.withPage (pageOf w.address) flags) := rfl

theorem nodup_withPage (h : f.pageNumbers.Nodup) (number flags : UInt32) :
    ((f.withPage number flags).map (·.number)).Nodup := by
  unfold withPage
  split
  next => exact h
  next hnone =>
    rw [map_append, nodup_append]
    refine ⟨h, by simp, ?_⟩
    intro n hn m hm
    obtain rfl : m = number := by simpa [newPage] using hm
    rintro rfl
    obtain ⟨p, hp, rfl⟩ := mem_map.1 hn
    apply hnone
    rw [find?, find?_isSome]
    exact ⟨p, hp, by simp⟩

variable {f : BlockFile} {w : Write}

theorem length_newPage (f : BlockFile) (number flags : UInt32) :
    (f.newPage number flags).data.length = payloadSize := length_replicate

theorem Sound.writePage (h : f.Sound) (hw : w.InPage) (flags : UInt32) :
    (f.writePage w.address w.data flags).Sound where
  nodup := by
    unfold pageNumbers
    rw [pages_writePage, map_number_updatePage _ (overlay w) fun _ => rfl]
    exact nodup_withPage h.nodup ..
  size := by
    rw [pages_writePage]
    refine forall_updatePage (forall_withPage h.size fun _ => f.length_newPage ..) fun p hp => ?_
    show (p.data.overwrite _ _).length = payloadSize
    rw [Bytes.length_overwrite (by rw [hp]; exact hw), hp]
  bound := by
    rw [pages_writePage]
    refine forall_updatePage (forall_withPage h.bound fun _ => ?_) fun p hp => hp
    have := w.address.toNat_lt
    show (pageOf w.address).toNat < 2 ^ 24
    rw [toNat_pageOf]
    omega

/-- The page of an address, or a new one, has the byte of the file there, or an erased one. -/
theorem Sound.page_spec (h : f.Sound) (flags a : UInt32) :
    ∃ p, (f.find? (pageOf a)).getD (f.newPage (pageOf a) flags) = p ∧ p.data.length = payloadSize ∧
      p.data[pageOffset a]? = some ((f.byteAt? a).getD eraseValue) := by
  have hoff := pageOffset_lt a
  refine ⟨_, rfl, ?_⟩
  unfold byteAt?
  cases hfind : f.find? (pageOf a) with
  | none =>
    refine ⟨f.length_newPage .., ?_⟩
    exact (getElem?_replicate ..).trans (if_pos hoff)
  | some p =>
    have hsize := h.size p (mem_of_find?_eq_some hfind)
    have hlt : pageOffset a < p.data.length := hsize ▸ hoff
    refine ⟨hsize, ?_⟩
    simp [getElem?_eq_getElem hlt]

/-- The bytes of a page are those written last, and erased ones where nothing was written. -/
theorem byteAt?_writePage (h : f.Sound) (hw : w.InPage) (flags a : UInt32) :
    (f.writePage w.address w.data flags).byteAt? a = if pageOf a = pageOf w.address
      then some ((w.byteAt? a).getD ((f.byteAt? a).getD eraseValue))
      else f.byteAt? a := by
  -- the page of the write is there or made, and has the bytes put over it; the others stay
  have hfind : (f.writePage w.address w.data flags).find? (pageOf a) = if pageOf a = pageOf w.address
      then some (overlay w ((f.find? (pageOf a)).getD (f.newPage (pageOf a) flags)))
      else f.find? (pageOf a) := by
    unfold find?
    rw [pages_writePage, find?_updatePage _ (overlay w) (fun _ => rfl), find?_withPage]
    split <;> rfl
  by_cases hpage : pageOf a = pageOf w.address
  · obtain ⟨p, hp, hsize, hbyte⟩ := h.page_spec flags a
    have hfit : pageOffset w.address + w.data.length ≤ p.data.length := hsize ▸ hw
    rw [byteAt?, hfind, if_pos hpage, if_pos hpage, hp, hw.byteAt?_same hpage]
    show (p.data.overwrite _ _)[_]? = _
    rw [Bytes.getElem?_overwrite hfit, hbyte]
    split
    next => cases w.data[pageOffset a - pageOffset w.address]? <;> rfl
    next => rfl
  · rw [byteAt?, hfind, if_neg hpage, if_neg hpage]
    rfl

/-! ## Files and journals -/

/-- What a file reflects, byte by byte. -/
theorem Reflects.getD_eq (h : f.Reflects j) (a : UInt32) :
    (f.byteAt? a).getD eraseValue = (j.byteAt? a).getD eraseValue := by
  cases hbyte : f.byteAt? a with
  | some b => exact ((h a b).1 hbyte).2.symm
  | none =>
    cases hj : j.byteAt? a with
    | none => rfl
    | some b =>
      have hsome := (h a b).2 (Journal.holds_of_byteAt? hj)
      rw [hbyte] at hsome
      exact nomatch hsome

theorem reflects_new (family : UInt32) : (new family).Reflects [] := by
  intro a b
  constructor
  · exact fun h => nomatch h
  · rintro ⟨⟨w, hw, -⟩, -⟩
    exact nomatch hw

theorem sound_new (family : UInt32) : (new family).Sound where
  nodup := nodup_nil
  size := fun _ hp => nomatch hp
  bound := fun _ hp => nomatch hp

/-- A write to one page is one more entry of the journal. -/
theorem Reflects.writePage (hf : f.Sound) (h : f.Reflects j) (hw : w.InPage) (flags : UInt32) :
    (f.writePage w.address w.data flags).Reflects (j ++ [w]) := by
  intro a b
  have htouch : Journal.Touches [w] a ↔ pageOf a = pageOf w.address := by
    rw [← hw.touches_iff]
    simp [Journal.Touches]
  rw [byteAt?_writePage hf hw, Journal.Holds, Journal.byteAt?_append, Journal.touches_append, htouch,
    Journal.byteAt?_cons, Journal.byteAt?_nil, Option.none_or]
  -- a page that is made by the write reads as erased before it
  by_cases hpage : pageOf a = pageOf w.address
  · rw [if_pos hpage, h.getD_eq]
    cases w.byteAt? a <;> simp [hpage]
  · rw [if_neg hpage, hw.byteAt?_other hpage, h a b]
    simp [Journal.Holds, hpage]

/-- A file is well formed and reflects a journal. -/
structure Records (f : BlockFile) (j : Journal) : Prop where
  sound : f.Sound
  reflects : f.Reflects j

theorem Records.foldl_writePage {pieces : Journal} (h : f.Records j) (hpieces : ∀ p ∈ pieces, p.InPage) (flags : UInt32) :
    (pieces.foldl (fun f p => f.writePage p.address p.data flags) f).Records (j ++ pieces) := by
  induction pieces generalizing f j with
  | nil => simpa using h
  | cons p rest ih =>
    have hp := hpieces p (mem_cons_self ..)
    have hstep : (f.writePage p.address p.data flags).Records (j ++ [p]) :=
      ⟨h.sound.writePage hp flags, h.reflects.writePage h.sound hp flags⟩
    have := ih hstep fun q hq => hpieces q (mem_cons_of_mem p hq)
    rwa [append_assoc] at this

theorem Records.congr {k : Journal} (h : f.Records j) (hsame : Journal.Same j k) : f.Records k :=
  ⟨h.sound, fun a b => (h.reflects a b).trans (hsame.holds_iff a b)⟩

theorem write_eq (f : BlockFile) (w : Write) (flags : UInt32) : f.write w.address w.data flags =
      (pieces w).foldl (fun f p => f.writePage p.address p.data flags) f := by
  rw [pieces, foldl_map]
  rfl

/-- A write is one more entry of the journal. -/
theorem Records.write (h : f.Records j) (hlen : w.data.length ≤ 2 ^ 32) (flags : UInt32) :
    (f.write w.address w.data flags).Records (j ++ [w]) := by
  obtain ⟨hpages, hsame⟩ := pieces_spec w hlen
  rw [write_eq]
  exact (h.foldl_writePage hpages flags).congr (hsame.append_left j)

/-- So is a row of writes. -/
theorem Records.foldl_write {k : Journal} (h : f.Records j) (hlen : ∀ w ∈ k, w.data.length ≤ 2 ^ 32) (flags : UInt32) :
    (k.foldl (fun f w => f.write w.address w.data flags) f).Records (j ++ k) := by
  induction k generalizing f j with
  | nil => simpa using h
  | cons w rest ih =>
    have := ih (h.write (hlen w (mem_cons_self ..)) flags)
      fun v hv => hlen v (mem_cons_of_mem w hv)
    rwa [append_assoc] at this

end Uf2.BlockFile

end Firmware
