import Firmware.Proofs.ObjectHeader.FlatScan
import Firmware.Proofs.Uf2.Memory

/-!
# Placeholders in the pages of an image

A block file that holds an image of whole pages is scanned as the image is, at every fourth byte
(`follows_replaceInPages`). The markers of a page are looked up before any of its placeholders is replaced, which makes
no difference, since replacing one neither makes nor removes a marker behind it (`marker_later`). Nor do the erased
bytes matter that an object at the end of the image is read with (`at?_fill`): they are no zeros, and no part of a
placeholder.
-/

namespace Firmware
namespace ObjectHeader

open Uf2 BlockFile List

variable {t : Template} {b b' : Bytes} {f : BlockFile} {i j : Nat} {k : Kind}

/-! ## Markers -/

/-- A visit neither makes nor removes a marker behind it, as a header ends with a zero. -/
theorem marker_later (hvisit : visit t b i = .ok b') (hij : i + 2 ≤ j) :
    marker <+: b'.drop j ↔ marker <+: b.drop j := by
  obtain ⟨-, rfl⟩ | ⟨k, h, hstands, hok, rfl⟩ := visit_eq_ok hvisit
  · exact Iff.rfl
  · have hsize : size = 6 := rfl
    by_cases hj : i + size ≤ j
    · rw [Bytes.drop_overwrite_behind (hstands.fits h) hj]
    · refine ⟨fun hnew => ?_, fun hold => absurd hold (hstands.not_marker (by omega) (by omega))⟩
      -- four bytes from the third of the header on would cover its zero
      have hzero := hstands.overwrite_last hok
      have hbyte := Bytes.prefix_drop_iff.1 hnew (i + 5 - j) (by show _ < 4; omega)
      have hne : ∀ d < 4, marker[d]? ≠ some 0 := by decide
      rw [show j + (i + 5 - j) = i + 5 by omega, hzero] at hbyte
      exact absurd hbyte.symm (hne _ (by omega))

/-! ## Erased bytes -/

theorem eraseValue_notMem (k : Kind) : eraseValue ∉ k.placeholder := by
  cases k <;> decide

/-- A placeholder does not go on into erased bytes. -/
theorem placeholder_prefix_fill (c : Bytes) (r : Nat) :
    k.placeholder <+: c ++ List.replicate r eraseValue ↔ k.placeholder <+: c := by
  refine ⟨fun h => ?_, fun h => h.trans (List.prefix_append ..)⟩
  refine List.prefix_of_prefix_length_le h (List.prefix_append ..) ?_
  by_contra hlt
  have hshort : c.length < k.placeholder.length := by omega
  have hbyte := List.prefix_iff_getElem?.1 h c.length hshort
  rw [getElem?_append_right (Nat.le_refl _), getElem?_replicate] at hbyte
  split at hbyte
  · exact eraseValue_notMem k (Option.some.inj hbyte ▸ getElem_mem hshort)
  · exact nomatch hbyte

theorem startKind?_fill (c : Bytes) (r : Nat) : startKind? (c ++ List.replicate r eraseValue) = startKind? c := by
  refine Option.ext fun k => ?_
  rw [startKind?_eq_some, startKind?_eq_some, placeholder_prefix_fill]

/-- Erased bytes do not end a string. -/
theorem ofContent_fill (t : Template) (k : Kind) {c : Bytes} (hc : c ≠ []) (r : Nat) :
    ofContent t k (c ++ List.replicate r eraseValue) = ofContent t k c := by
  have hpos := length_pos_iff.2 hc
  rw [ofContent_eq, ofContent_eq]
  refine congrArg _ (funext fun vtable => ?_)
  cases k with
  | buffer =>
    rw [if_neg (by show ¬ _ ≤ 0; rw [length_append]; omega), if_neg (by show ¬ _ ≤ 0; omega)]
    rfl
  | string =>
    have hle : Kind.lengthOf .string c ≤ c.length := (List.takeWhile_prefix (· != 0)).length_le
    have hlength : Kind.lengthOf .string (c ++ List.replicate r eraseValue) =
        if Kind.lengthOf .string c = c.length then (c ++ List.replicate r eraseValue).length
        else Kind.lengthOf .string c := by
      show (List.takeWhile _ _).length = _
      rw [takeWhile_append, takeWhile_replicate, if_pos (by decide : (eraseValue != 0) = true)]
      exact apply_ite List.length ..
    -- a string without a zero has none in the erased bytes either, and is refused with them too
    by_cases hopen : Kind.lengthOf .string c = c.length
    · rw [if_pos (by rw [hlength, if_pos hopen]), if_pos (Nat.le_of_eq hopen.symm)]
    · rw [if_neg hopen] at hlength
      rw [hlength, if_neg (by rw [length_append]; omega), if_neg (by omega)]

/-- Erased bytes behind an object do not matter. -/
theorem at?_fill (t : Template) {c : Bytes} (hmarker : marker <+: c)
    (hsome : ∀ k : Kind, k.placeholder <+: c → size < c.length) (r : Nat) :
    at? t (c ++ List.replicate r eraseValue) = at? t c := by
  rw [at?_eq t (hmarker.trans (List.prefix_append ..)), at?_eq t hmarker, startKind?_fill]
  cases hkind : startKind? c with
  | none => rfl
  | some k =>
    have hlong := hsome k (startKind?_eq_some.1 hkind)
    have hc : c.drop size ≠ [] := ne_nil_of_length_pos (by rw [length_drop]; omega)
    simp only [drop_append_of_le_length (Nat.le_of_lt hlong), ofContent_fill t k hc]

/-! ## Files that hold an image -/

/-- Whether a block file has the bytes of an image, from address zero on, and no others. -/
structure HoldsImage (f : BlockFile) (b : Bytes) : Prop where
  sound : f.Sound
  byteAt? : ∀ a : UInt32, f.byteAt? a = b[a.toNat]?

/-- What is read from an offset on: the bytes of the image and erased ones behind its end. -/
theorem HoldsImage.read (hf : HoldsImage f b) (hlen : b.length ≤ 65536) (hi : i < b.length) {n : Nat}
    (hn : n ≤ payloadSize) :
    f.read i.toUInt32 n = some ((b.drop i).take n ++ List.replicate (n - (b.length - i)) eraseValue) := by
  have hsize : payloadSize = 256 := rfl
  have hnat : ∀ d ≤ 256, (i.toUInt32 + d.toUInt32).toNat = i + d := by
    intro d hd
    rw [UInt32.toNat_add, UInt32.toNat_ofNat_of_lt' (by show i < 4294967296; omega),
      UInt32.toNat_ofNat_of_lt' (by show d < 4294967296; omega)]
    omega
  have hthere : (f.byteAt? i.toUInt32).isSome := by
    rw [hf.byteAt?, UInt32.toNat_ofNat_of_lt' (by show i < 4294967296; omega), getElem?_eq_getElem hi]
    rfl
  obtain ⟨p, hp⟩ := exists_page hthere
  rw [hf.sound.read_eq hp hn]
  -- byte by byte: of the image, behind its end, or behind what is read
  refine congrArg some (ext_getElem? fun d => ?_)
  by_cases hd : d < n
  · rw [getElem?_bytesAt f _ hd, hf.byteAt?, hnat d (by omega)]
    by_cases hin : i + d < b.length
    · rw [getElem?_append_left (by rw [length_take, length_drop]; omega), getElem?_take_of_lt hd,
        getElem?_drop, getElem?_eq_getElem hin]
      rfl
    · rw [getElem?_append_right (by rw [length_take, length_drop]; omega),
        getElem?_eq_none (by omega), getElem?_replicate,
        if_pos (by rw [length_take, length_drop]; omega)]
      rfl
  · rw [getElem?_eq_none (by rw [length_bytesAt]; omega), getElem?_eq_none]
    rw [length_append, length_take, length_drop, length_replicate]
    omega

/-- A header that is written into the file is written into the image. -/
theorem HoldsImage.write (hf : HoldsImage f b) (hlen : b.length ≤ 65536) (hi : i + size ≤ b.length) (h : ObjectHeader) :
    HoldsImage (f.write i.toUInt32 h.encode 0) (b.overwrite i h.encode) := by
  have hsize : size = 6 := rfl
  have hnat : i.toUInt32.toNat = i := UInt32.toNat_ofNat_of_lt' (by show i < 4294967296; omega)
  have hstop : (⟨i.toUInt32, h.encode⟩ : Write).stop ≤ 2 ^ 32 := by
    show i.toUInt32.toNat + size ≤ 4294967296
    omega
  have hwrite : ∀ a : UInt32, (⟨i.toUInt32, h.encode⟩ : Write).byteAt? a =
      if i ≤ a.toNat then h.encode[a.toNat - i]? else none := by
    intro a
    rw [Write.byteAt?_eq hstop]
    dsimp only
    rw [hnat]
  have hthere : ∀ a, ((⟨i.toUInt32, h.encode⟩ : Write).byteAt? a).isSome → (f.byteAt? a).isSome := by
    intro a hsome
    obtain ⟨hle, hlt⟩ := (Write.isSome_byteAt? hstop a).1 hsome
    have hlt : a.toNat < i.toUInt32.toNat + size := hlt
    rw [hf.byteAt?, getElem?_eq_getElem (by omega : a.toNat < b.length)]
    rfl
  obtain ⟨hsound, hbytes⟩ := hf.sound.byteAt?_write (w := ⟨i.toUInt32, h.encode⟩) (cons_ne_nil _ _)
    (by show size ≤ 4294967296; decide) hthere 0
  refine ⟨hsound, fun a => ?_⟩
  rw [hbytes, hwrite, hf.byteAt?, Bytes.getElem?_overwrite hi]
  split
  · rfl
  · exact Option.none_or

/-! ## Scans -/

/-- Whether what was done to a block file is what was done to the image that it holds. -/
def Follows (r : Except Failure BlockFile) (s : Except Failure Bytes) : Prop :=
  match s with
  | .error e => r = .error e
  | .ok b => ∃ f, r = .ok f ∧ HoldsImage f b

theorem Follows.bind {r : Except Failure BlockFile} {s : Except Failure Bytes} (h : Follows r s)
    {g : BlockFile → Except Failure BlockFile} {g' : Bytes → Except Failure Bytes}
    (hnext : ∀ f b, s = .ok b → HoldsImage f b → Follows (g f) (g' b)) : Follows (r >>= g) (s >>= g') := by
  cases s with
  | error e =>
    obtain rfl : r = .error e := h
    rfl
  | ok b =>
    obtain ⟨f, rfl, hf⟩ := h
    exact hnext f b rfl hf

/-- What is done at the place of a marker. -/
def replaceAt (t : Template) (f : BlockFile) (address : UInt32) : Except Failure BlockFile := do
  match ← at? t ((f.read address window).getD []) with
  | none => return f
  | some h => return f.write address h.encode 0

theorem replaceInPage_eq (t : Template) (f : BlockFile) (number : UInt32) : replaceInPage t f number =
      (((List.range (payloadSize / 4)).map (· * 4)).filter fun off =>
        marker.isPrefixOf (((f.read (number <<< 8) payloadSize).getD []).drop off)).foldlM
      (fun f off => replaceAt t f (number <<< 8 + off.toUInt32)) f := rfl

/-- At the place of a marker the file and the image are treated alike. -/
theorem follows_replaceAt (hf : HoldsImage f b) (hlen : b.length ≤ 65536) (hrows : b.length % 4 = 0) (hi : i % 4 = 0)
    (hmarker : marker <+: b.drop i) : Follows (replaceAt t f i.toUInt32) (visit t b i) := by
  have hsize : size = 6 := rfl
  have hfour : marker.length = 4 := rfl
  have hlong := hmarker.length_le
  rw [length_drop] at hlong
  have hstands : ∀ k : Kind, k.placeholder <+: (b.drop i).take window → StandsAt b i k := fun k hk =>
    hk.trans (List.take_prefix ..)
  have hread : at? t ((f.read i.toUInt32 window).getD []) = at? t ((b.drop i).take window) := by
    rw [hf.read hlen (by omega) (by decide), Option.getD_some]
    refine at?_fill t (List.prefix_take_iff.2 ⟨hmarker, by decide⟩) (fun k hk => ?_) _
    -- an object at the end of whole words has two more bytes
    have hle := (hstands k hk).length_le
    have hwindow : window = 200 := rfl
    rw [length_take, length_drop]
    omega
  rw [visit_of_marker hmarker]
  unfold replaceAt
  rw [hread]
  cases hat : at? t ((b.drop i).take window) with
  | error e => rfl
  | ok found =>
    cases found with
    | none => exact ⟨f, rfl, hf⟩
    | some h =>
      obtain ⟨k, hk, -⟩ := exists_of_at? hat
      exact ⟨_, rfl, hf.write hlen (hstands k hk).length_le h⟩

/-- Places of a page at which the marker stood are those at which it stands when they are reached. -/
theorem follows_foldlM {start : Nat} {offsets : List Nat} {stood : Nat → Bool} (hf : HoldsImage f b)
    (hlen : b.length ≤ 65536) (hrows : b.length % 4 = 0) (hsorted : offsets.Pairwise (· + 4 ≤ ·))
    (hfourth : ∀ off ∈ offsets, (start + off) % 4 = 0)
    (hstood : ∀ off ∈ offsets, stood off = true ↔ marker <+: b.drop (start + off)) :
    Follows ((offsets.filter stood).foldlM (fun f off => replaceAt t f (start + off).toUInt32) f)
      (visitAll t b (offsets.map (start + ·))) := by
  induction offsets generalizing f b with
  | nil => exact ⟨f, rfl, hf⟩
  | cons off rest ih =>
    obtain ⟨hfirst, hsorted⟩ := pairwise_cons.1 hsorted
    have hrest := fun g b' (hvisit : visit t b (start + off) = .ok b') (hg : HoldsImage g b') => by
      have hlen' := length_of_visit hvisit
      refine @ih b' g hg (by omega) (by omega) hsorted (fun off' h' => hfourth off' (mem_cons_of_mem off h'))
        fun off' h' => ?_
      rw [marker_later hvisit (by have := hfirst off' h'; omega)]
      exact hstood off' (mem_cons_of_mem off h')
    rw [map_cons, visitAll_cons]
    by_cases hmarker : marker <+: b.drop (start + off)
    · rw [filter_cons_of_pos ((hstood off (mem_cons_self ..)).2 hmarker), foldlM_cons]
      exact (follows_replaceAt hf hlen hrows (hfourth off (mem_cons_self ..)) hmarker).bind
        fun g b' hvisit hg => hrest g b' hvisit hg
    · have hvisit := visit_of_not_marker (t := t) hmarker
      rw [filter_cons_of_neg (fun h => hmarker ((hstood off (mem_cons_self ..)).1 h)), hvisit]
      exact hrest f b hvisit hf

/-- The offsets of the words of a page. -/
def pageOffsets (page : Nat) : List Nat := ((List.range (payloadSize / 4)).map (· * 4)).map (256 * page + ·)

/-- A page is scanned as its part of the image is. -/
theorem follows_replaceInPage (hf : HoldsImage f b) (hlen : b.length ≤ 65536) (hpages : b.length % 256 = 0) {page : Nat}
    (hpage : 256 * page < b.length) : Follows (replaceInPage t f page.toUInt32) (visitAll t b (pageOffsets page)) := by
  have hsize : payloadSize = 256 := rfl
  have haddress : page.toUInt32 <<< 8 = (256 * page).toUInt32 := by
    apply UInt32.toNat_inj.1
    rw [UInt32.toNat_shiftLeft, UInt32.toNat_ofNat_of_lt' (by show page < 4294967296; omega),
      UInt32.toNat_ofNat_of_lt' (by show 256 * page < 4294967296; omega)]
    show page <<< 8 % 4294967296 = _
    rw [Nat.shiftLeft_eq]
    omega
  have hread : (f.read (page.toUInt32 <<< 8) payloadSize).getD [] = (b.drop (256 * page)).take payloadSize := by
    rw [haddress, hf.read hlen hpage (Nat.le_refl _), show payloadSize - (b.length - 256 * page) = 0 by omega,
      replicate_zero, append_nil, Option.getD_some]
  have hoffsets : ∀ off ∈ (List.range (payloadSize / 4)).map (· * 4), off % 4 = 0 ∧ off ≤ 252 := by
    intro off hoff
    obtain ⟨k, hk, rfl⟩ := mem_map.1 hoff
    have hk : k < 64 := mem_range.1 hk
    omega
  have hsum : ∀ off : Nat, page.toUInt32 <<< 8 + off.toUInt32 = (256 * page + off).toUInt32 := by
    intro off
    rw [haddress]
    exact (UInt32.ofNat_add ..).symm
  rw [replaceInPage_eq, hread]
  simp only [hsum]
  refine follows_foldlM hf hlen (by omega) ?_ (fun off hoff => ?_) fun off hoff => ?_
  · rw [pairwise_map]
    exact pairwise_lt_range.imp fun h => by omega
  · have := hoffsets off hoff
    omega
  · have := hoffsets off hoff
    rw [List.isPrefixOf_iff_prefix, drop_take, drop_drop, List.prefix_take_iff]
    exact and_iff_left (by show 4 ≤ _; omega)

/-- The offsets of the words of an image of pages. -/
def wordOffsets (pages : Nat) : List Nat := (List.range pages).flatMap pageOffsets

theorem mem_wordOffsets {pages : Nat} : i ∈ wordOffsets pages ↔ i < 256 * pages ∧ i % 4 = 0 := by
  have hquarter : payloadSize / 4 = 64 := rfl
  unfold wordOffsets pageOffsets
  simp only [mem_flatMap, mem_range, mem_map, exists_exists_and_eq_and, hquarter]
  constructor
  · rintro ⟨page, hpage, k, hk, rfl⟩
    omega
  · rintro ⟨hlt, hmod⟩
    exact ⟨i / 256, by omega, i % 256 / 4, by omega, by omega⟩

theorem pairwise_wordOffsets (pages : Nat) : (wordOffsets pages).Pairwise (· < ·) := by
  have hlt : ∀ {page i}, i ∈ pageOffsets page → 256 * page ≤ i ∧ i < 256 * page + 256 := by
    intro page i hi
    obtain ⟨off, hoff, rfl⟩ := mem_map.1 hi
    obtain ⟨k, hk, rfl⟩ := mem_map.1 hoff
    have hk : k < 64 := mem_range.1 hk
    omega
  unfold wordOffsets
  rw [pairwise_flatMap]
  refine ⟨fun page _ => ?_, pairwise_lt_range.imp fun {page page'} h i hi j hj => ?_⟩
  · unfold pageOffsets
    rw [pairwise_map, pairwise_map]
    exact pairwise_lt_range.imp fun h => by omega
  · have := hlt hi
    have := hlt hj
    omega

/-- Pages are scanned one after the other as their parts of the image are. -/
theorem follows_foldlM_pages {pages : Nat} (hlen : 256 * pages ≤ 65536) (numbers : List Nat)
    (hall : ∀ page ∈ numbers, page < pages) (hf : HoldsImage f b) (hpages : b.length = 256 * pages) :
    Follows (numbers.foldlM (fun f page => replaceInPage t f page.toUInt32) f)
      (visitAll t b (numbers.flatMap pageOffsets)) := by
  induction numbers generalizing f b with
  | nil => exact ⟨f, rfl, hf⟩
  | cons page rest ih =>
    have hpage := hall page (mem_cons_self ..)
    rw [foldlM_cons, flatMap_cons, visitAll_append]
    refine (follows_replaceInPage hf (by omega) (by omega) (by omega)).bind fun g b' hscan hg => ?_
    exact ih (fun page hp => hall page (mem_cons_of_mem _ hp)) hg ((length_of_visitAll hscan).trans hpages)

/-- **The pages of an image** are scanned as the image is. -/
theorem follows_replaceInPages (hf : HoldsImage f b) {pages : Nat} (hlen : 256 * pages ≤ 65536)
    (hpages : b.length = 256 * pages) (hnumbers : f.pageNumbers = (List.range pages).map Nat.toUInt32) :
    Follows (replaceInPages t f) (visitAll t b (wordOffsets pages)) := by
  unfold replaceInPages wordOffsets
  rw [hnumbers, foldlM_map]
  exact follows_foldlM_pages hlen _ (fun page hpage => mem_range.1 hpage) hf hpages

end ObjectHeader
end Firmware
